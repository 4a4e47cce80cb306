import UpdateSeal.Proofs.Tokens

/-!
# Strings are read back

A character is written as itself, with a short escape, or as one or two escaped units. In each case
the pieces that are read join to the character again, so a string is one token with the text it was
written from.
-/

namespace UpdateSeal

theorem Bytes.forall_mem_hexChars {P : Char → Prop} (hdigit : ∀ n < 16, P (hexDigit n)) (b : Bytes) :
    ∀ c ∈ hexChars b, P c := by
  induction b with
  | nil => exact List.forall_mem_nil P
  | cons d b ih =>
    have hd := d.toNat_lt
    rw [hexChars]
    exact List.forall_mem_cons.2 ⟨hdigit _ (by omega), List.forall_mem_cons.2 ⟨hdigit _ (by omega), ih⟩⟩

theorem Bytes.toNat_lt_of_mem_hexChars {b : Bytes} {c : Char} (hc : c ∈ hexChars b) :
    c.toNat < 128 :=
  forall_mem_hexChars (P := fun c => c.toNat < 128) (by decide +kernel) b c hc

namespace Json

theorem hexValue?_hexDigit {n : ℕ} (hn : n < 16) : hexValue? (Bytes.hexDigit n) = some n := by
  revert n
  decide

theorem unitEscape_eq (n : ℕ) :
    unitEscape n = ['\\', 'u', Bytes.hexDigit (n / 256 % 256 / 16), Bytes.hexDigit (n / 256 % 256 % 16),
      Bytes.hexDigit (n % 256 / 16), Bytes.hexDigit (n % 256 % 16)] := by
  simp [unitEscape, Bytes.ofNat, Bytes.ofNat.go, Bytes.hexChars]

variable {rules : Rules} {c : Char} {rest : List Char} {done : List Piece} {count : ℕ}

theorem pieces_unitEscape {n : ℕ} (hn : n < 0x10000) :
    pieces done count (unitEscape n ++ rest) =
      pieces (.unit n :: done) (count + (unitEscape n).length) rest := by
  have hunit : hexUnit? (Bytes.hexDigit (n / 256 % 256 / 16)) (Bytes.hexDigit (n / 256 % 256 % 16))
      (Bytes.hexDigit (n % 256 / 16)) (Bytes.hexDigit (n % 256 % 16)) = some n := by
    rw [hexUnit?, hexValue?_hexDigit (by omega), hexValue?_hexDigit (by omega),
      hexValue?_hexDigit (by omega), hexValue?_hexDigit (by omega)]
    simp only [bind, Option.bind, pure]
    congr 1
    omega
  rw [unitEscape_eq]
  simp only [List.cons_append, List.nil_append, pieces, hunit, List.length_cons, List.length_nil]

def piecesOf (ascii : Bool) (c : Char) : List Piece :=
  match shortEscape? c with
  | some _ => [.char c]
  | none =>
    let n := c.toNat
    if n < 32 then [.unit n]
    else if !ascii || n < 127 then [.char c]
    else if n < 0x10000 then [.unit n]
    else [.unit (0xd800 + (n - 0x10000) / 0x400), .unit (0xdc00 + (n - 0x10000) % 0x400)]

theorem pieces_shortEscape {e : Char} (he : shortEscape? c = some e) :
    pieces done count ('\\' :: e :: rest) = pieces (.char c :: done) (count + 2) rest := by
  unfold shortEscape? at he
  split at he <;> cases he <;> simp [pieces, escaped?]

theorem pieces_char (he : shortEscape? c = none) (hc : ¬ c.toNat < 32) :
    pieces done count (c :: rest) = pieces (.char c :: done) (count + 1) rest := by
  have hquote : c ≠ '"' := by rintro rfl; cases he
  have hslash : c ≠ '\\' := by rintro rfl; cases he
  have hlow : ¬ c < ' ' := hc
  rw [pieces.eq_def]
  split
  · next h => cases h
  · next h => exact absurd (List.cons.inj h).1 hquote
  · next h => exact absurd (List.cons.inj h).1 hslash
  · next h => exact absurd (List.cons.inj h).1 hslash
  · next h =>
    obtain ⟨rfl, rfl⟩ := List.cons.inj h
    rw [if_neg (not_or.2 ⟨hlow, hslash⟩)]

theorem toNat_lt (c : Char) : c.toNat < 0x110000 := by
  rcases c.valid with h | h <;> unfold Char.toNat <;> omega

theorem pieces_escapeChar (ascii : Bool) (c : Char) :
    pieces done count (escapeChar ascii c ++ rest) =
      pieces ((piecesOf ascii c).reverse ++ done) (count + (escapeChar ascii c).length) rest := by
  have hlt := toNat_lt c
  unfold escapeChar piecesOf
  cases he : shortEscape? c with
  | some e => exact pieces_shortEscape he
  | none =>
    simp only
    split
    · next hlow => exact pieces_unitEscape (Nat.lt_trans hlow (by decide))
    · next hlow =>
      split
      · exact pieces_char he hlow
      · split
        · next hunit => exact pieces_unitEscape hunit
        · rw [List.append_assoc, pieces_unitEscape (by omega), pieces_unitEscape (by omega),
            List.length_append, Nat.add_assoc]
          rfl

theorem joinPieces_unit (unpaired : Option Char) {n : ℕ} (hn : n < 0xd800 ∨ 0xe000 ≤ n)
    (ps : List Piece) :
    joinPieces unpaired (.unit n :: ps) = (joinPieces unpaired ps).map (Char.ofNat n :: ·) := by
  have hhigh : isHighUnit n = false := by simp [isHighUnit]; omega
  have hlow : isLowUnit n = false := by simp [isLowUnit]; omega
  cases ps with
  | nil => simp [joinPieces, hhigh, hlow]
  | cons p ps => cases p <;> simp [joinPieces, hhigh, hlow]

theorem joinPieces_piecesOf (unpaired : Option Char) (ascii : Bool) (c : Char) (ps : List Piece) :
    joinPieces unpaired (piecesOf ascii c ++ ps) = (joinPieces unpaired ps).map (c :: ·) := by
  have hvalid : c.toNat < 0xd800 ∨ 0xe000 ≤ c.toNat := by
    rcases c.valid with h | h <;> unfold Char.toNat <;> omega
  have hlt := toNat_lt c
  have hunit := joinPieces_unit unpaired hvalid ps
  rw [Char.ofNat_toNat] at hunit
  unfold piecesOf
  split
  · rw [List.singleton_append, joinPieces]
  · simp only
    split
    · exact hunit
    · split
      · rw [List.singleton_append, joinPieces]
      · split
        · exact hunit
        · next hpair =>
          -- the two units of a pair join to the character that they were cut from
          have hhigh : isHighUnit (0xd800 + (c.toNat - 0x10000) / 0x400) := by
            simp [isHighUnit]; omega
          have hlow : isLowUnit (0xdc00 + (c.toNat - 0x10000) % 0x400) := by
            simp [isLowUnit]; omega
          have hnum : 0x10000 + (0xd800 + (c.toNat - 0x10000) / 0x400 - 0xd800) * 0x400 +
              (0xdc00 + (c.toNat - 0x10000) % 0x400 - 0xdc00) = c.toNat := by omega
          rw [List.cons_append, List.singleton_append, joinPieces, hhigh, hlow, Bool.and_true,
            if_pos rfl, hnum, Char.ofNat_toNat]

theorem pieces_flatMap (ascii : Bool) (cs : List Char) :
    pieces done count (cs.flatMap (escapeChar ascii) ++ '"' :: rest) =
      some (done.reverse ++ cs.flatMap (piecesOf ascii),
        count + (cs.flatMap (escapeChar ascii)).length + 1) := by
  induction cs generalizing done count with
  | nil => simp [pieces]
  | cons c cs ih =>
    rw [List.flatMap_cons, List.append_assoc, pieces_escapeChar, ih, List.flatMap_cons,
      List.length_append, List.reverse_append, List.reverse_reverse, List.append_assoc]
    simp only [Nat.add_assoc]

theorem joinPieces_flatMap (unpaired : Option Char) (ascii : Bool) (cs : List Char) :
    joinPieces unpaired (cs.flatMap (piecesOf ascii)) = some cs := by
  induction cs with
  | nil => rfl
  | cons c cs ih => rw [List.flatMap_cons, joinPieces_piecesOf, ih, Option.map_some]

/-- A string is read back as one token. -/
theorem tokens_writeString (ascii : Bool) (s : String) (rest : List Char) :
    tokens rules (writeString ascii s ++ rest) = .str s :: tokens rules rest := by
  have hl : lex rules '"' (s.toList.flatMap (escapeChar ascii) ++ '"' :: rest) =
      (.str s, (s.toList.flatMap (escapeChar ascii)).length + 1) := by
    simp only [lex, pieces_flatMap, List.reverse_nil, List.nil_append, joinPieces_flatMap,
      String.ofList_toList, Nat.zero_add]
  have htext : writeString ascii s ++ rest =
      '"' :: (s.toList.flatMap (escapeChar ascii) ++ '"' :: rest) := by
    simp [writeString]
  rw [htext, tokens_of_lex rfl hl (by simp), ← List.singleton_append (l := rest), ← List.append_assoc,
    List.drop_left' (by simp)]

end Json

end UpdateSeal
