import Mathlib.Algebra.Ring.Int.Defs
import Mathlib.Algebra.Ring.Nat
import UpdateSeal.Json.Token
import UpdateSeal.Json.Writer

/-!
# Tokens are read back

Names of plain characters and whole numbers are read back as single tokens from what was written.
Under the rules that count the sign, a whole number that is read is never written longer than is
read.
-/

namespace UpdateSeal.Json

variable {rules : Rules}

/-! ### Numbers -/

/-- A character that ends the number before it. -/
def endsNumber (c : Char) : Bool := !isDigit c && c != '.' && c != 'e' && c != 'E'

theorem numeral_toDigits (n : Nat) : numeral (Nat.toDigits 10 n) = n := Nat.ofDigitChars_ten_toDigits

theorem isDigit_of_mem_toDigits {n : Nat} {c : Char} (hc : c ∈ Nat.toDigits 10 n) :
    isDigit c = true := by
  have h := Nat.isDigit_of_mem_toDigits (by decide) (by decide) hc
  simpa [isDigit, Char.isDigit, Char.le_def] using h

theorem toDigits_eq_cons_zero {n : Nat} {rest : List Char} (h : Nat.toDigits 10 n = '0' :: rest) :
    rest = [] := by
  induction n using Nat.strongRecOn generalizing rest with
  | ind n ih =>
    rw [Nat.toDigits_eq_if (by decide)] at h
    split at h
    · exact (List.cons.inj h).2.symm
    · next hn =>
      cases hd : Nat.toDigits 10 (n / 10) with
      | nil => exact absurd hd Nat.toDigits_ne_nil
      | cons c cs =>
        rw [hd, List.cons_append] at h
        obtain ⟨rfl, -⟩ := List.cons.inj h
        have hcs := ih (n / 10) (by omega) hd
        have hz := numeral_toDigits (n / 10)
        rw [hd, hcs] at hz
        have : n / 10 = 0 := hz.symm
        omega

theorem takeWhile_isDigit_append {ds : List Char} (hds : ∀ c ∈ ds, isDigit c = true) {c : Char}
    (hc : isDigit c = false) (rest : List Char) : (ds ++ c :: rest).takeWhile isDigit = ds := by
  rw [List.takeWhile_append_of_pos hds, List.takeWhile_cons_of_neg (by simp [hc]), List.append_nil]

theorem wholeDigits_toDigits (n : Nat) {c : Char} (hc : isDigit c = false) (rest : List Char) :
    wholeDigits (Nat.toDigits 10 n ++ c :: rest) = Nat.toDigits 10 n := by
  have hds : ∀ d ∈ Nat.toDigits 10 n, isDigit d := fun d => isDigit_of_mem_toDigits
  unfold wholeDigits
  split
  · next h =>
    cases hd : Nat.toDigits 10 n with
    | nil => exact absurd hd Nat.toDigits_ne_nil
    | cons d ds =>
      rw [hd, List.cons_append] at h
      obtain ⟨rfl, -⟩ := List.cons.inj h
      rw [toDigits_eq_cons_zero hd]
  · exact takeWhile_isDigit_append hds hc rest

theorem fractionDigits_of_endsNumber {c : Char} (hc : endsNumber c) (rest : List Char) :
    fractionDigits (c :: rest) = (none, 0) := by
  unfold fractionDigits
  split
  · next h =>
    obtain ⟨rfl, -⟩ := List.cons.inj h
    exact absurd hc (by decide)
  · rfl

theorem exponentPart_of_endsNumber {c : Char} (hc : endsNumber c) (rest : List Char) :
    exponentPart (c :: rest) = (none, 0) := by
  simp only [endsNumber, Bool.and_eq_true, bne_iff_ne] at hc
  simp [exponentPart, hc]

/-- A number that is short enough with its sign is short enough for any rules. -/
theorem Numeral.counted_le {n : Numeral} (hl : n.negative.toNat + n.whole.length ≤ maxDigits) :
    n.counted rules ≤ maxDigits := by
  unfold counted
  split
  · exact hl
  · split <;> omega

theorem lexNumber_toDigits {n : Nat} {negative : Bool}
    (hl : negative.toNat + (Nat.toDigits 10 n).length ≤ maxDigits) {c : Char}
    (hc : endsNumber c) (rest : List Char) :
    lexNumber rules negative (Nat.toDigits 10 n ++ c :: rest) =
      (.int (if negative then -(n : Int) else n), (Nat.toDigits 10 n).length) := by
  have hcounted : Numeral.counted rules ⟨negative, Nat.toDigits 10 n, none, none⟩ ≤ maxDigits :=
    Numeral.counted_le hl
  have hd : isDigit c = false := by
    simp only [endsNumber, Bool.and_eq_true, Bool.not_eq_true'] at hc
    exact hc.1.1.1
  unfold lexNumber
  rw [wholeDigits_toDigits n hd]
  split
  · next h => exact absurd h Nat.toDigits_ne_nil
  · simp only [List.drop_left, fractionDigits_of_endsNumber hc, List.drop_zero,
      exponentPart_of_endsNumber hc, Numeral.token, if_neg (Nat.not_lt.2 hcounted), numeral_toDigits,
      Nat.add_zero]

/-! ### Strings -/

/-- A character that stands for itself in a string. -/
def isPlain (c : Char) : Bool := shortEscape? c == none && 32 ≤ c.toNat && c.toNat < 127

theorem escapeChar_of_isPlain (ascii : Bool) {c : Char} (hc : isPlain c) :
    escapeChar ascii c = [c] := by
  simp only [isPlain, Bool.and_eq_true, beq_iff_eq, decide_eq_true_eq] at hc
  obtain ⟨⟨he, hlow⟩, hhigh⟩ := hc
  simp [escapeChar, he, Nat.not_lt.2 hlow, hhigh]

theorem flatMap_escapeChar_of_isPlain (ascii : Bool) {cs : List Char} (hcs : ∀ c ∈ cs, isPlain c) :
    cs.flatMap (escapeChar ascii) = cs := by
  induction cs with
  | nil => rfl
  | cons c cs ih =>
    rw [List.flatMap_cons, escapeChar_of_isPlain ascii (hcs c List.mem_cons_self),
      ih fun c hc => hcs c (List.mem_cons_of_mem _ hc), List.singleton_append]

/-! ### Tokens of a text -/

theorem tokens_of_lex {c : Char} {rest : List Char} {t : Token} {n : Nat} (hb : isBlank c = false)
    (hl : lex rules c rest = (t, n)) (ht : t ≠ .invalid) :
    tokens rules (c :: rest) = t :: tokens rules (rest.drop n) := by
  rw [tokens, hb, if_neg Bool.false_ne_true, hl]
  simp only [if_neg ht]

theorem tokens_openArray (rest : List Char) :
    tokens rules ('[' :: rest) = .openArray :: tokens rules rest :=
  tokens_of_lex (by decide) (rfl : lex rules '[' rest = (.openArray, 0)) (by simp)

theorem tokens_closeArray (rest : List Char) :
    tokens rules (']' :: rest) = .closeArray :: tokens rules rest :=
  tokens_of_lex (by decide) (rfl : lex rules ']' rest = (.closeArray, 0)) (by simp)

theorem tokens_openObject (rest : List Char) :
    tokens rules ('\x7b' :: rest) = .openObject :: tokens rules rest :=
  tokens_of_lex (by decide) (rfl : lex rules '\x7b' rest = (.openObject, 0)) (by simp)

theorem tokens_closeObject (rest : List Char) :
    tokens rules ('\x7d' :: rest) = .closeObject :: tokens rules rest :=
  tokens_of_lex (by decide) (rfl : lex rules '\x7d' rest = (.closeObject, 0)) (by simp)

theorem tokens_comma (rest : List Char) :
    tokens rules (',' :: rest) = .comma :: tokens rules rest :=
  tokens_of_lex (by decide) (rfl : lex rules ',' rest = (.comma, 0)) (by simp)

theorem tokens_colon (rest : List Char) :
    tokens rules (':' :: rest) = .colon :: tokens rules rest :=
  tokens_of_lex (by decide) (rfl : lex rules ':' rest = (.colon, 0)) (by simp)

theorem tokens_null (rest : List Char) :
    tokens rules ("null".toList ++ rest) = .null :: tokens rules rest := by
  have hl : lex rules 'n' ("ull".toList ++ rest) = (.null, 3) := by
    simp [lex, words, List.isPrefixOf]
  exact tokens_of_lex rfl hl (by simp)

theorem tokens_true (rest : List Char) :
    tokens rules ("true".toList ++ rest) = .bool true :: tokens rules rest := by
  have hl : lex rules 't' ("rue".toList ++ rest) = (.bool true, 3) := by
    simp [lex, words, List.isPrefixOf]
  exact tokens_of_lex rfl hl (by simp)

theorem tokens_false (rest : List Char) :
    tokens rules ("false".toList ++ rest) = .bool false :: tokens rules rest := by
  have hl : lex rules 'f' ("alse".toList ++ rest) = (.bool false, 4) := by
    simp [lex, words, List.isPrefixOf]
  exact tokens_of_lex rfl hl (by simp)

theorem writeInt_natCast (n : Nat) : writeInt n = Nat.toDigits 10 n := by
  simp [writeInt, Int.repr_eq_if]

theorem ne_of_isDigit {c d : Char} (hc : isDigit c) (hd : isDigit d = false) : c ≠ d := by
  rintro rfl
  simp [hc] at hd

theorem lex_of_isDigit {c : Char} (hc : isDigit c) (rest : List Char) :
    lex rules c rest =
      ((lexNumber rules false (c :: rest)).1, (lexNumber rules false (c :: rest)).2 - 1) := by
  have hne : ∀ d, isDigit d = false → c ≠ d := fun d => ne_of_isDigit hc
  have hwords : words.find? (fun w => w.1.isPrefixOf (c :: rest)) = none := by
    simp [words, List.isPrefixOf, Ne.symm (hne 'n' rfl), Ne.symm (hne 't' rfl),
      Ne.symm (hne 'f' rfl), Ne.symm (hne 'N' rfl), Ne.symm (hne 'I' rfl), Ne.symm (hne '-' rfl)]
  unfold lex
  split
  case h_8 => simp [hwords, hne '-' rfl]
  all_goals exact absurd hc (by decide)

/-! ### Numbers that are read -/

theorem foldl_digits_lt {ds : List Char} (hds : ∀ c ∈ ds, isDigit c) (n : Nat) :
    ds.foldl (fun n c => 10 * n + digitValue c) n < (n + 1) * 10 ^ ds.length := by
  induction ds generalizing n with
  | nil => simp
  | cons c ds ih =>
    have hc : digitValue c ≤ 9 := by
      have hd := hds c List.mem_cons_self
      simp only [isDigit, Bool.and_eq_true, decide_eq_true_eq] at hd
      have : c.toNat ≤ 57 := hd.2
      rw [digitValue]
      omega
    have hstep := ih (fun c hc => hds c (List.mem_cons_of_mem _ hc)) (10 * n + digitValue c)
    have hle : (10 * n + digitValue c + 1) * 10 ^ ds.length ≤ (10 * n + 10) * 10 ^ ds.length :=
      Nat.mul_le_mul_right _ (by omega)
    rw [List.foldl_cons, List.length_cons, Nat.pow_succ]
    grind

theorem numeral_lt {ds : List Char} (hds : ∀ c ∈ ds, isDigit c) : numeral ds < 10 ^ ds.length := by
  simpa [numeral] using foldl_digits_lt hds 0

theorem numeral_lt_of_length_le {ds : List Char} {m : Nat} (hds : ∀ c ∈ ds, isDigit c)
    (hl : ds.length ≤ m) : numeral ds < 10 ^ m :=
  Nat.lt_of_lt_of_le (numeral_lt hds) (Nat.pow_le_pow_right (by decide) hl)

theorem isDigit_of_mem_wholeDigits {cs : List Char} {c : Char} (hc : c ∈ wholeDigits cs) :
    isDigit c := by
  unfold wholeDigits at hc
  split at hc
  · rw [List.mem_singleton.1 hc]
    decide
  · exact List.all_eq_true.1 List.all_takeWhile c hc

/-- A whole number that is written, its sign included, in as many characters as are read. -/
def Bounded (n : Int) : Prop := n < 10 ^ maxDigits ∧ -n < 10 ^ (maxDigits - 1)

theorem natCast_lt_pow {n k : Nat} : (n : Int) < 10 ^ k ↔ n < 10 ^ k := by
  rw [← Int.ofNat_lt, Int.natCast_pow]
  rfl

theorem bounded_natCast {n : Nat} : Bounded n ↔ n < 10 ^ maxDigits := by
  have hpos : (0 : Int) < 10 ^ (maxDigits - 1) := Int.pow_pos (by decide)
  have hneg : -(n : Int) < 10 ^ (maxDigits - 1) := Int.lt_of_le_of_lt (by omega) hpos
  rw [Bounded, natCast_lt_pow]
  exact and_iff_left hneg

theorem bounded_neg_natCast {n : Nat} : Bounded (-n) ↔ n < 10 ^ (maxDigits - 1) := by
  have hpos : (0 : Int) < 10 ^ maxDigits := Int.pow_pos (by decide)
  have hneg : -(n : Int) < 10 ^ maxDigits := Int.lt_of_le_of_lt (by omega) hpos
  rw [Bounded, Int.neg_neg, natCast_lt_pow]
  exact and_iff_right hneg

theorem bounded_of_small {n : Int} (h : n.natAbs < 10 ^ 20) : Bounded n := by
  have hpow : ∀ k, 20 ≤ k → n.natAbs < 10 ^ k := fun k hk =>
    Nat.lt_of_lt_of_le h (Nat.pow_le_pow_right (by decide) hk)
  rcases Int.natAbs_eq n with hn | hn
  · exact hn ▸ bounded_natCast.2 (hpow maxDigits (by decide))
  · exact hn ▸ bounded_neg_natCast.2 (hpow (maxDigits - 1) (by decide))

/-- The bound in terms of what is written: the sign and the digits. -/
theorem bounded_iff_length {n : Int} :
    Bounded n ↔ (decide (n < 0)).toNat + (Nat.toDigits 10 n.natAbs).length ≤ maxDigits := by
  have hlength : ∀ m k : Nat, 0 < k → ((Nat.toDigits 10 m).length ≤ k ↔ m < 10 ^ k) :=
    fun m k hk => Nat.length_toDigits_le_iff (by decide) hk
  rcases Int.lt_or_le n 0 with hneg | hpos
  · obtain ⟨m, rfl⟩ : ∃ m : Nat, n = -m := ⟨n.natAbs, by omega⟩
    rw [bounded_neg_natCast, decide_eq_true hneg, Int.natAbs_neg, Int.natAbs_natCast, Bool.toNat_true,
      ← hlength m _ (by decide), maxDigits]
    omega
  · obtain ⟨m, rfl⟩ := Int.eq_ofNat_of_zero_le hpos
    rw [bounded_natCast, decide_eq_false (by omega), Int.natAbs_natCast, Bool.toNat_false, Nat.zero_add,
      hlength m _ (by decide)]

def Token.Bounded : Token → Prop
  | .int n => Json.Bounded n
  | _ => True

theorem Numeral.token_bounded (hsign : rules.countsSign = true) {n : Numeral}
    (hn : ∀ c ∈ n.whole, isDigit c) : (n.token rules).Bounded := by
  unfold Numeral.token counted
  rw [if_pos hsign]
  split
  · trivial
  · next hl =>
    split
    · simp only [Token.Bounded]
      split
      · next hneg =>
        rw [hneg, Bool.toNat_true] at hl
        exact bounded_neg_natCast.2 (numeral_lt_of_length_le hn (by omega))
      · exact bounded_natCast.2 (numeral_lt_of_length_le hn (by omega))
    · trivial

theorem lexNumber_bounded (hsign : rules.countsSign = true) (negative : Bool) (cs : List Char) :
    (lexNumber rules negative cs).1.Bounded := by
  unfold lexNumber
  split
  · trivial
  · exact Numeral.token_bounded hsign fun c => isDigit_of_mem_wholeDigits

theorem words_bounded : ∀ w ∈ words, w.2.Bounded := by
  simp [words, Token.Bounded]

theorem lex_bounded (hsign : rules.countsSign = true) (c : Char) (rest : List Char) :
    (lex rules c rest).1.Bounded := by
  unfold lex
  split
  case h_7 =>
    split
    · trivial
    · split <;> trivial
  case h_8 =>
    split
    · next hw => exact words_bounded _ (List.mem_of_find?_eq_some hw)
    · split <;> exact lexNumber_bounded hsign _ _
  all_goals trivial

theorem tokens_bounded (hsign : rules.countsSign = true) (text : List Char) :
    ∀ t ∈ tokens rules text, t.Bounded := by
  induction text using tokens.induct rules with
  | case1 => simp [tokens]
  | case2 c rest hb ih =>
    rw [tokens, if_pos hb]
    exact ih
  | case3 c rest hb n hl =>
    rw [tokens, if_neg hb, hl]
    simp [Token.Bounded]
  | case4 c rest hb t n hl ht ih =>
    have hc := lex_bounded hsign c rest
    rw [hl] at hc
    rw [tokens, if_neg hb, hl]
    simp only [if_neg ht, List.forall_mem_cons]
    exact ⟨hc, ih⟩

end UpdateSeal.Json
