import UpdateSeal.Key.Pem
import UpdateSeal.Proofs.Manifests
import UpdateSeal.Proofs.Numerals

/-!
# Written blocks are read back

Base 64 is written with fillers and read back, and so is a block that stands alone in a file.
-/

namespace UpdateSeal

namespace Pem

def sextetChar (n : Nat) : Char :=
  if n < 26 then Char.ofNat (n + 65)
  else if n < 52 then Char.ofNat (n + 71)
  else if n < 62 then Char.ofNat (n - 4)
  else if n = 62 then '+' else '/'

def base64 : Bytes → List Char
  | [] => []
  | [a] =>
    let n := a.toNat * 16
    [sextetChar (n / 64), sextetChar (n % 64), '=', '=']
  | [a, b] =>
    let n := Bytes.toNat [a, b] * 4
    [sextetChar (n / 4096), sextetChar (n / 64 % 64), sextetChar (n % 64), '=']
  | a :: b :: c :: rest =>
    let n := Bytes.toNat [a, b, c]
    sextetChar (n / 262144) :: sextetChar (n / 4096 % 64) :: sextetChar (n / 64 % 64) ::
      sextetChar (n % 64) :: base64 rest

/-- The base 64 of a block, as bytes. -/
def armour (content : Bytes) : Bytes := Bytes.ofText (String.ofList (base64 content))

/-- Writes `content` as a block in a file of its own. -/
def write (label : String) (content : Bytes) : Bytes :=
  beginMark ++ (Bytes.ofText label ++ (dashes ++ ([10] ++ ((armour content ++ [10]) ++
    (endMark ++ (Bytes.ofText label ++ (dashes ++ [10])))))))

/-! ### Base 64 -/

theorem sextet?_sextetChar {n : Nat} (hn : n < 64) : sextet? (sextetChar n) = some n := by
  revert n
  decide

/-- A character of base 64 ends neither the text nor a line. -/
def Plain (c : Char) : Prop :=
  Text.isBlank c = false ∧ ∀ b ∈ String.utf8EncodeChar c, b ≠ 45 ∧ b ≠ 10 ∧ b ≠ 13 ∧ b ≠ 32 ∧ b ≠ 9

instance (c : Char) : Decidable (Plain c) := inferInstanceAs (Decidable (_ ∧ _))

theorem plain_sextetChar {n : Nat} (hn : n < 64) : Plain (sextetChar n) := by
  revert n
  decide +kernel

theorem sextetChar_ne {n : Nat} (hn : n < 64) : sextetChar n ≠ '=' := by
  revert n
  decide +kernel

theorem plain_base64 (b : Bytes) : ∀ c ∈ base64 b, Plain c := by
  have hfill : Plain '=' := by decide +kernel
  fun_induction base64 b with
  | case1 => simp
  | case2 a n =>
    have ha := a.toNat_lt
    simp only [List.forall_mem_cons]
    exact ⟨plain_sextetChar (by omega), plain_sextetChar (by omega), hfill, hfill, by simp⟩
  | case3 a b n =>
    have hab : Bytes.toNat [a, b] < 256 ^ 2 := Bytes.toNat_lt [a, b]
    simp only [List.forall_mem_cons]
    exact ⟨plain_sextetChar (by omega), plain_sextetChar (by omega), plain_sextetChar (by omega),
      hfill, by simp⟩
  | case4 a b c rest n ih =>
    have habc : Bytes.toNat [a, b, c] < 256 ^ 3 := Bytes.toNat_lt [a, b, c]
    simp only [List.forall_mem_cons]
    exact ⟨plain_sextetChar (by omega), plain_sextetChar (by omega), plain_sextetChar (by omega),
      plain_sextetChar (by omega), ih⟩

theorem unbase64_cons {a b c d : Char} (hd : d ≠ '=') (rest : List Char) :
    unbase64 (a :: b :: c :: d :: rest) = (do
      let n := (((← sextet? a) * 64 + (← sextet? b)) * 64 + (← sextet? c)) * 64 + (← sextet? d)
      return Bytes.ofNat 3 n ++ (← unbase64 rest)) := by
  rw [unbase64] <;> simp_all

theorem unbase64_base64 (b : Bytes) : unbase64 (base64 b) = some b := by
  fun_induction base64 b with
  | case1 => rfl
  | case2 a n =>
    have ha := a.toNat_lt
    have hn : n / 64 * 64 + n % 64 = n := by omega
    have hzero : n % 16 = 0 := by omega
    have hbyte : n / 16 = a.toNat := by omega
    rw [unbase64, sextet?_sextetChar (by omega), sextet?_sextetChar (by omega)]
    simp [hn, hzero, hbyte]
  | case3 a b n =>
    have hab : Bytes.toNat [a, b] < 256 ^ 2 := Bytes.toNat_lt [a, b]
    have hn : (n / 4096 * 64 + n / 64 % 64) * 64 + n % 64 = n := by omega
    have hzero : n % 4 = 0 := by omega
    have hbytes : Bytes.ofNat 2 (n / 4) = [a, b] := by
      rw [show n / 4 = Bytes.toNat [a, b] by omega]
      exact Bytes.ofNat_toNat [a, b]
    rw [unbase64, sextet?_sextetChar (by omega), sextet?_sextetChar (by omega),
      sextet?_sextetChar (by omega)]
    · simp [hn, hzero, hbytes]
    · exact fun h => sextetChar_ne (by omega) h
  | case4 a b c rest n ih =>
    have habc : Bytes.toNat [a, b, c] < 256 ^ 3 := Bytes.toNat_lt [a, b, c]
    have hn : ((n / 262144 * 64 + n / 4096 % 64) * 64 + n / 64 % 64) * 64 + n % 64 = n := by omega
    have hbytes : Bytes.ofNat 3 n = [a, b, c] := Bytes.ofNat_toNat [a, b, c]
    rw [unbase64_cons (sextetChar_ne (by omega)), sextet?_sextetChar (by omega),
      sextet?_sextetChar (by omega), sextet?_sextetChar (by omega), sextet?_sextetChar (by omega), ih]
    simp [hn, hbytes]

/-! ### Blocks -/

variable {mark before behind : Bytes} {m : UInt8}

/-- A text without the first byte of a mark does not hide the mark behind it. -/
theorem splitAt?_append (hm : mark.head? = some m) (hb : m ∉ before) :
    splitAt? mark (before ++ (mark ++ behind)) = some (before, behind) := by
  obtain ⟨mark, rfl⟩ := List.head?_eq_some_iff.1 hm
  induction before with
  | nil =>
    have hmark : (m :: mark).isPrefixOf (m :: mark ++ behind) = true := by
      rw [List.isPrefixOf_iff_prefix]
      exact List.prefix_append _ _
    rw [List.nil_append, List.cons_append, splitAt?, ← List.cons_append, if_pos hmark,
      List.drop_left]
  | cons c before ih =>
    obtain ⟨hc, hb⟩ := not_or.1 (mt List.mem_cons.2 hb)
    have hmark : (m :: mark).isPrefixOf (c :: (before ++ (m :: mark ++ behind))) = false := by
      simp [List.isPrefixOf, hc]
    rw [List.cons_append, splitAt?, hmark, if_neg Bool.false_ne_true, ih hb]
    rfl

theorem splitAt?_none {b : Bytes} (hm : mark.head? = some m) (hb : m ∉ b) :
    splitAt? mark b = none := by
  obtain ⟨mark, rfl⟩ := List.head?_eq_some_iff.1 hm
  induction b with
  | nil => rfl
  | cons c b ih =>
    obtain ⟨hc, hb⟩ := not_or.1 (mt List.mem_cons.2 hb)
    have hmark : (m :: mark).isPrefixOf (c :: b) = false := by simp [List.isPrefixOf, hc]
    rw [splitAt?, hmark, if_neg Bool.false_ne_true, ih hb]
    rfl

theorem head?_marks :
    beginMark.head? = some 45 ∧ endMark.head? = some 45 ∧ dashes.head? = some 45 := by
  decide +kernel

variable {label : String} {content : Bytes}

theorem armour_plain {b : UInt8} (hb : b ∈ armour content) :
    b ≠ 45 ∧ b ≠ 10 ∧ b ≠ 13 ∧ b ≠ 32 ∧ b ≠ 9 := by
  rw [armour, Bytes.ofText_ofList] at hb
  obtain ⟨c, hc, hb⟩ := List.mem_flatMap.1 hb
  exact (plain_base64 content c hc).2 b hb

theorem armour_append :
    Bytes.ofText (String.ofList (base64 content ++ ['\n'])) = armour content ++ [10] := by
  rw [armour, Bytes.ofText_ofList, Bytes.ofText_ofList, List.flatMap_append]
  rfl

theorem armour_ne_nil (hne : content ≠ []) : armour content ≠ [] := by
  have hchars : base64 content ≠ [] := by
    fun_cases base64 content with
    | case1 => exact absurd rfl hne
    | _ => simp
  obtain ⟨c, cs, hcs⟩ := List.exists_cons_of_ne_nil hchars
  rw [armour, Bytes.ofText_ofList, hcs, List.flatMap_cons]
  exact List.append_ne_nil_of_left_ne_nil (List.ne_nil_of_length_pos (by simp [Char.utf8Size_pos])) _

theorem not_mem_armour : 45 ∉ armour content ++ [10] := by
  intro h
  rcases List.mem_append.1 h with h | h
  · exact (armour_plain h).1 rfl
  · simp at h

theorem dropWhile_armour (hne : armour content ≠ []) (behind : Bytes) :
    ([10] ++ (armour content ++ [10] ++ behind)).dropWhile isBlankByte =
      armour content ++ [10] ++ behind := by
  obtain ⟨b, rest, hb⟩ := List.exists_cons_of_ne_nil hne
  have hplain : b ∈ armour content := by
    rw [hb]
    exact List.mem_cons_self
  obtain ⟨-, h10, h13, h32, h9⟩ := armour_plain hplain
  have hblank : isBlankByte b = false := by simp [isBlankByte, h10, h13, h32, h9]
  rw [List.singleton_append, List.dropWhile_cons_of_pos rfl, hb, List.cons_append, List.cons_append,
    List.dropWhile_cons_of_neg (by simp [hblank])]

theorem cut?_write (hl : 45 ∉ Bytes.ofText label) (hne : armour content ≠ []) :
    cut? (write label content) =
      some (⟨Bytes.ofText label, armour content ++ [10], Bytes.ofText label⟩, [10]) := by
  obtain ⟨hbegin, hend, hdashes⟩ := head?_marks
  rw [write, ← List.nil_append (beginMark ++ _), cut?, splitAt?_append hbegin List.not_mem_nil]
  simp only [Option.bind_eq_bind, Option.bind_some, splitAt?_append hdashes hl, dropWhile_armour hne,
    splitAt?_append hend not_mem_armour]
  rfl

theorem cut?_end : cut? [10] = none := by
  rw [cut?, splitAt?_none head?_marks.1 (by decide)]
  rfl

theorem trimEnd_eq {cs : List Char} (hcs : ∀ c ∈ cs, Text.isBlank c = false) : trimEnd cs = cs := by
  have hkeep : cs.reverse.dropWhile Text.isBlank = cs.reverse := by
    cases hr : cs.reverse with
    | nil => rfl
    | cons c rest =>
      have hc : c ∈ cs := by
        rw [← List.mem_reverse, hr]
        exact List.mem_cons_self
      rw [List.dropWhile_cons_of_neg (by simp [hcs c hc])]
  rw [trimEnd, hkeep, List.reverse_reverse]

theorem linesOf_append_feed {cs : List Char} (hfeed : '\n' ∉ cs) (hreturn : '\r' ∉ cs) :
    linesOf (cs ++ ['\n']) = [cs, []] := by
  rw [linesOf, List.splitOn_append_cons_self_of_not_mem hfeed, List.map_cons]
  refine congrArg₂ List.cons ?_ rfl
  split
  · next rest hr =>
    refine absurd ?_ hreturn
    rw [← List.mem_reverse, hr]
    exact List.mem_cons_self
  · rfl

/-- Base 64 and a line feed are one line that loses nothing, and an empty one. -/
theorem linesOf_base64 (content : Bytes) :
    (linesOf (base64 content ++ ['\n'])).flatMap trimEnd = base64 content := by
  have hblank : ∀ c ∈ base64 content, Text.isBlank c = false :=
    fun c hc => (plain_base64 content c hc).1
  have hfeed : '\n' ∉ base64 content := fun hc => (by cases hblank _ hc)
  have hreturn : '\r' ∉ base64 content := fun hc => (by cases hblank _ hc)
  rw [linesOf_append_feed hfeed hreturn, List.flatMap_cons, trimEnd_eq hblank]
  exact List.append_nil _

theorem splitHeaders_armour :
    splitHeaders (armour content ++ [10]) = ([], armour content ++ [10]) := by
  have h13 : 13 ∉ armour content ++ [10] := by
    intro h
    rcases List.mem_append.1 h with h | h
    · exact (armour_plain h).2.2.1 rfl
    · simp at h
  have hfeeds : splitAt? [10, 10] (armour content ++ [10]) = none := by
    have h10 : ∀ b ∈ armour content, b ≠ 10 := fun b h => (armour_plain h).2.1
    generalize armour content = b at h10
    induction b with
    | nil => rfl
    | cons c b ih =>
      obtain ⟨hc, h10⟩ := List.forall_mem_cons.1 h10
      rw [List.cons_append, splitAt?, ih h10]
      simp [List.isPrefixOf, Ne.symm hc]
  rw [splitHeaders, hfeeds, splitAt?_none rfl h13]
  rfl

theorem ofRaw?_armour (hl : label ≠ "") :
    ofRaw? ⟨Bytes.ofText label, armour content ++ [10], Bytes.ofText label⟩ =
      some ⟨label, [], content⟩ := by
  have htext : Bytes.text? (armour content ++ [10]) =
      some (String.ofList (base64 content ++ ['\n'])) := by
    rw [← armour_append, Bytes.text?_ofText]
  have hheaders : Bytes.text? [] = some "" := Bytes.text?_ofText ""
  rw [ofRaw?, Bytes.text?_ofText]
  have hlines : linesOf [] = [[]] := rfl
  simp [splitHeaders_armour, hl, htext, hheaders, linesOf_base64, unbase64_base64, hlines]

/-- A file with one written block holds that block. -/
theorem read_write (hl : label ≠ "") (hdash : 45 ∉ Bytes.ofText label) (hne : content ≠ []) :
    first? (write label content) = some ⟨label, [], content⟩ ∧
      all? (write label content) = some [⟨label, [], content⟩] := by
  have hcut := cut?_write hdash (armour_ne_nil hne)
  have hraw : ofRaw? ⟨Bytes.ofText label, armour content ++ [10], Bytes.ofText label⟩ =
      some ⟨label, [], content⟩ := ofRaw?_armour hl
  constructor
  · rw [first?, hcut]
    exact hraw
  · have hlen : (write label content).length = (write label content).length - 1 + 1 := by
      rw [write]
      simp
      omega
    have hend : ∀ count, cutAll count [10] = [] := by
      intro count
      cases count with
      | zero => rfl
      | succ count => rw [cutAll, cut?_end]
    rw [all?, hlen, cutAll, hcut]
    simp [hend, hraw]

end Pem

end UpdateSeal
