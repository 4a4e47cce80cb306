import UpdateSeal.Proofs.Decimals
import UpdateSeal.Proofs.Tokens

/-!
# Binary numbers are read back from their text

Wherever a form puts the point, the digits and the exponent that are read are those of a decimal
with the same value, so the number that is read is the one that was written.
-/

namespace UpdateSeal.Json

/-! ### Numerals -/

theorem foldl_digits_eq (n : ℕ) (ds : List Char) :
    ds.foldl (fun n c => 10 * n + digitValue c) n = n * 10 ^ ds.length + numeral ds := by
  induction ds generalizing n with
  | nil => simp [numeral]
  | cons c ds ih =>
    have hzero := ih (10 * 0 + digitValue c)
    rw [numeral, List.foldl_cons, List.foldl_cons, ih, hzero, List.length_cons]
    ring

theorem numeral_append (ds es : List Char) :
    numeral (ds ++ es) = numeral ds * 10 ^ es.length + numeral es := by
  rw [numeral, List.foldl_append]
  exact foldl_digits_eq _ es

theorem numeral_zeros (n : ℕ) : numeral (List.replicate n '0') = 0 := by
  induction n with
  | zero => rfl
  | succ n ih =>
    rw [List.replicate_succ', numeral_append, ih]
    rfl

theorem isDigit_of_mem_zeros {n : ℕ} {c : Char} (hc : c ∈ List.replicate n '0') : isDigit c := by
  rw [List.eq_of_mem_replicate hc]
  rfl

/-- Digits as they may stand before the point. -/
structure IsWhole (ds : List Char) : Prop where
  ne_nil : ds ≠ []
  digits : ∀ c ∈ ds, isDigit c
  zero : ds.head? = some '0' → ds = ['0']

variable {rules : Rules} {ds : List Char} {c : Char} {rest : List Char}

theorem wholeDigits_append (h : IsWhole ds) (hc : isDigit c = false) :
    wholeDigits (ds ++ c :: rest) = ds := by
  obtain ⟨d, ds, rfl⟩ := List.exists_cons_of_ne_nil h.ne_nil
  unfold wholeDigits
  split
  · next heq =>
    obtain ⟨rfl, -⟩ := List.cons.inj heq
    exact (h.zero rfl).symm
  · exact takeWhile_isDigit_append h.digits hc rest

theorem fractionDigits_append (hne : ds ≠ []) (hds : ∀ c ∈ ds, isDigit c) (hc : isDigit c = false)
    (rest : List Char) :
    fractionDigits ('.' :: (ds ++ c :: rest)) = (some ds, ds.length + 1) := by
  rw [fractionDigits, takeWhile_isDigit_append hds hc]
  split
  · contradiction
  · rfl

theorem exponentPart_append {e : ℤ} (hne : ds ≠ []) (hds : ∀ c ∈ ds, isDigit c)
    (he : numeral ds = e.natAbs) (hc : isDigit c = false) (rest : List Char) :
    exponentPart ('e' :: (if e < 0 then '-' else '+') :: (ds ++ c :: rest)) =
      (some e, ds.length + 2) := by
  obtain ⟨d, ds, rfl⟩ := List.exists_cons_of_ne_nil hne
  have htake := takeWhile_isDigit_append hds hc rest
  rw [List.cons_append] at htake
  split
  · simp only [exponentPart, beq_self_eq_true, Bool.true_or, if_true, List.cons_append, htake, he,
      Prod.mk.injEq, Option.some.injEq, and_true]
    omega
  · simp only [exponentPart, beq_self_eq_true, Bool.true_or, if_true, List.cons_append, htake, he,
      Prod.mk.injEq, Option.some.injEq, and_true]
    omega

theorem lexNumber_append {negative : Bool} {whole : List Char} {fraction : Option (List Char)}
    {exponent : Option ℤ} {n m : ℕ} (hw : IsWhole whole) (hc : isDigit c = false)
    (hf : fractionDigits (c :: rest) = (fraction, n))
    (he : exponentPart ((c :: rest).drop n) = (exponent, m)) :
    lexNumber rules negative (whole ++ c :: rest) =
      (Numeral.token rules ⟨negative, whole, fraction, exponent⟩, whole.length + n + m) := by
  unfold lexNumber
  rw [wholeDigits_append hw hc]
  split
  · exact absurd rfl hw.ne_nil
  · simp only [List.drop_left, hf, he]

theorem isDigit_of_endsNumber (hc : endsNumber c) : isDigit c = false := by
  simp only [endsNumber, Bool.and_eq_true, Bool.not_eq_true'] at hc
  exact hc.1.1.1

/-- Whatever the rules, its sign and the text behind it, `text` is read as a decimal of the value
`v`. -/
def Spells (text : List Char) (v : ℚ) : Prop :=
  ∀ rules negative c rest, endsNumber c → ∃ d : Decimal.Numeral, d.value = v ∧
    lexNumber rules negative (text ++ c :: rest) =
      (.float (.ofDecimal negative d.digits d.exponent), text.length)

variable {whole fraction : List Char}

theorem token_of_short (hl : whole.length < maxDigits) (negative : Bool)
    {fraction : Option (List Char)} {exponent : Option ℤ}
    (hne : fraction.isSome || exponent.isSome) :
    Numeral.token rules ⟨negative, whole, fraction, exponent⟩ =
      .float (.ofDecimal negative (numeral (whole ++ fraction.getD []))
        (exponent.getD 0 - (fraction.getD []).length)) := by
  have hsign := Bool.toNat_le negative
  have hcounted : Numeral.counted rules ⟨negative, whole, fraction, exponent⟩ ≤ maxDigits :=
    Numeral.counted_le (by simp only; omega)
  rw [Numeral.token, if_neg (Nat.not_lt.2 hcounted)]
  cases fraction <;> cases exponent <;> first | rfl | cases hne

theorem spells_point (hw : IsWhole whole) (hl : whole.length < maxDigits) (hne : fraction ≠ []) (hf : ∀ c ∈ fraction, isDigit c) :
    Spells (whole ++ '.' :: fraction)
      (Decimal.Numeral.value ⟨numeral (whole ++ fraction), -fraction.length⟩) := by
  intro rules negative c rest hc
  have hfrac := fractionDigits_append hne hf (isDigit_of_endsNumber hc) rest
  have hexp :
      exponentPart (('.' :: (fraction ++ c :: rest)).drop (fraction.length + 1)) = (none, 0) := by
    rw [List.drop_succ_cons, List.drop_left]
    exact exponentPart_of_endsNumber hc rest
  refine ⟨_, rfl, ?_⟩
  rw [List.append_assoc, List.cons_append, lexNumber_append hw rfl hfrac hexp,
    token_of_short hl negative rfl]
  simp

def pointed : List Char → List Char
  | [] => []
  | ds => '.' :: ds

theorem spells_exponent {e : ℤ} (hw : IsWhole whole) (hl : whole.length < maxDigits)
    (hf : ∀ c ∈ fraction, isDigit c)
    (hds : ds ≠ []) (hds' : ∀ c ∈ ds, isDigit c) (he : numeral ds = e.natAbs) :
    Spells (whole ++ pointed fraction ++ 'e' :: (if e < 0 then '-' else '+') :: ds)
      (Decimal.Numeral.value ⟨numeral (whole ++ fraction), e - fraction.length⟩) := by
  intro rules negative c rest hc
  refine ⟨_, rfl, ?_⟩
  have hexp := exponentPart_append hds hds' he (isDigit_of_endsNumber hc) rest
  -- one digit alone is written without a point
  generalize (if e < 0 then '-' else '+') = sign at hexp ⊢
  cases fraction with
  | nil =>
    have hfrac : fractionDigits ('e' :: sign :: (ds ++ c :: rest)) = (none, 0) := rfl
    have hlex : lexNumber rules negative (whole ++ 'e' :: sign :: (ds ++ c :: rest)) = _ :=
      lexNumber_append hw rfl hfrac hexp
    rw [token_of_short hl negative rfl] at hlex
    simpa [pointed, Nat.add_assoc] using hlex
  | cons d fraction =>
    have hfrac : fractionDigits ('.' :: (d :: fraction ++ 'e' :: sign :: (ds ++ c :: rest))) = _ :=
      fractionDigits_append (List.cons_ne_nil d fraction) hf rfl _
    have hdrop : exponentPart (('.' :: (d :: fraction ++ 'e' :: sign :: (ds ++ c :: rest))).drop
        ((d :: fraction).length + 1)) = (some e, ds.length + 2) := by
      rw [List.drop_succ_cons, List.drop_left, hexp]
    have hlex : lexNumber rules negative
        (whole ++ '.' :: (d :: fraction ++ 'e' :: sign :: (ds ++ c :: rest))) =
      _ := lexNumber_append hw rfl hfrac hdrop
    simp only [pointed, List.append_assoc, List.cons_append] at hlex ⊢
    rw [hlex, token_of_short hl negative rfl]
    simp
    omega

/-! ### Forms -/

theorem isWhole_zero : IsWhole ['0'] := ⟨by simp, by simp [isDigit], fun _ => rfl⟩

/-- The digits of a positive number, as many of them as are wanted, and more digits behind. -/
theorem isWhole_toDigits {n : ℕ} (hn : n ≠ 0) {front back : List Char}
    (hdigits : Nat.toDigits 10 n = front ++ back) (hfront : front ≠ []) {zeros : List Char}
    (hzeros : ∀ c ∈ zeros, isDigit c) : IsWhole (front ++ zeros) := by
  obtain ⟨d, front, rfl⟩ := List.exists_cons_of_ne_nil hfront
  have hmem : ∀ c ∈ d :: front, isDigit c := fun c hc =>
    isDigit_of_mem_toDigits (n := n) (hdigits ▸ List.mem_append_left _ hc)
  refine ⟨by simp, List.forall_mem_append.2 ⟨hmem, hzeros⟩, ?_⟩
  intro hd
  obtain rfl : d = '0' := Option.some.inj hd
  have hvalue := numeral_toDigits n
  rw [hdigits] at hvalue
  have hrest := congrArg (numeral <| '0' :: ·) (toDigits_eq_cons_zero hdigits)
  exact absurd (hvalue.symm.trans hrest) hn

variable {d : Decimal.Numeral}

theorem numeral_digits_append_zeros (n m : ℕ) :
    numeral (Nat.toDigits 10 n ++ List.replicate m '0') = n * 10 ^ m := by
  rw [numeral_append, numeral_zeros, numeral_toDigits, List.length_replicate, Nat.add_zero]

theorem numeral_zeros_append_digits (n m : ℕ) :
    numeral (List.replicate m '0' ++ Nat.toDigits 10 n) = n := by
  rw [numeral_append, numeral_zeros, numeral_toDigits, Nat.zero_mul, Nat.zero_add]

theorem spells_small {place : ℤ} (hplace : d.exponent + (Nat.toDigits 10 d.digits).length = place)
    (hle : place ≤ 0) :
    Spells ('0' :: '.' :: (List.replicate (-place).toNat '0' ++ Nat.toDigits 10 d.digits))
      d.value := by
  have hds := List.forall_mem_append.2 ⟨fun c => isDigit_of_mem_zeros (n := (-place).toNat),
    fun c => isDigit_of_mem_toDigits (n := d.digits)⟩
  have hspells := spells_point isWhole_zero (by decide)
    (List.append_ne_nil_of_right_ne_nil _ Nat.toDigits_ne_nil) hds
  have hvalue : numeral (['0'] ++ (List.replicate (-place).toNat '0' ++ Nat.toDigits 10 d.digits)) =
      d.digits := numeral_zeros_append_digits d.digits ((-place).toNat + 1)
  have hexp : -((List.replicate (-place).toNat '0' ++ Nat.toDigits 10 d.digits).length : ℤ) =
      d.exponent := by
    rw [List.length_append, List.length_replicate]
    omega
  rwa [hvalue, hexp] at hspells

theorem spells_great (hd : d.digits ≠ 0) {n : ℕ} (hn : d.exponent = n)
    (hl : (Nat.toDigits 10 d.digits).length + n < maxDigits) :
    Spells (Nat.toDigits 10 d.digits ++ List.replicate n '0' ++ ['.', '0']) d.value := by
  have hwhole := isWhole_toDigits hd (List.append_nil _).symm Nat.toDigits_ne_nil
    fun c => isDigit_of_mem_zeros (n := n)
  have hshort : (Nat.toDigits 10 d.digits ++ List.replicate n '0').length < maxDigits := by
    rwa [List.length_append, List.length_replicate]
  have hspells := spells_point hwhole hshort (List.cons_ne_nil '0' []) (by simp [isDigit])
  have hvalue : numeral (Nat.toDigits 10 d.digits ++ List.replicate n '0' ++ ['0']) =
      d.digits * 10 ^ (n + 1) := by
    rw [List.append_assoc, ← List.replicate_succ']
    exact numeral_digits_append_zeros d.digits (n + 1)
  rw [hvalue] at hspells
  convert hspells using 1
  rw [Decimal.Numeral.value, Decimal.Numeral.value, hn, zpow_natCast]
  push_cast
  simp
  ring

theorem spells_inner (hd : d.digits ≠ 0) {n : ℕ} (hpos : 0 < n)
    (hn : n < (Nat.toDigits 10 d.digits).length) (hl : n < maxDigits)
    (hplace : d.exponent + (Nat.toDigits 10 d.digits).length = n) :
    Spells ((Nat.toDigits 10 d.digits).take n ++ '.' :: (Nat.toDigits 10 d.digits).drop n)
      d.value := by
  have hnum := numeral_toDigits d.digits
  have hds : ∀ c ∈ (Nat.toDigits 10 d.digits).drop n, isDigit c := fun c hc =>
    isDigit_of_mem_toDigits (List.mem_of_mem_drop hc)
  have hsplit := (List.take_append_drop n (Nat.toDigits 10 d.digits)).symm
  have hfront : (Nat.toDigits 10 d.digits).take n ≠ [] := by
    rw [Ne, List.take_eq_nil_iff, not_or]
    exact ⟨hpos.ne', Nat.toDigits_ne_nil⟩
  have hback : (Nat.toDigits 10 d.digits).drop n ≠ [] := by
    rw [Ne, List.drop_eq_nil_iff]
    exact Nat.not_le.2 hn
  have hwhole := isWhole_toDigits hd hsplit hfront (List.forall_mem_nil _)
  rw [List.append_nil] at hwhole
  have hshort : ((Nat.toDigits 10 d.digits).take n).length < maxDigits :=
    Nat.lt_of_le_of_lt (List.length_take_le n _) hl
  have hspells := spells_point hwhole hshort hback hds
  have hexp : -(((Nat.toDigits 10 d.digits).drop n).length : ℤ) = d.exponent := by
    rw [List.length_drop]
    omega
  rwa [← hsplit, hnum, hexp] at hspells

theorem scientific_cons (format : Decimal.Form) (a : Char) (fraction : List Char) (e : ℤ) :
    format.scientific (a :: fraction) e = [a] ++ pointed fraction ++
      'e' :: (if e < 0 then '-' else '+') ::
        (List.replicate (format.exponentWidth - (Nat.toDigits 10 e.natAbs).length) '0' ++
          Nat.toDigits 10 e.natAbs) := by
  cases fraction <;> simp [Decimal.Form.scientific, Decimal.digitChars, pointed]

theorem spells_scientific (format : Decimal.Form) (hd : d.digits ≠ 0) {e : ℤ}
    (he : d.exponent + (Nat.toDigits 10 d.digits).length = e + 1) :
    Spells (format.scientific (Nat.toDigits 10 d.digits) e) d.value := by
  have hds : ∀ c ∈ Nat.toDigits 10 d.digits, isDigit c := fun c => isDigit_of_mem_toDigits
  have hnum := numeral_toDigits d.digits
  have hwhole := fun front back (h : Nat.toDigits 10 d.digits = front ++ back) =>
    isWhole_toDigits hd h
  obtain ⟨a, fraction, hcons⟩ : ∃ a fraction, Nat.toDigits 10 d.digits = a :: fraction :=
    List.exists_cons_of_ne_nil Nat.toDigits_ne_nil
  rw [hcons] at he hds hnum hwhole ⊢
  have hexp : e - (fraction.length : ℤ) = d.exponent := by
    rw [List.length_cons] at he
    omega
  have hsize := List.forall_mem_append.2
    ⟨fun c => isDigit_of_mem_zeros (n := format.exponentWidth - (Nat.toDigits 10 e.natAbs).length),
      fun c => isDigit_of_mem_toDigits (n := e.natAbs)⟩
  have hspells := spells_exponent
    (hwhole [a] fraction rfl (List.cons_ne_nil a []) (List.forall_mem_nil _))
    (by rw [List.append_nil, List.length_singleton]; decide)
    (fun c hc => hds c (List.mem_cons_of_mem a hc))
    (List.append_ne_nil_of_right_ne_nil _ Nat.toDigits_ne_nil) hsize
    (numeral_zeros_append_digits e.natAbs _)
  have hnum' : numeral ([a] ++ fraction) = d.digits := hnum
  rwa [List.append_nil, hnum', hexp, ← scientific_cons] at hspells

theorem spells_write (format : Decimal.Form) (hd : d.digits ≠ 0) :
    Spells (format.write d) d.value := by
  unfold Decimal.Form.write Decimal.digitChars
  simp only
  split
  · next hplain =>
    have hshort := format.plainUpTo_lt
    split
    · next hle => exact spells_small rfl hle
    · split
      · next hpos hlen => exact spells_great hd (by omega) (by rw [maxDigits]; omega)
      · next hpos hlen =>
        exact spells_inner hd (by omega) (by omega) (by rw [maxDigits]; omega) (by omega)
  · exact spells_scientific format hd (by omega)

/-! ### Tokens -/

theorem lexNumber_of_not_isDigit (negative : Bool) (hc : isDigit c = false) (rest : List Char) :
    lexNumber rules negative (c :: rest) = (.invalid, 0) := by
  have hwhole : wholeDigits (c :: rest) = [] := by
    unfold wholeDigits
    split
    · next h =>
      obtain ⟨rfl, -⟩ := List.cons.inj h
      cases hc
    · exact List.takeWhile_cons_of_neg (by simp [hc])
  rw [lexNumber, hwhole]

theorem Spells.exists_cons {text : List Char} {v : ℚ} (h : Spells text v) :
    ∃ d ds, text = d :: ds ∧ isDigit d := by
  obtain ⟨d, -, hlex⟩ := h strict false ',' [] rfl
  cases text with
  | nil =>
    rw [List.nil_append, lexNumber_of_not_isDigit false rfl] at hlex
    cases hlex
  | cons a ds =>
    refine ⟨a, ds, rfl, Bool.of_not_eq_false fun ha => ?_⟩
    rw [List.cons_append, lexNumber_of_not_isDigit false ha] at hlex
    cases hlex

def signed (negative : Bool) (text : List Char) : List Char :=
  if negative then '-' :: text else text

theorem tokens_signed {negative : Bool} {d : Char} {text rest : List Char} {t : Token}
    (hd : isDigit d)
    (hlex : lexNumber rules negative (d :: text ++ rest) = (t, (d :: text).length)) (ht : t ≠ .invalid) :
    tokens rules (signed negative (d :: text) ++ rest) = t :: tokens rules rest := by
  cases negative with
  | false =>
    have hl : lex rules d (text ++ rest) = (t, text.length) := by
      rw [lex_of_isDigit hd, ← List.cons_append, hlex]
      rfl
    have hb : isBlank d = false := by
      have hne : ∀ b, isDigit b = false → d ≠ b := fun b => ne_of_isDigit hd
      simp [isBlank, hne ' ' rfl, hne '\t' rfl, hne '\n' rfl, hne '\r' rfl]
    show tokens rules (d :: (text ++ rest)) = _
    rw [tokens_of_lex hb hl ht, List.drop_left]
  | true =>
    have hne : d ≠ 'I' := ne_of_isDigit hd rfl
    have hl : lex rules '-' (d :: text ++ rest) = (t, (d :: text).length) := by
      rw [← hlex]
      simp [lex, words, List.isPrefixOf, hne.symm]
    show tokens rules ('-' :: (d :: text ++ rest)) = _
    rw [tokens_of_lex rfl hl ht, List.drop_left]

theorem writeInt_eq_signed (n : ℤ) :
    writeInt n = signed (decide (n < 0)) (Nat.toDigits 10 n.natAbs) := by
  rw [writeInt, Int.toString_eq_repr, Int.repr_eq_if]
  rcases lt_or_ge n 0 with hneg | hpos
  · have habs : (-n).toNat = n.natAbs := by omega
    rw [if_neg (by omega), habs, decide_eq_true hneg]
    simp [signed, Nat.repr_eq_ofList_toDigits]
  · have habs : n.toNat = n.natAbs := by omega
    rw [if_pos hpos, habs, decide_eq_false (by omega)]
    simp [signed, Nat.repr_eq_ofList_toDigits]

theorem tokens_writeInt {n : ℤ} (hn : Bounded n) (hc : endsNumber c) :
    tokens rules (writeInt n ++ c :: rest) = .int n :: tokens rules (c :: rest) := by
  have hlex : lexNumber rules (decide (n < 0)) (Nat.toDigits 10 n.natAbs ++ c :: rest) = _ :=
    lexNumber_toDigits (bounded_iff_length.1 hn) hc rest
  have hvalue : (if decide (n < 0) = true then -(n.natAbs : ℤ) else n.natAbs) = n := by
    simp only [decide_eq_true_eq]
    split <;> omega
  rw [hvalue] at hlex
  rw [writeInt_eq_signed]
  obtain ⟨d, ds, hcons⟩ : ∃ d ds, Nat.toDigits 10 n.natAbs = d :: ds :=
    List.exists_cons_of_ne_nil Nat.toDigits_ne_nil
  have hd : isDigit d := isDigit_of_mem_toDigits (n := n.natAbs) (hcons ▸ List.mem_cons_self)
  rw [hcons] at hlex ⊢
  exact tokens_signed hd hlex (by simp)

theorem Numeral.digits_eq_zero {d : Decimal.Numeral} (hd : d.value = 0) : d.digits = 0 := by
  have hpow : (10 : ℚ) ^ d.exponent ≠ 0 := by positivity
  rw [Decimal.Numeral.value, mul_eq_zero_iff_right hpow] at hd
  exact_mod_cast hd

theorem exists_spells_writeFinite (format : Decimal.Form) (negative : Bool)
    (code : Fin Decimal.codeBound) :
    ∃ text v, format.writeFinite negative code = signed negative text ∧ Spells text v ∧
      ∀ d : Decimal.Numeral, d.value = v →
        .ofDecimal negative d.digits d.exponent = Decimal.Binary64.finite negative code := by
  rcases Nat.eq_zero_or_pos code with hzero | hpos
  · refine ⟨['0', '.', '0'], 0, by rw [Decimal.Form.writeFinite, hzero]; rfl, ?_, ?_⟩
    · have hspells := spells_point isWhole_zero (by decide) (List.cons_ne_nil '0' []) (by simp [isDigit])
      have hvalue : Decimal.Numeral.value ⟨numeral (['0'] ++ ['0']), -(['0'].length : ℤ)⟩ = 0 := by
        simp [Decimal.Numeral.value, numeral, digitValue]
      rwa [hvalue] at hspells
    · intro d hd
      have hcode : code = ⟨0, by decide⟩ := Fin.ext hzero
      rw [Numeral.digits_eq_zero hd, Decimal.Binary64.ofDecimal]
      simp only [true_or, if_true, Decimal.Binary64.ofCode]
      rw [hcode]
      rfl
  · have hdigits := (Decimal.place_bounds hpos code.isLt (Decimal.covers_shortest hpos)).1
    refine ⟨format.write (Decimal.shortest code), (Decimal.shortest code).value, ?_,
      spells_write format hdigits, fun d hd => Decimal.ofDecimal_of_value_eq hpos code.isLt hd negative⟩
    rw [Decimal.Form.writeFinite, if_neg hpos.ne']
    rfl

theorem tokens_writeFinite (format : Decimal.Form) (negative : Bool)
    (code : Fin Decimal.codeBound) (hc : endsNumber c) :
    tokens rules (format.writeFinite negative code ++ c :: rest) =
      .float (.finite negative code) :: tokens rules (c :: rest) := by
  obtain ⟨text, v, htext, hspells, hread⟩ := exists_spells_writeFinite format negative code
  obtain ⟨a, ds, rfl, ha⟩ := hspells.exists_cons
  obtain ⟨d, hd, hlex⟩ := hspells rules negative c rest hc
  rw [hread d hd] at hlex
  rw [htext]
  exact tokens_signed ha hlex (by simp)

end UpdateSeal.Json
