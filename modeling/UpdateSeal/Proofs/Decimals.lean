import Mathlib.Algebra.Order.Field.Power
import Mathlib.Data.Rat.Cast.Order
import Mathlib.Tactic.FieldSimp
import Mathlib.Tactic.Linarith
import Mathlib.Tactic.LinearCombination
import Mathlib.Tactic.NormNum
import UpdateSeal.Proofs.Rounding

/-!
# Shortest decimals read back

The decimal that is printed for a binary number lies in the range of rationals that round to it, so
reading the decimal gives the number again. The range is compared in quarters of a gap, where all its
ends are whole.
-/

namespace UpdateSeal.Decimal

theorem zpow_mul_pow_toNat {a : ℚ} (ha : a ≠ 0) (n : ℤ) : a ^ n * a ^ (-n).toNat = a ^ n.toNat := by
  rw [← zpow_natCast, ← zpow_natCast, ← zpow_add₀ ha]
  congr 1
  omega

def Numeral.value (d : Numeral) : ℚ := d.digits * 10 ^ d.exponent

/-- The range of the rationals that round to `x`, counted in quarters of the gap above it. -/
def Scaled.Covers (x : Scaled) (v : ℚ) : Prop :=
  let below : ℚ := 4 * x.significand - if x.narrow then 1 else 2
  let above : ℚ := 4 * x.significand + 2
  let quarters := v / 2 ^ (x.exponent - 2)
  if x.significand % 2 = 0 then below ≤ quarters ∧ quarters ≤ above
  else below < quarters ∧ quarters < above

theorem Scaled.readsBack_iff {x : Scaled} (hx : 0 < x.significand) (d : Numeral) :
    x.readsBack d ↔ x.Covers d.value := by
  have hbelow : ((if x.narrow then 4 * x.significand - 1 else 4 * x.significand - 2 : ℕ) : ℚ) =
      4 * x.significand - if x.narrow then 1 else 2 := by
    split <;> rw [Nat.cast_sub (by omega)] <;> push_cast <;> rfl
  unfold readsBack Covers
  simp only [Nat.pow_eq]
  -- `unit` clears the denominators of both powers, so naturals are compared as the rationals are
  set unit : ℕ := 2 ^ (x.exponent - 2).toNat * 10 ^ (-d.exponent).toNat with hunit
  set value : ℕ := d.digits * 10 ^ d.exponent.toNat * 2 ^ (-(x.exponent - 2)).toNat with hvalue
  have hpos : (0 : ℚ) < unit := by
    rw [hunit]
    positivity
  have hquot : (value : ℚ) = d.value / 2 ^ (x.exponent - 2) * unit := by
    rw [hvalue, hunit, Numeral.value]
    push_cast
    rw [← zpow_mul_pow_toNat (by norm_num : (10 : ℚ) ≠ 0) d.exponent,
      ← zpow_mul_pow_toNat two_ne_zero (x.exponent - 2)]
    field_simp
  rw [← hbelow]
  generalize (if x.narrow then 4 * x.significand - 1 else 4 * x.significand - 2) = below
  have hle : ∀ n : ℕ, n * unit ≤ value ↔ (n : ℚ) ≤ d.value / 2 ^ (x.exponent - 2) := by
    intro n
    rw [← mul_le_mul_iff_left₀ hpos, ← hquot]
    exact_mod_cast Iff.rfl
  have hge : ∀ n : ℕ, value ≤ n * unit ↔ d.value / 2 ^ (x.exponent - 2) ≤ (n : ℚ) := by
    intro n
    rw [← mul_le_mul_iff_left₀ hpos, ← hquot]
    exact_mod_cast Iff.rfl
  have habove : ((4 * x.significand + 2 : ℕ) : ℚ) = 4 * x.significand + 2 := by push_cast; rfl
  split
  · rw [Bool.and_eq_true, decide_eq_true_eq, decide_eq_true_eq, hle, hge, habove]
  · rw [Bool.and_eq_true, decide_eq_true_eq, decide_eq_true_eq, ← not_le, ← not_le, hle, hge, habove,
      not_le, not_le]

variable {code shift s : ℕ}

theorem Parts.pos (h : Parts code shift s) (hcode : 0 < code) : 0 < s := by
  obtain ⟨rfl, -, rfl | hs⟩ := h <;> omega

theorem quarters_eq {num den : ℕ} (hden : 0 < den) {v : ℚ} (hv : (num : ℚ) = v * 2 ^ 1074 * den) :
    v / 2 ^ ((shift : ℤ) - 1074 - 2) = 4 * num / (den * 2 ^ shift : ℕ) := by
  have hden' : (den : ℚ) ≠ 0 := Nat.cast_ne_zero.2 (Nat.ne_of_gt hden)
  push_cast
  rw [hv, zpow_sub₀ two_ne_zero, zpow_sub₀ two_ne_zero, zpow_natCast, zpow_ofNat, zpow_ofNat]
  field_simp
  norm_num

theorem Parts.rounds (h : Parts code shift s) {num den : ℕ} (hden : 0 < den) {v : ℚ}
    (hv : (num : ℚ) = v * 2 ^ 1074 * den) (hc : (Scaled.ofCode code).Covers v) :
    Parts.Rounds s shift num den := by
  have hpos : 0 < den * 2 ^ shift := Nat.mul_pos hden (Nat.two_pow_pos shift)
  have hunit : (0 : ℚ) < (den * 2 ^ shift : ℕ) := Nat.cast_pos.2 hpos
  rw [h.ofCode_eq] at hc
  simp only [Scaled.Covers, quarters_eq hden hv, le_div_iff₀ hunit, div_le_iff₀ hunit, lt_div_iff₀ hunit,
    div_lt_iff₀ hunit] at hc
  generalize hD : den * 2 ^ shift = D at hc hunit
  generalize hgap : (if decide (shift ≠ 0 ∧ s = 2 ^ 52) = true then (1 : ℚ) else 2) = gap at hc
  have hgap' : gap ≤ 2 := by
    rw [← hgap]
    split <;> norm_num
  have hmul : (4 * s - 2) * (D : ℚ) ≤ (4 * s - gap) * D :=
    mul_le_mul_of_nonneg_right (sub_le_sub_left hgap' _) hunit.le
  have hclosed : (4 * s - gap) * (D : ℚ) ≤ 4 * num ∧ 4 * num ≤ (4 * s + 2) * (D : ℚ) := by
    split at hc
    · exact hc
    · exact ⟨hc.1.le, hc.2.le⟩
  refine ⟨⟨?_, ?_, ?_⟩, ?_⟩
  · have hlow : (2 * (s * D) : ℚ) ≤ 2 * num + D := by linarith
    rw [hD]
    exact_mod_cast hlow
  · have hhigh : (2 * num : ℚ) ≤ 2 * (s * D) + D := by linarith
    rw [hD]
    exact_mod_cast hhigh
  · intro hodd
    rw [if_neg hodd] at hc
    have hlow : (2 * (s * D) : ℚ) < 2 * num + D := by linarith
    have hhigh : (2 * num : ℚ) < 2 * (s * D) + D := by linarith
    rw [hD]
    exact ⟨by exact_mod_cast hlow, by exact_mod_cast hhigh⟩
  · intro hshift hs
    have hone : gap = 1 := by rw [← hgap, if_pos (decide_eq_true ⟨hshift, hs⟩)]
    have hlow : (4 * (s * D) : ℚ) ≤ 4 * num + D := by
      rw [hone] at hclosed
      linarith
    rw [hD]
    exact_mod_cast hlow

/-! ### Sizes -/

theorem digitCount_pos (n : ℕ) : 0 < digitCount n := Nat.length_toDigits_pos

theorem lt_pow_digitCount (n : ℕ) : n < 10 ^ digitCount n :=
  (Nat.length_toDigits_le_iff (by decide) (digitCount_pos n)).1 (Nat.le_refl _)

theorem pow_digitCount_le {n : ℕ} (hn : n ≠ 0) : 10 ^ (digitCount n - 1) ≤ n := by
  rcases Nat.eq_zero_or_pos (digitCount n - 1) with hzero | hpos
  · rw [hzero]
    omega
  · by_contra! hlt
    have := (Nat.length_toDigits_le_iff (by decide) hpos).2 hlt
    have := digitCount_pos n
    unfold digitCount at *
    omega

theorem Numeral.value_lt (d : Numeral) : d.value < 10 ^ (d.exponent + digitCount d.digits) := by
  rw [value, add_comm, zpow_add₀ (by norm_num), zpow_natCast]
  apply mul_lt_mul_of_pos_right _ (by positivity)
  exact_mod_cast lt_pow_digitCount d.digits

theorem Numeral.le_value {d : Numeral} (hd : d.digits ≠ 0) :
    10 ^ (d.exponent + digitCount d.digits - 1) ≤ d.value := by
  have hexp :
      d.exponent + digitCount d.digits - 1 = (digitCount d.digits - 1 : ℕ) + d.exponent := by
    have := digitCount_pos d.digits
    omega
  rw [value, hexp, zpow_add₀ (by norm_num), zpow_natCast]
  apply mul_le_mul_of_nonneg_right _ (by positivity)
  exact_mod_cast pow_digitCount_le hd

theorem Scaled.Covers.bounds {x : Scaled} {v : ℚ} (h : x.Covers v) :
    (4 * x.significand - 2) * 2 ^ (x.exponent - 2) ≤ v ∧
      v ≤ (4 * x.significand + 2) * 2 ^ (x.exponent - 2) := by
  have hpos : (0 : ℚ) < 2 ^ (x.exponent - 2) := by positivity
  unfold Covers at h
  simp only at h
  have hgap : (if x.narrow then (1 : ℚ) else 2) ≤ 2 := by split <;> norm_num
  rw [← le_div_iff₀ hpos, ← div_le_iff₀ hpos]
  split at h
  · exact ⟨by linarith, h.2⟩
  · exact ⟨by linarith, h.2.le⟩

theorem Scaled.Covers.value_bounds (hcode : 0 < code) (hbound : code < codeBound) {v : ℚ}
    (hc : (Scaled.ofCode code).Covers v) : (2 : ℚ) ^ (-1075 : ℤ) ≤ v ∧ v ≤ 2 ^ (1024 : ℤ) := by
  obtain ⟨shift, s, h⟩ := exists_parts code
  have hs : 1 ≤ s := h.pos hcode
  have hlt := h.lt
  have hshift : shift ≤ 2045 := by
    have := h.eq
    have := h.normal
    have : code < 2047 * 2 ^ 52 := hbound
    omega
  obtain ⟨hlow, hhigh⟩ := hc.bounds
  rw [h.ofCode_eq] at hlow hhigh
  simp only at hlow hhigh
  constructor
  · have hs' : (2 : ℚ) ≤ 4 * s - 2 := by
      have : (1 : ℚ) ≤ s := by exact_mod_cast hs
      linarith
    have hexp : (2 : ℚ) ^ (-1076 : ℤ) ≤ 2 ^ ((shift : ℤ) - 1074 - 2) :=
      zpow_le_zpow_right₀ (by norm_num) (by omega)
    have hmul := mul_le_mul hs' hexp (by positivity) (by linarith)
    rw [← zpow_one_add₀ two_ne_zero] at hmul
    exact hmul.trans hlow
  · have hlt' : (4 * s + 2 : ℚ) ≤ 2 ^ 55 := by
      have : 4 * s + 2 ≤ 2 ^ 55 := by omega
      exact_mod_cast this
    have hexp : (2 : ℚ) ^ ((shift : ℤ) - 1074 - 2) ≤ 2 ^ (969 : ℤ) :=
      zpow_le_zpow_right₀ (by norm_num) (by omega)
    have hmul := mul_le_mul hlt' hexp (by positivity) (by positivity)
    rw [← zpow_natCast, ← zpow_add₀ two_ne_zero] at hmul
    exact hhigh.trans hmul

theorem Numeral.le_place {d : Numeral} (hmin : (2 : ℚ) ^ (-1075 : ℤ) ≤ d.value) :
    -330 ≤ d.exponent + digitCount d.digits := by
  by_contra! hplace
  have hle : (10 : ℚ) ^ (d.exponent + digitCount d.digits) ≤ 10 ^ (-331 : ℤ) :=
    zpow_le_zpow_right₀ (by norm_num) (by omega)
  have hpow : (2 : ℚ) ^ 1075 ≤ 10 ^ 331 := by
    exact_mod_cast (by decide +kernel : (2 : ℕ) ^ 1075 ≤ 10 ^ 331)
  have hinv : (10 : ℚ) ^ (-331 : ℤ) ≤ 2 ^ (-1075 : ℤ) := by
    rw [zpow_neg, zpow_neg, zpow_ofNat, zpow_ofNat]
    exact inv_anti₀ (by positivity) hpow
  exact absurd (hmin.trans_lt d.value_lt) (not_lt.2 (hle.trans hinv))

theorem Numeral.place_le {d : Numeral} (hd : d.digits ≠ 0) (hmax : d.value ≤ (2 : ℚ) ^ (1024 : ℤ)) :
    d.exponent + digitCount d.digits ≤ 310 := by
  by_contra! hplace
  have hle : (10 : ℚ) ^ (310 : ℤ) ≤ 10 ^ (d.exponent + digitCount d.digits - 1) :=
    zpow_le_zpow_right₀ (by norm_num) (by omega)
  have hpow : (2 : ℚ) ^ 1024 < 10 ^ 310 := by
    exact_mod_cast (by decide +kernel : (2 : ℕ) ^ 1024 < 10 ^ 310)
  rw [zpow_ofNat] at hmax hle
  exact absurd (hle.trans (Numeral.le_value hd)) (not_le.2 (hmax.trans_lt hpow))

theorem place_bounds (hcode : 0 < code) (hbound : code < codeBound) {d : Numeral}
    (hc : (Scaled.ofCode code).Covers d.value) :
    d.digits ≠ 0 ∧ -330 ≤ d.exponent + digitCount d.digits ∧
      d.exponent + digitCount d.digits ≤ 310 := by
  obtain ⟨hmin, hmax⟩ := hc.value_bounds hcode hbound
  have hdigits : d.digits ≠ 0 := by
    intro hzero
    have hvalue : d.value = 0 := by rw [Numeral.value, hzero, Nat.cast_zero, zero_mul]
    rw [hvalue] at hmin
    exact absurd hmin (not_le.2 (by positivity))
  exact ⟨hdigits, Numeral.le_place hmin, Numeral.place_le hdigits hmax⟩

/-- A decimal in the range of a positive number is read as this number. -/
theorem ofDecimal_eq (hcode : 0 < code) (hbound : code < codeBound) {d : Numeral}
    (hc : (Scaled.ofCode code).Covers d.value) (negative : Bool) :
    Binary64.ofDecimal negative d.digits d.exponent = .finite negative ⟨code, hbound⟩ := by
  obtain ⟨shift, s, h⟩ := exists_parts code
  obtain ⟨hdigits, hlow, hhigh⟩ := place_bounds hcode hbound hc
  have hden : 0 < 10 ^ (-d.exponent).toNat := Nat.pow_pos (by decide)
  have hv : ((d.digits * 10 ^ d.exponent.toNat * 2 ^ 1074 : ℕ) : ℚ) =
      d.value * 2 ^ 1074 * (10 ^ (-d.exponent).toNat : ℕ) := by
    simp only [Nat.cast_mul, Nat.cast_pow, Nat.cast_ofNat]
    rw [Numeral.value, ← zpow_mul_pow_toNat (by norm_num : (10 : ℚ) ≠ 0) d.exponent]
    generalize (2 : ℚ) ^ 1074 = scale
    ring
  have hcode := h.nearestCode_eq hden (h.rounds hden hv hc)
  have hsmall : ¬ (d.digits = 0 ∨ d.exponent + digitCount d.digits < -330) :=
    not_or.2 ⟨hdigits, not_lt.2 hlow⟩
  unfold Binary64.ofDecimal
  simp only [Nat.pow_eq, if_neg hsmall, if_neg (not_lt.2 hhigh), hcode]
  exact dif_pos hbound

/-! ### The decimal that is found -/

theorem Scaled.onGrid_eq_some {x : Scaled} {grid : ℤ} {d : Numeral} (h : x.onGrid grid = some d) :
    x.readsBack d := by
  unfold onGrid at h
  simp only at h
  split at h
  · next hlow hhigh =>
    cases h
    rcases roundQuotient_eq_or _ _ with heq | heq <;> rw [heq] <;> assumption
  · cases h; assumption
  · cases h; assumption
  · cases h

theorem Numeral.value_strip (n : ℕ) (d : Numeral) : (d.strip n).value = d.value := by
  induction n generalizing d with
  | zero => rfl
  | succ n ih =>
    rw [strip]
    split
    · next hzero =>
      have hten : (d.digits : ℚ) = 10 * (d.digits / 10 : ℕ) := by
        exact_mod_cast (by omega : d.digits = 10 * (d.digits / 10))
      rw [ih, value, value, hten, zpow_add_one₀ (by norm_num)]
      ring
    · rfl

theorem Scaled.covers_exact {x : Scaled} (hx : 0 < x.significand) :
    x.Covers (x.significand * 2 ^ x.exponent) := by
  have hquarters :
      x.significand * (2 : ℚ) ^ x.exponent / 2 ^ (x.exponent - 2) = 4 * x.significand := by
    rw [zpow_sub₀ two_ne_zero, zpow_ofNat]
    field_simp
    norm_num
  have hgap : (0 : ℚ) < if x.narrow then 1 else 2 := by split <;> norm_num
  unfold Covers
  simp only [hquarters]
  split
  · constructor <;> linarith
  · constructor <;> linarith

theorem value_exact (n : ℕ) (e : ℤ) :
    Numeral.value ⟨n * 2 ^ e.toNat * 5 ^ (-e).toNat, min e 0⟩ = n * 2 ^ e := by
  have hten : (10 : ℚ) ^ (min e 0) * (5 ^ (-e).toNat * 2 ^ (-e).toNat) = 1 := by
    have hmin : min e 0 = -((-e).toNat : ℤ) := by omega
    rw [← mul_pow, hmin, zpow_neg, zpow_natCast]
    norm_num
  have htwo := zpow_mul_pow_toNat (two_ne_zero : (2 : ℚ) ≠ 0) e
  rw [Numeral.value]
  push_cast
  rw [← htwo]
  linear_combination (n * 2 ^ e) * hten

theorem covers_shortest (hcode : 0 < code) :
    (Scaled.ofCode code).Covers (shortest code).value := by
  obtain ⟨shift, s, h⟩ := exists_parts code
  have hpos : 0 < (Scaled.ofCode code).significand := by
    rw [h.ofCode_eq]
    exact h.pos hcode
  rw [shortest, Numeral.value_strip]
  generalize Scaled.ofCode code = x at hpos ⊢
  cases hfound : (List.range 17).findSome? fun n => x.onGrid (x.place - (n + 1 : ℕ)) with
  | some d =>
    obtain ⟨n, -, hn⟩ := List.exists_of_findSome?_eq_some hfound
    exact (Scaled.readsBack_iff hpos d).1 (Scaled.onGrid_eq_some hn)
  | none =>
    simp only [Option.getD_none, Nat.pow_eq, value_exact]
    exact Scaled.covers_exact hpos

theorem ofDecimal_of_value_eq (hcode : 0 < code) (hbound : code < codeBound) {d : Numeral}
    (hd : d.value = (shortest code).value) (negative : Bool) :
    Binary64.ofDecimal negative d.digits d.exponent = .finite negative ⟨code, hbound⟩ :=
  ofDecimal_eq hcode hbound (hd ▸ covers_shortest hcode) negative

end UpdateSeal.Decimal
