import Mathlib.Algebra.Order.Field.Power
import Mathlib.Data.Rat.Cast.Order
import Mathlib.Tactic.FieldSimp
import Mathlib.Tactic.Linarith
import Mathlib.Tactic.Ring
import UpdateSeal.Decimal.Shortest

/-!
# Rounding to binary numbers

Every binary number has a range of rationals that round to it: half a gap to either side, and only
half of that below a number whose lower neighbour is in a narrower binade. The nearest code of any
rational in this range is the code of the number, also where the rational lies below the binade of
the number and is first rounded on the finer grid.
-/

namespace UpdateSeal.Decimal

/-- The quotient of `n` by `d` is nearest to `s`. Both ends of the range belong to it where `s` is
even. -/
structure Nearest (s n d : ℕ) : Prop where
  low : 2 * (s * d) ≤ 2 * n + d
  high : 2 * n ≤ 2 * (s * d) + d
  tie : s % 2 ≠ 0 → 2 * (s * d) < 2 * n + d ∧ 2 * n < 2 * (s * d) + d

theorem roundQuotient_eq {s n d : ℕ} (hd : 0 < d) (h : Nearest s n d) : roundQuotient n d = s := by
  have hn : d * (n / d) + n % d = n := Nat.div_add_mod n d
  have hr : n % d < d := Nat.mod_lt n hd
  unfold roundQuotient
  generalize n / d = q at hn ⊢
  generalize n % d = r at hn hr ⊢
  subst hn
  -- the quotient is the lower or the upper neighbour
  have hle : q ≤ s := by
    by_contra! hlt
    have hmul := Nat.mul_le_mul_right d (Nat.succ_le_of_lt hlt)
    have hhigh := h.high
    grind
  have hge : s ≤ q + 1 := by
    by_contra! hlt
    have hmul := Nat.mul_le_mul_right d (Nat.succ_le_of_lt hlt)
    have hlow := h.low
    grind
  obtain ⟨hlow, hhigh, htie⟩ := h
  rcases Nat.lt_or_ge q s with hlt | hge'
  · obtain rfl : s = q + 1 := Nat.le_antisymm hge hlt
    have hmul : (q + 1) * d = d * q + d := by ring
    simp only [hmul] at hlow hhigh htie
    grind
  · obtain rfl : s = q := Nat.le_antisymm hge' hle
    rw [Nat.mul_comm s d] at hlow hhigh htie
    grind

theorem roundQuotient_eq_or (n d : ℕ) :
    roundQuotient n d = n / d ∨ roundQuotient n d = n / d + 1 := by
  unfold roundQuotient
  grind

/-! ### Codes -/

/-- The code of the number `s * 2^shift`, in multiples of the least positive one. -/
structure Parts (code shift s : ℕ) : Prop where
  eq : code = shift * 2 ^ 52 + s
  lt : s < 2 ^ 53
  normal : shift = 0 ∨ 2 ^ 52 ≤ s

theorem exists_parts (code : ℕ) : ∃ shift s, Parts code shift s := by
  rcases Nat.lt_or_ge code (2 ^ 53) with hlt | hge
  · exact ⟨0, code, by omega, hlt, .inl rfl⟩
  · refine ⟨code / 2 ^ 52 - 1, 2 ^ 52 + code % 2 ^ 52, ?_, ?_, .inr (Nat.le_add_right ..)⟩ <;> omega

namespace Parts

variable {code shift s num den : ℕ}

theorem ofCode_eq (h : Parts code shift s) :
    Scaled.ofCode code = ⟨s, (shift : ℤ) - 1074, decide (shift ≠ 0 ∧ s = 2 ^ 52)⟩ := by
  obtain ⟨rfl, hlt, hnormal⟩ := h
  rw [Scaled.ofCode]
  simp only [Nat.pow_eq]
  rcases Nat.eq_zero_or_pos shift with rfl | hpos
  · rw [Nat.zero_mul, Nat.zero_add, if_pos hlt]
    rfl
  · have hs : 2 ^ 52 ≤ s := hnormal.resolve_left hpos.ne'
    rw [if_neg (by omega), Scaled.mk.injEq]
    refine ⟨by omega, by omega, ?_⟩
    rw [Bool.eq_iff_iff, beq_iff_eq, decide_eq_true_eq]
    omega

/-- The quotient of `num` by `den` rounds to the number. Where the number starts a binade the gap
below it is half the gap above it. -/
structure Rounds (s shift num den : ℕ) : Prop where
  nearest : Nearest s num (den * 2 ^ shift)
  narrow : shift ≠ 0 → s = 2 ^ 52 → 4 * (s * (den * 2 ^ shift)) ≤ 4 * num + den * 2 ^ shift

theorem shift_eq {k : ℕ} (hden : 0 < den) (hlt : num < 2 ^ 53 * (den * 2 ^ k))
    (hle : k = 0 ∨ 2 ^ 52 * (den * 2 ^ k) ≤ num) : (num / den).log2 - 52 = k := by
  have hlog : (num / den).log2 < k + 53 := by
    rcases Nat.eq_zero_or_pos (num / den) with hzero | hpos
    · simp [hzero]
    · rw [Nat.log2_lt hpos.ne', Nat.div_lt_iff_lt_mul hden, Nat.pow_add]
      grind
  rcases hle with rfl | hle
  · omega
  · have hq : 2 ^ (k + 52) ≤ num / den := by
      rw [Nat.le_div_iff_mul_le hden, Nat.pow_add]
      grind
    have hge := (Nat.le_log2 (Nat.ne_of_gt (Nat.lt_of_lt_of_le (Nat.two_pow_pos _) hq))).2 hq
    omega

theorem nearestCode_eq (h : Parts code shift s) (hden : 0 < den) (hr : Rounds s shift num den) :
    nearestCode num den = code := by
  have hd : 0 < den * 2 ^ shift := Nat.mul_pos hden (Nat.two_pow_pos shift)
  have hhigh := hr.nearest.high
  have hmul := Nat.mul_le_mul_right (den * 2 ^ shift) (Nat.succ_le_of_lt h.lt)
  rw [Nat.succ_mul] at hmul
  have hlt : num < 2 ^ 53 * (den * 2 ^ shift) := by omega
  unfold nearestCode
  simp only [Nat.pow_eq]
  by_cases hbinade : shift = 0 ∨ 2 ^ 52 * (den * 2 ^ shift) ≤ num
  · rw [shift_eq hden hlt hbinade, roundQuotient_eq hd hr.nearest, h.eq]
  · -- the quotient lies in the binade below, so the number is the first of its own
    obtain ⟨hshift, hsmall⟩ := not_or.1 hbinade
    have hlow := hr.nearest.low
    have hs : s = 2 ^ 52 := by
      apply Nat.le_antisymm _ (h.normal.resolve_left hshift)
      by_contra! hgt
      have := Nat.mul_le_mul_right (den * 2 ^ shift) (Nat.succ_le_of_lt hgt)
      rw [Nat.succ_mul] at this
      omega
    have hnarrow := hr.narrow hshift hs
    obtain ⟨k, rfl⟩ := Nat.exists_eq_succ_of_ne_zero hshift
    have hdouble : den * 2 ^ (k + 1) = 2 * (den * 2 ^ k) := by ring
    rw [hs, hdouble] at hnarrow
    rw [hdouble] at hsmall
    have hd' : 0 < den * 2 ^ k := Nat.mul_pos hden (Nat.two_pow_pos k)
    have hfine : Nearest (2 ^ 53) num (den * 2 ^ k) :=
      ⟨by omega, by omega, fun hodd => absurd (by decide) hodd⟩
    have hshift : (num / den).log2 - 52 = k := shift_eq hden (by omega) (.inr (by omega))
    rw [hshift, roundQuotient_eq hd' hfine, h.eq, hs]
    omega

end Parts

end UpdateSeal.Decimal
