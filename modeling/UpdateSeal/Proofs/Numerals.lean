import Mathlib.Algebra.Ring.Nat
import Mathlib.Data.List.Induction
import UpdateSeal.Bytes

/-!
# Numerals and results

A byte string of a given length and the number below a power of 256 that it spells determine each
other. A composed computation gives a value only if all its parts do.
-/

namespace UpdateSeal

/-! ### Results that may be faults -/

section Results

variable {ε ε' α β : Type}

theorem bind_eq_ok_iff {x : Except ε α} {f : α → Except ε β} {b : β} :
    x >>= f = .ok b ↔ ∃ a, x = .ok a ∧ f a = .ok b := by
  cases x <;> simp [bind, Except.bind]

theorem map_eq_ok_iff {x : Except ε α} {f : α → β} {b : β} :
    x.map f = .ok b ↔ ∃ a, x = .ok a ∧ f a = b := by
  cases x <;> simp [Except.map]

theorem mapError_ok (a : α) (wrap : ε → ε') : (Except.ok a).mapError wrap = .ok a := rfl

theorem mapError_eq_ok_iff {x : Except ε α} {wrap : ε → ε'} {a : α} :
    x.mapError wrap = .ok a ↔ x = .ok a := by
  cases x with
  | error e => exact iff_of_false nofun nofun
  | ok b => rw [mapError_ok, Except.ok.injEq, Except.ok.injEq]

theorem pure_eq_ok_iff {a b : α} : (pure a : Except ε α) = .ok b ↔ a = b := by
  simp [pure, Except.pure]

theorem toOption_eq_some_iff {x : Except ε α} {a : α} : x.toOption = some a ↔ x = .ok a := by
  cases x <;> simp [Except.toOption]

theorem error_bind (e : ε) (f : α → Except ε β) : (Except.error e >>= f) = .error e := rfl

theorem ok_bind (a : α) (f : α → Except ε β) : (Except.ok a >>= f) = f a := rfl

theorem guard_eq_ok_iff {p : Prop} [Decidable p] {x : Except ε α} {e : ε} {a : α} :
    (if p then x else throw e) = .ok a ↔ p ∧ x = .ok a := by
  split <;> simp_all [throw, throwThe, MonadExceptOf.throw]

theorem stop_eq_ok_none_iff {p : Prop} [Decidable p] {x : Except ε (Option α)} {a : α} :
    (if p then pure (some a) else x) = .ok none ↔ ¬ p ∧ x = .ok none := by
  split <;> simp_all [pure, Except.pure]

end Results

/-! ### Big-endian numerals -/

namespace Bytes

/-- So many bytes fit a file or the memory of a machine. -/
def Addressable (b : Bytes) : Prop := b.length < 2 ^ 63

theorem foldl_eq (n : Nat) (b : Bytes) :
    b.foldl (fun n c => n * 256 + c.toNat) n = n * 256 ^ b.length + toNat b := by
  induction b generalizing n with
  | nil => simp [toNat]
  | cons c b ih =>
    simp only [toNat, List.foldl_cons, List.length_cons]
    rw [ih, ih (0 * 256 + c.toNat), Nat.pow_succ]
    grind

theorem toNat_nil : toNat [] = 0 := rfl

theorem toNat_cons (c : UInt8) (b : Bytes) :
    toNat (c :: b) = c.toNat * 256 ^ b.length + toNat b := by
  have h := foldl_eq c.toNat b
  simpa [toNat] using h

theorem toNat_append (a b : Bytes) : toNat (a ++ b) = toNat a * 256 ^ b.length + toNat b := by
  rw [toNat, List.foldl_append]
  exact foldl_eq _ b

theorem toNat_lt (b : Bytes) : toNat b < 256 ^ b.length := by
  induction b with
  | nil => simp [toNat_nil]
  | cons c b ih =>
    have hc : c.toNat + 1 ≤ 256 := c.toNat_lt
    have hm := Nat.mul_le_mul_right (256 ^ b.length) hc
    rw [toNat_cons, List.length_cons, Nat.pow_succ]
    grind

theorem ofNat_go (width n : Nat) (tail : Bytes) : ofNat.go width n tail = ofNat width n ++ tail := by
  induction width generalizing n tail with
  | zero => rfl
  | succ width ih =>
    simp only [ofNat, ofNat.go]
    rw [ih, ih _ [_], List.append_assoc]
    rfl

theorem ofNat_succ (width n : Nat) : ofNat (width + 1) n = ofNat width (n / 256) ++ [UInt8.ofNat n] :=
  ofNat_go width (n / 256) [UInt8.ofNat n]

theorem toNat_ofNat (width n : Nat) : toNat (ofNat width n) = n % 256 ^ width := by
  induction width generalizing n with
  | zero => simp [ofNat, ofNat.go, toNat_nil, Nat.mod_one]
  | succ width ih =>
    rw [ofNat_succ, toNat_append, ih, toNat_cons, toNat_nil, Nat.pow_succ, Nat.mul_comm _ 256,
      Nat.mod_mul]
    simp
    omega

theorem toNat_ofNat_of_lt {width n : Nat} (h : n < 256 ^ width) : toNat (ofNat width n) = n := by
  rw [toNat_ofNat, Nat.mod_eq_of_lt h]

theorem ofNat_toNat (b : Bytes) : ofNat b.length (toNat b) = b := by
  induction b using List.reverseRecOn with
  | nil => rfl
  | append_singleton b c ih =>
    have hc := c.toNat_lt
    have hdiv : (toNat b * 256 + c.toNat) / 256 = toNat b := by omega
    have hmod : UInt8.ofNat (toNat b * 256 + c.toNat) = c := by
      apply UInt8.toNat_inj.1
      rw [UInt8.toNat_ofNat']
      omega
    rw [List.length_append, List.length_singleton, ofNat_succ, toNat_append, toNat_cons, toNat_nil]
    simp only [List.length_nil, List.length_singleton, Nat.pow_zero, Nat.pow_one, Nat.mul_one,
      Nat.add_zero]
    rw [hdiv, hmod, ih]

end Bytes

end UpdateSeal
