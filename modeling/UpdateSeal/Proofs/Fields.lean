import UpdateSeal.Validation.Field
import UpdateSeal.Proofs.Objects
import UpdateSeal.Proofs.Numerals

/-!
# Fields that pass their checks

What a check that passes says about the value it was given, and how the checks of the fields of a
record combine. An integer that is read from any kind of value is no longer than is read in a record.
-/

namespace UpdateSeal

namespace Validation

open Json (Bounded)

variable {v : Json.Value} {n : Int}

theorem plainInteger_bounded {cs : List Char} (h : plainInteger cs = .ok n) : Bounded n := by
  unfold plainInteger at h
  simp only at h
  split at h
  · next m count hlex =>
    obtain ⟨-, h⟩ := guard_eq_ok_iff.1 h
    cases h
    have hbounded : (Json.Token.int n).Bounded :=
      (congrArg (Json.Token.Bounded ·.1) hlex).mp (Json.lexNumber_bounded rfl _ _)
    exact hbounded
  all_goals cases h

theorem integerOfText_bounded {s : String} (h : integerOfText s = .ok n) : Bounded n := by
  unfold integerOfText at h
  split at h
  · split at h
    · cases h
    · exact plainInteger_bounded h
  · exact plainInteger_bounded h

theorem integerOfFloat_bounded {x : Decimal.Binary64} (h : integerOfFloat x = .ok n) :
    Bounded n := by
  unfold integerOfFloat at h
  split at h
  · split at h
    · cases h
    · split at h
      · next hn =>
        cases h
        exact Json.bounded_of_small (Nat.lt_trans hn (by decide))
      · cases h
  · cases h

theorem integer_bounded (hv : v.Bounded) (h : integer v = .ok n) : Bounded n := by
  unfold integer at h
  split at h
  case h_1 => cases h; cases hv; assumption
  case h_2 b =>
    cases h
    cases b <;> exact Json.bounded_of_small (by decide)
  case h_3 => exact integerOfFloat_bounded h
  case h_4 => exact integerOfText_bounded h
  all_goals cases h

theorem integerAbove_eq_ok_iff {bound : Int} :
    integerAbove bound v = .ok n ↔ integer v = .ok n ∧ bound < n := by
  simp only [integerAbove, bind_eq_ok_iff, guard_eq_ok_iff, pure_eq_ok_iff]
  exact ⟨by rintro ⟨_, hv, hb, rfl⟩; exact ⟨hv, hb⟩, fun ⟨hv, hb⟩ => ⟨n, hv, hb, rfl⟩⟩

theorem integerFrom_eq_ok_iff {bound : Int} :
    integerFrom bound v = .ok n ↔ integer v = .ok n ∧ bound ≤ n := by
  simp only [integerFrom, bind_eq_ok_iff, guard_eq_ok_iff, pure_eq_ok_iff]
  exact ⟨by rintro ⟨_, hv, hb, rfl⟩; exact ⟨hv, hb⟩, fun ⟨hv, hb⟩ => ⟨n, hv, hb, rfl⟩⟩

variable {α β : Type} {ms : Json.Members} {name : String}

theorem Checked.at_eq_ok_iff {loc : List String} {x : Except Kind α} {a : α} :
    Checked.at loc x = .ok a ↔ x = .ok a := by
  cases x <;> simp [Checked.at]

theorem Checked.and_eq_ok_iff {x : Checked α} {y : Checked β} {p : α × β} :
    Checked.and x y = .ok p ↔ x = .ok p.1 ∧ y = .ok p.2 := by
  cases x <;> cases y <;> simp [Checked.and, Prod.ext_iff]

theorem Checked.unless_eq_ok_iff {x : Checked α} {extra : List Issue} {a : α} :
    Checked.unless x extra = .ok a ↔ x = .ok a ∧ extra = [] := by
  cases x <;> cases extra <;> simp [Checked.unless]

theorem optional_eq_ok {default a : α} {check : Json.Value → Checked α}
    (h : optional ms name default check = .ok a) :
    a = default ∨ ∃ v, (name, v) ∈ ms ∧ check v = .ok a := by
  unfold optional at h
  split at h
  · cases h
    exact .inl rfl
  · next v hv =>
    obtain ⟨before, behind, rfl, -⟩ := List.lookup_eq_some_iff.1 hv
    exact .inr ⟨v, by simp, h⟩

theorem nullable_eq_ok {check : Json.Value → Except Kind α} {r : Option α}
    (h : nullable check v = .ok r) {a : α} (ha : r = some a) : check v = .ok a := by
  subst ha
  unfold nullable at h
  split at h
  · cases h
  · obtain ⟨b, hb, hab⟩ := map_eq_ok_iff.1 h
    cases hab
    exact hb

end Validation

end UpdateSeal
