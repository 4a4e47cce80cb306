import UpdateSeal.Payload.Header
import UpdateSeal.Proofs.Numerals

/-!
# Headers delimit themselves

A header that is read stands in front in its written form, and a written header is read back
whatever follows it. So one byte string has at most one header in front.
-/

namespace UpdateSeal

namespace Bytes

theorem ofNat_toNat_of_length {width : Nat} {b : Bytes} (h : b.length = width) :
    ofNat width (toNat b) = b := by
  rw [← h, ofNat_toNat]

theorem toNat_slice_lt (start width : ℕ) (b : Bytes) :
    toNat (slice start width b) < 256 ^ width := by
  apply Nat.lt_of_lt_of_le (toNat_lt _)
  apply Nat.pow_le_pow_right (by decide)
  rw [slice, List.length_take]
  exact Nat.min_le_left ..

end Bytes

namespace Header

variable {h : Header} {raw : Bytes}

/-- A header that can be read: its manifest is not too large, and its signature size has four bytes
or is zero for want of a place. -/
inductive Valid : Header → Prop where
  | first {m : Nat} (hm : m ≤ maxManifestSize) : Valid ⟨1, m, 0⟩
  | second {m s : Nat} (hm : m ≤ maxManifestSize) (hs : s < 256 ^ 4) : Valid ⟨2, m, s⟩

/-- The written form. -/
def form (h : Header) : Bytes :=
  magic ++ (Bytes.ofNat 8 h.major.toNat ++ (Bytes.ofNat 8 h.manifestSize.toNat ++
    if h.major = 2 then Bytes.ofNat 4 h.metadataSignatureSize.toNat else []))

theorem form_first (m : Nat) :
    form ⟨1, m, 0⟩ = magic ++ (Bytes.ofNat 8 1 ++ (Bytes.ofNat 8 m ++ [])) := rfl

theorem form_second (m s : Nat) :
    form ⟨2, m, s⟩ = magic ++ (Bytes.ofNat 8 2 ++ (Bytes.ofNat 8 m ++ Bytes.ofNat 4 s)) := rfl

theorem pack_natCast {width n : Nat} (hn : n < 256 ^ width) :
    pack width n = .ok (Bytes.ofNat width n) := by
  rw [pack, if_pos ⟨Int.natCast_nonneg n, Int.ofNat_lt.2 hn⟩, Int.toNat_natCast]

theorem lt_of_pack {width n : Nat} {b : Bytes} (h : pack width n = .ok b) : n < 256 ^ width := by
  unfold pack at h
  split at h
  · next hn => exact Int.ofNat_lt.1 hn.2
  · cases h

theorem toBytes_eq (hv : h.Valid) : h.toBytes = .ok h.form := by
  cases hv with
  | first hm =>
    rw [toBytes, if_pos rfl, if_neg (not_not.2 rfl)]
    simp only
    rw [pack_natCast (Nat.lt_of_le_of_lt hm (by decide)), form_first, List.append_nil]
    rfl
  | second hm hs =>
    rw [toBytes, if_neg (by simp), if_pos rfl]
    simp only
    rw [pack_natCast (Nat.lt_of_le_of_lt hm (by decide)), pack_natCast hs, form_second]
    rfl

theorem valid_of_toBytes {m s : Nat} {major : Int} (hm : m ≤ maxManifestSize)
    (hb : toBytes ⟨major, m, s⟩ = .ok raw) : Valid ⟨major, m, s⟩ := by
  unfold toBytes at hb
  split at hb
  · next h1 =>
    obtain rfl : major = 1 := h1
    split at hb
    · cases hb
    · next hs =>
      obtain rfl : s = 0 := Int.ofNat_eq_zero.1 (Decidable.not_not.1 hs)
      exact .first hm
  · split at hb
    · next h2 =>
      obtain rfl : major = 2 := h2
      obtain ⟨_, -, hb⟩ := bind_eq_ok_iff.1 hb
      obtain ⟨_, -, hb⟩ := bind_eq_ok_iff.1 hb
      obtain ⟨_, hs, -⟩ := bind_eq_ok_iff.1 hb
      exact .second hm (lt_of_pack hs)
    · cases hb

theorem size_eq (hv : h.Valid) : h.size = .ok h.form.length := by
  cases hv with
  | first hm => simp [size, sizeOfMajor, form_first, magic]
  | second hm hs => simp [size, sizeOfMajor, form_second, magic]

theorem Valid.major_eq (hv : h.Valid) : h.major = 1 ∨ h.major = 2 := by
  cases hv with
  | first => exact .inl rfl
  | second => exact .inr rfl

theorem Valid.signatureSize_nonneg (hv : h.Valid) : 0 ≤ h.metadataSignatureSize := by
  cases hv with
  | first hm => exact Int.le_refl 0
  | second hm hs => exact Int.natCast_nonneg _

theorem length_form_le (h : Header) : h.form.length ≤ maxSize := by
  by_cases h2 : h.major = 2 <;> simp [form, h2, magic, maxSize]

theorem ofBytes_fields {a b : Nat} (ha : a < 256 ^ 8) (hb : b < 256 ^ 8) (tail : Bytes) :
    ofBytes (magic ++ (Bytes.ofNat 8 a ++ (Bytes.ofNat 8 b ++ tail))) =
      if maxManifestSize < b then .error (.manifestTooLarge b)
      else if a = 1 then .ok ⟨1, b, 0⟩
      else if a = 2 then
        if tail.length < 4 then .error .truncatedHeader else .ok ⟨2, b, Bytes.toNat (tail.take 4)⟩
      else .error (.unsupportedMajor a) := by
  generalize hraw : magic ++ (Bytes.ofNat 8 a ++ (Bytes.ofNat 8 b ++ tail)) = raw
  have hlen : raw.length = 20 + tail.length := by
    rw [← hraw]
    simp [magic]
    omega
  have hmagic : raw.take 4 = magic := by
    rw [← hraw]
    exact List.take_left' rfl
  have hmajor : Bytes.slice 4 8 raw = Bytes.ofNat 8 a := by
    have := Bytes.slice_append magic (Bytes.ofNat 8 a) (Bytes.ofNat 8 b ++ tail)
    rwa [hraw, Bytes.length_ofNat] at this
  have hsize : Bytes.slice 12 8 raw = Bytes.ofNat 8 b := by
    have := Bytes.slice_append (magic ++ Bytes.ofNat 8 a) (Bytes.ofNat 8 b) tail
    rwa [List.append_assoc, hraw, List.length_append, Bytes.length_ofNat, Bytes.length_ofNat] at this
  have htail : Bytes.slice 20 4 raw = tail.take 4 := by
    have : raw.drop 20 = tail := by
      rw [← hraw, ← List.append_assoc, ← List.append_assoc]
      apply List.drop_left'
      simp [magic]
    rw [Bytes.slice, this]
  have hshort : raw.length < 24 ↔ tail.length < 4 := by omega
  rw [ofBytes, if_neg (by omega : ¬ raw.length < 20)]
  simp only [hmagic, hmajor, hsize, htail, Bytes.toNat_ofNat_of_lt ha, Bytes.toNat_ofNat_of_lt hb,
    hshort, ne_eq, not_true_eq_false, if_false]

/-- A written header is read back, whatever follows it. -/
theorem ofBytes_form (hv : h.Valid) (rest : Bytes) : ofBytes (h.form ++ rest) = .ok h := by
  cases hv with
  | first hm =>
    have hm' := Nat.lt_of_le_of_lt hm (by decide : maxManifestSize < 256 ^ 8)
    simp only [form_first, List.append_assoc]
    rw [ofBytes_fields (by decide) hm', if_neg (Nat.not_lt.2 hm), if_pos rfl]
  | second hm hs =>
    have hm' := Nat.lt_of_le_of_lt hm (by decide : maxManifestSize < 256 ^ 8)
    simp only [form_second, List.append_assoc]
    rw [ofBytes_fields (by decide) hm', if_neg (Nat.not_lt.2 hm), if_neg (by decide), if_pos rfl,
      if_neg (by simp), List.take_left' (Bytes.length_ofNat 4 _), Bytes.toNat_ofNat_of_lt hs]

theorem eq_fields (hlen : 20 ≤ raw.length) (hmagic : raw.take 4 = magic) :
    raw = magic ++ (Bytes.ofNat 8 (Bytes.toNat (Bytes.slice 4 8 raw)) ++
      (Bytes.ofNat 8 (Bytes.toNat (Bytes.slice 12 8 raw)) ++ raw.drop 20)) := by
  have h8 : (Bytes.slice 4 8 raw).length = 8 := by
    simp [Bytes.slice]
    omega
  have h16 : (Bytes.slice 12 8 raw).length = 8 := by
    simp [Bytes.slice]
    omega
  rw [Bytes.ofNat_toNat_of_length h8, Bytes.ofNat_toNat_of_length h16]
  calc
    raw = raw.take (4 + 8 + 8) ++ raw.drop 20 := (List.take_append_drop 20 raw).symm
    _ = _ := by
      rw [Bytes.take_add_eq, Bytes.take_add_eq, hmagic]
      simp only [List.append_assoc]

theorem exists_fields_of_ofBytes (hr : ofBytes raw = .ok h) :
    ∃ (a b : ℕ) (tail : Bytes), a < 256 ^ 8 ∧ b < 256 ^ 8 ∧
      raw = magic ++ (Bytes.ofNat 8 a ++ (Bytes.ofNat 8 b ++ tail)) := by
  have hlen : 20 ≤ raw.length := by
    apply Nat.le_of_not_lt
    intro hlt
    simp [ofBytes, hlt] at hr
  have hmagic : raw.take 4 = magic := by
    apply Decidable.by_contra
    intro hne
    simp [ofBytes, Nat.not_lt.2 hlen, hne] at hr
  exact ⟨_, _, _, Bytes.toNat_slice_lt 4 8 raw, Bytes.toNat_slice_lt 12 8 raw,
    eq_fields hlen hmagic⟩

/-- A header that is read stands in front in its written form. -/
theorem form_of_ofBytes (hr : ofBytes raw = .ok h) : h.Valid ∧ ∃ rest, raw = h.form ++ rest := by
  obtain ⟨a, b, tail, ha, hb, rfl⟩ := exists_fields_of_ofBytes hr
  rw [ofBytes_fields ha hb] at hr
  split at hr
  · cases hr
  · next hm =>
    have hm := Nat.not_lt.1 hm
    split at hr
    · next h1 =>
      subst h1
      cases hr
      exact ⟨.first hm, tail, by simp [form_first]⟩
    · split at hr
      · next h2 =>
        subst h2
        split at hr
        · cases hr
        · next ht =>
          have h4 : (tail.take 4).length = 4 := List.length_take_of_le (Nat.not_lt.1 ht)
          have hs := Bytes.toNat_lt (tail.take 4)
          rw [h4] at hs
          cases hr
          refine ⟨.second hm hs, tail.drop 4, ?_⟩
          rw [form_second, Bytes.ofNat_toNat_of_length h4]
          simp only [List.append_assoc, List.take_append_drop]
      · cases hr

/-- The header in front of a file stands there in its written form. -/
theorem take_form_of_ofBytes {content : Bytes} (hr : ofBytes (content.take maxSize) = .ok h) :
    content.take h.form.length = h.form := by
  obtain ⟨-, rest, hfront⟩ := form_of_ofBytes hr
  have htake := congrArg (List.take h.form.length) hfront
  rwa [List.take_left, List.take_take, Nat.min_eq_left (length_form_le h)] at htake

end Header

end UpdateSeal
