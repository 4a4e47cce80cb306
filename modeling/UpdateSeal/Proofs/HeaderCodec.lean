import Mathlib.Tactic.MkIffOfInductiveProp
import UpdateSeal.Proofs.Acceptance

/-!
# The header codec is exact

A header whose fields are in their ranges is written and read back, whatever follows it, and no other
header is. Bytes are read as a header if and only if one stands in front of them, and then they begin
with its written form. All other bytes are refused for their format.
-/

namespace UpdateSeal.Header

variable {h : Header} {raw : Bytes}

/-- Every field has a number that a payload may have there. Major version 1 has no metadata
signature. -/
@[mk_iff]
structure InRange (h : Header) : Prop where
  major_eq : h.major = 1 ∨ h.major = 2
  manifestSize_nonneg : 0 ≤ h.manifestSize
  manifestSize_le : h.manifestSize ≤ 64 * 2 ^ 20
  signatureSize_nonneg : 0 ≤ h.metadataSignatureSize
  signatureSize_lt : h.metadataSignatureSize < 2 ^ 32
  signatureSize_eq : h.major = 1 → h.metadataSignatureSize = 0

/-- A header stands in front of `raw`: the magic, a major version and a manifest size that are
supported, and as many bytes as a header of that version has. -/
@[mk_iff]
structure Leads (raw : Bytes) : Prop where
  magic_prefix : Bytes.ofText "CrAU" <+: raw
  length_le : 20 ≤ raw.length
  major_eq : Bytes.toNat (Bytes.slice 4 8 raw) = 1 ∨
    Bytes.toNat (Bytes.slice 4 8 raw) = 2 ∧ 24 ≤ raw.length
  manifestSize_le : Bytes.toNat (Bytes.slice 12 8 raw) ≤ 64 * 2 ^ 20

instance : DecidablePred InRange := fun h => decidable_of_iff _ (inRange_iff h).symm

instance : DecidablePred Leads := fun raw => decidable_of_iff _ (leads_iff raw).symm

theorem valid_iff_inRange : h.Valid ↔ h.InRange := by
  constructor
  · intro hv
    refine ⟨hv.major_eq, hv.manifestSize_nonneg, hv.manifestSize_le, hv.signatureSize_nonneg,
      hv.signatureSize_lt, fun h1 => ?_⟩
    cases hv with
    | first => rfl
    | second => cases h1
  · obtain ⟨major, m, s⟩ := h
    rintro ⟨hmajor, hm, hmle, hs, hslt, hunsigned⟩
    obtain ⟨m, rfl⟩ := Int.eq_ofNat_of_zero_le hm
    obtain ⟨s, rfl⟩ := Int.eq_ofNat_of_zero_le hs
    rcases hmajor with rfl | rfl
    · obtain rfl : s = 0 := Int.ofNat_eq_zero.1 (hunsigned rfl)
      exact .first (Int.ofNat_le.1 hmle)
    · exact .second (Int.ofNat_le.1 hmle) (Int.ofNat_lt.1 hslt)

/-- A header is read back from its written form, whatever follows it, exactly if it is in range. -/
theorem inRange_iff_reads_back :
    h.InRange ↔ ∃ b, h.toBytes = .ok b ∧ ∀ rest, ofBytes (b ++ rest) = .ok h := by
  rw [← valid_iff_inRange]
  constructor
  · exact fun hv => ⟨h.form, toBytes_eq hv, ofBytes_form hv⟩
  · rintro ⟨b, -, hread⟩
    exact (form_of_ofBytes (hread [])).1

theorem toBytes_of_ofBytes (hr : ofBytes raw = .ok h) :
    ∃ n, h.size = .ok n ∧ h.toBytes = .ok (raw.take n) := by
  obtain ⟨hv, rest, rfl⟩ := form_of_ofBytes hr
  exact ⟨h.form.length, size_eq hv, by rw [List.take_left, toBytes_eq hv]⟩

theorem magic_prefix_iff : Bytes.ofText "CrAU" <+: raw ↔ raw.take 4 = magic := by
  have hmagic : Bytes.ofText "CrAU" = magic := by decide
  rw [hmagic, List.prefix_iff_eq_take]
  exact eq_comm

theorem leads_of_ofBytes (hr : ofBytes raw = .ok h) : Leads raw := by
  unfold ofBytes at hr
  split at hr
  · cases hr
  · next hlen =>
    simp only at hr
    split at hr
    · cases hr
    · next hmagic =>
      split at hr
      · cases hr
      · next hsize =>
        refine ⟨magic_prefix_iff.2 (not_not.1 hmagic), Nat.not_lt.1 hlen, ?_, Nat.not_lt.1 hsize⟩
        split at hr
        · next h1 => exact .inl h1
        · split at hr
          · next h2 =>
            split at hr
            · cases hr
            · next hlong => exact .inr ⟨h2, Nat.not_lt.1 hlong⟩
          · cases hr

theorem exists_of_leads (hl : Leads raw) : ∃ h, ofBytes raw = .ok h := by
  have hsize : ¬ maxManifestSize < Bytes.toNat (Bytes.slice 12 8 raw) :=
    Nat.not_lt.2 hl.manifestSize_le
  rw [ofBytes, if_neg (Nat.not_lt.2 hl.length_le)]
  simp only
  rw [if_neg (not_not.2 (magic_prefix_iff.1 hl.magic_prefix)), if_neg hsize]
  rcases hl.major_eq with h1 | ⟨h2, hlong⟩
  · rw [if_pos h1]
    exact ⟨_, rfl⟩
  · rw [h2, if_neg (by decide), if_pos rfl, if_neg (Nat.not_lt.2 hlong)]
    exact ⟨_, rfl⟩

theorem refused_of_not_leads (hl : ¬ Leads raw) : ∃ f, ofBytes raw = .error f ∧ f.IsFormat := by
  cases hr : ofBytes raw with
  | ok h => exact absurd (leads_of_ofBytes hr) hl
  | error f => exact ⟨f, rfl, isFormat_of_ofBytes hr⟩

/-- Headers in range, and no others, are read back from their written form, whatever follows it. What
is read begins with the written form of its header. Bytes are read exactly if a header leads them, and
refused for their format otherwise. -/
theorem codec_exact :
    (∀ h : Header, h.InRange ↔
      ∃ b, h.toBytes = .ok b ∧ ∀ rest, ofBytes (b ++ rest) = .ok h) ∧
    (∀ raw h, ofBytes raw = .ok h → ∃ n, h.size = .ok n ∧ h.toBytes = .ok (raw.take n)) ∧
    (∀ raw, Leads raw ↔ ∃ h, ofBytes raw = .ok h) ∧
    ∀ raw, ¬ Leads raw → ∃ f, ofBytes raw = .error f ∧ f.IsFormat :=
  ⟨fun _ => inRange_iff_reads_back, fun _ _ => toBytes_of_ofBytes,
    fun _ => ⟨exists_of_leads, fun ⟨_, hr⟩ => leads_of_ofBytes hr⟩, fun _ => refused_of_not_leads⟩

/-- The greatest sizes that a header can hold, in 24 bytes with something behind them. -/
def greatestRaw : Bytes :=
  magic ++ [0, 0, 0, 0, 0, 0, 0, 2, 0, 0, 0, 0, 4, 0, 0, 0, 255, 255, 255, 255, 7]

theorem codec_exact_at_greatest :
    (∃ b, toBytes ⟨2, 64 * 2 ^ 20, 2 ^ 32 - 1⟩ = .ok b ∧
      ∀ rest, ofBytes (b ++ rest) = .ok ⟨2, 64 * 2 ^ 20, 2 ^ 32 - 1⟩) ∧
    (∃ n, size ⟨2, 64 * 2 ^ 20, 2 ^ 32 - 1⟩ = .ok n ∧
      toBytes ⟨2, 64 * 2 ^ 20, 2 ^ 32 - 1⟩ = .ok (greatestRaw.take n)) ∧
    ∃ f, ofBytes (greatestRaw.take 23) = .error f ∧ f.IsFormat :=
  ⟨(codec_exact.1 _).1 (by decide), codec_exact.2.1 greatestRaw _ (by decide),
    codec_exact.2.2.2 (greatestRaw.take 23) (by decide)⟩

end UpdateSeal.Header
