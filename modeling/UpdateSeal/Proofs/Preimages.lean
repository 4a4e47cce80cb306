import UpdateSeal.Proofs.Layouts

/-!
# What signatures cover

A payload signature covers header, manifest and data, one after another, and a metadata signature
covers header and manifest. Header and manifest delimit themselves, so what is covered determines
every byte of a file outside its signatures, and where those lie; and no metadata signature stands
for a payload that has data.
-/

namespace UpdateSeal

namespace Layout

/-- What the metadata signature of a file covers. -/
def metadataPreimage (l : Layout) (content : Bytes) : Except PayloadFault Bytes := do
  return Bytes.slice 0 (← l.metadataSize).toNat content

/-- What the payload signature of a file covers. -/
def payloadPreimage (l : Layout) (content : Bytes) : Except PayloadFault Bytes := do
  return (← l.metadataPreimage content) ++
    Bytes.slice (← l.dataOffset).toNat (← l.dataLength).toNat content

/-- The byte at `i` belongs to a signature. -/
def InSignature (l : Layout) (i : Nat) : Prop :=
  ∃ r, (l.metadataSignatureRegion = .ok (some r) ∨ l.payloadSignatureRegion = .ok (some r)) ∧
    r.offset ≤ i ∧ i < r.stop

/-- A payload signature is declared, if only an empty one, and ends where the file ends. -/
def EndsSigned (l : Layout) : Prop :=
  ∃ dataOffset offset size, l.dataOffset = .ok dataOffset ∧
    l.manifest.signaturesOffset = some offset ∧ l.manifest.signaturesSize = some size ∧
    dataOffset + offset + size = l.fileSize

variable {l l' : Layout} {F G md md' sig sig' data data' tail tail' x y : Bytes}

theorem exists_region_iff {part : Bytes} {offset : Int} {i : ℕ} :
    (∃ r : Region, (if part = [] then none else some ⟨offset, part.length⟩) = some r ∧
      r.offset ≤ i ∧ i < r.stop) ↔ offset ≤ i ∧ i < offset + part.length := by
  constructor
  · rintro ⟨r, hr, hle, hlt⟩
    split at hr
    · cases hr
    · cases hr
      exact ⟨hle, hlt⟩
  · intro hi
    have hne : part ≠ [] := by
      rintro rfl
      simp only [List.length_nil] at hi
      omega
    exact ⟨_, if_neg hne, hi⟩

namespace Splits

theorem metadataPreimage_eq (h : l.Splits F md sig data tail) : l.metadataPreimage F = .ok md := by
  have hslice : Bytes.slice 0 md.length F = md := by
    rw [h.content_eq]
    simp only [Bytes.slice, List.drop_zero, List.append_assoc, List.take_left]
  rw [metadataPreimage, h.metadataSize_eq, ok_bind, Int.toNat_natCast, hslice]
  rfl

theorem slice_data (h : l.Splits F md sig data tail) :
    Bytes.slice (md.length + sig.length) data.length F = data := by
  rw [h.content_eq, ← List.length_append, List.append_assoc]
  exact Bytes.slice_append _ _ _

theorem payloadPreimage_eq (h : l.Splits F md sig data tail) :
    l.payloadPreimage F = .ok (md ++ data) := by
  rw [payloadPreimage, h.metadataPreimage_eq, ok_bind, h.dataOffset_eq, ok_bind, h.dataLength_eq,
    ok_bind]
  have hoffset : ((md.length : Int) + sig.length).toNat = md.length + sig.length := by omega
  rw [hoffset, Int.toNat_natCast, h.slice_data]
  rfl

theorem signaturesSize_eq (h : l.Splits F md sig data tail) (he : l.EndsSigned) :
    l.manifest.signaturesSize = some (tail.length : Int) := by
  obtain ⟨dataOffset, offset, size, hd, ho, hs, hend⟩ := he
  have hlen := h.length_eq
  rw [h.dataOffset_eq] at hd
  have hd := Except.ok.inj hd
  rw [h.offset_eq offset ho, h.fileSize_eq] at hend
  rw [hs]
  congr 1
  omega

theorem payloadSignatureRegion_eq (h : l.Splits F md sig data tail) (he : l.EndsSigned) :
    l.payloadSignatureRegion =
      .ok (if tail = [] then none
        else some ⟨md.length + sig.length + data.length, tail.length⟩) := by
  have hs := h.signaturesSize_eq he
  obtain ⟨-, offset, -, -, ho, -, -⟩ := he
  have hz : (tail.length : Int) = 0 ↔ tail = [] := by
    rw [← List.length_eq_zero_iff]
    omega
  simp only [payloadSignatureRegion, ho, hs, h.dataOffset_eq, ok_bind]
  by_cases ht : tail = []
  · rw [if_pos (hz.2 ht), if_pos ht]
  · rw [if_neg (mt hz.1 ht), if_neg ht, h.offset_eq offset ho]
    rfl

theorem inSignature_iff (h : l.Splits F md sig data tail) (he : l.EndsSigned) {i : Nat} :
    l.InSignature i ↔ md.length ≤ i ∧ i < md.length + sig.length ∨
      md.length + sig.length + data.length ≤ i ∧ i < F.length := by
  have hlen := h.length_eq
  simp only [InSignature, h.metadataSignatureRegion_eq, h.payloadSignatureRegion_eq he,
    Except.ok.injEq, or_and_right, exists_or, exists_region_iff]
  omega

/-- Header and manifest delimit themselves: bytes that start with those of two files determine
them, and what follows. -/
theorem metadata_inj (h : l.Splits F md sig data tail) (h' : l'.Splits G md' sig' data' tail')
    (heq : md ++ x = md' ++ y) :
    l.header = l'.header ∧ l.manifest = l'.manifest ∧ md = md' ∧ x = y := by
  obtain ⟨raw, rfl, hsize, hraw⟩ := h.metadata_eq
  obtain ⟨raw', rfl, hsize', hraw'⟩ := h'.metadata_eq
  have hheader : l.header = l'.header := by
    have hl := Header.ofBytes_form h.header_valid (raw ++ x)
    have hl' := Header.ofBytes_form h'.header_valid (raw' ++ y)
    rw [← List.append_assoc, heq, List.append_assoc, hl'] at hl
    exact (Except.ok.inj hl).symm
  rw [hheader, List.append_assoc, List.append_assoc, List.append_cancel_left_eq] at heq
  have hlen : raw.length = raw'.length := by
    rw [hheader, hsize'] at hsize
    omega
  obtain ⟨rfl, rfl⟩ := List.append_inj heq hlen
  rw [hraw] at hraw'
  exact ⟨hheader, Except.ok.inj hraw', by rw [hheader], rfl⟩

theorem getElem?_metadata (h : l.Splits F md sig data tail) {i : Nat} (hi : i < md.length) :
    F[i]? = md[i]? := by
  rw [h.content_eq, List.append_assoc, List.append_assoc, List.getElem?_append_left hi]

theorem getElem?_data (h : l.Splits F md sig data tail) {i : Nat} (hi : i < data.length) :
    F[md.length + sig.length + i]? = data[i]? := by
  rw [h.content_eq, List.append_assoc, List.getElem?_append_right (by simp),
    List.length_append, Nat.add_sub_cancel_left, List.getElem?_append_left hi]

/-- Parts of the same sizes agree if the bytes outside the signatures do. -/
theorem metadata_data_eq (h : l.Splits F md sig data tail) (he : l.EndsSigned)
    (h' : l.Splits G md' sig' data' tail')
    (hbytes : ∀ i, ¬ l.InSignature i → F[i]? = G[i]?) : md = md' ∧ data = data' := by
  have hmd : md.length = md'.length := by
    have := h.metadataSize_eq.symm.trans h'.metadataSize_eq
    exact Int.ofNat.inj (Except.ok.inj this)
  have hsig : sig.length = sig'.length := by
    have := h.signature_length.symm.trans h'.signature_length
    exact Int.ofNat.inj this
  have hdata : data.length = data'.length := by
    have := h.dataLength_eq.symm.trans h'.dataLength_eq
    exact Int.ofNat.inj (Except.ok.inj this)
  have hlen := h.length_eq
  constructor
  · apply List.ext_getElem?
    intro i
    by_cases hi : i < md.length
    · rw [← h.getElem?_metadata hi, ← h'.getElem?_metadata (hmd ▸ hi)]
      apply hbytes
      rw [h.inSignature_iff he]
      omega
    · rw [List.getElem?_eq_none (by omega), List.getElem?_eq_none (by omega)]
  · apply List.ext_getElem?
    intro i
    by_cases hi : i < data.length
    · rw [← h.getElem?_data hi, ← h'.getElem?_data (hdata ▸ hi), ← hmd, ← hsig]
      apply hbytes
      rw [h.inSignature_iff he]
      omega
    · rw [List.getElem?_eq_none (by omega), List.getElem?_eq_none (by omega)]

theorem eq_of_preimage_eq (h : l.Splits F md sig data tail) (h' : l'.Splits G md' sig' data' tail')
    (he : l.EndsSigned) (he' : l'.EndsSigned) (heq : md ++ data = md' ++ data') :
    F.length = G.length ∧ l = l' ∧ ∀ i, ¬ l.InSignature i → F[i]? = G[i]? := by
  obtain ⟨hheader, hmanifest, rfl, rfl⟩ := h.metadata_inj h' heq
  have hsig : sig.length = sig'.length := by
    have hs := h.signature_length
    rw [hheader, h'.signature_length] at hs
    exact (Int.ofNat.inj hs).symm
  have htail : tail.length = tail'.length := by
    have ht := h.signaturesSize_eq he
    rw [hmanifest, h'.signaturesSize_eq he'] at ht
    exact (Int.ofNat.inj (Option.some.inj ht)).symm
  have hlen := h.length_eq
  have hlen' := h'.length_eq
  have hsize : F.length = G.length := by omega
  have hfile : l.fileSize = l'.fileSize := by rw [h.fileSize_eq, h'.fileSize_eq, hsize]
  have hl : l = l' := by
    cases l
    cases l'
    simp_all
  refine ⟨hsize, hl, ?_⟩
  intro i hi
  rw [h.inSignature_iff he] at hi
  by_cases hmd : i < md.length
  · rw [h.getElem?_metadata hmd, h'.getElem?_metadata hmd]
  · by_cases hdata : i < md.length + sig.length + data.length
    · obtain ⟨k, rfl⟩ := Nat.exists_eq_add_of_le (by omega : md.length + sig.length ≤ i)
      rw [h.getElem?_data (by omega), hsig, h'.getElem?_data (by omega)]
    · rw [List.getElem?_eq_none (by omega), List.getElem?_eq_none (by omega)]

end Splits

/-- The manifest of one byte of data, with room for a container of one signature of one byte. -/
def smallManifest : Manifest := { signaturesOffset := some 1, signaturesSize := some 7 }

def smallHeader : Header := ⟨1, smallManifest.toBytes.length, 0⟩

def smallMetadata : Bytes := smallHeader.form ++ smallManifest.toBytes

/-- The payload with that manifest, and `c` all over the room for its signature. -/
def smallPayload (c : UInt8) : Bytes := smallMetadata ++ [] ++ [7] ++ List.replicate 7 c

def smallLayout : Layout := ⟨smallHeader, smallManifest, smallMetadata.length + 8⟩

theorem smallManifest_valid : smallManifest.Valid := by
  have hd : smallManifest.Describes [7] (List.replicate 7 0) := .signed rfl rfl
  exact hd.valid (by decide +kernel) (by decide) (by decide)

theorem smallHeader_valid : smallHeader.Valid := .first (Manifest.length_toBytes_le smallManifest_valid)

theorem smallPayload_splits (c : UInt8) :
    smallLayout.Splits (smallPayload c) smallMetadata [] [7] (List.replicate 7 c) := by
  have hsize : (smallMetadata.length : Int) + 8 = (smallPayload c).length := by
    simp [smallPayload]
  rw [smallLayout, hsize]
  exact splits_of_parts smallHeader_valid smallManifest_valid rfl rfl (.signed rfl rfl)

theorem smallLayout_endsSigned : smallLayout.EndsSigned := by
  refine ⟨smallMetadata.length, 1, 7, ?_, rfl, rfl, ?_⟩
  · simpa using (smallPayload_splits 0).dataOffset_eq
  · simp only [smallLayout]
    exact Int.add_assoc _ 1 7

end Layout

end UpdateSeal
