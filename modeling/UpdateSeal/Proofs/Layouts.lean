import UpdateSeal.Payload.Layout
import UpdateSeal.Proofs.Digests
import UpdateSeal.Proofs.Headers
import UpdateSeal.Proofs.Manifests

/-!
# Layouts split files

A file has a layout exactly if it splits into the parts that the layout describes: header and
manifest, metadata signature, data, and a tail that the payload signature lies in.
-/

namespace UpdateSeal

namespace Bytes

theorem eq_parts (a b c : Nat) (content : Bytes) :
    content = content.take a ++ slice a b content ++ slice (a + b) c content ++
      content.drop (a + b + c) := by
  rw [← take_add_eq, ← take_add_eq, List.take_append_drop]

end Bytes

namespace Layout

variable {l : Layout} {content metadata signature data tail : Bytes}

section DataOffset

variable {offset : Int} (ho : l.dataOffset = .ok offset)
include ho

theorem dataLength_of_dataOffset :
    l.dataLength = .ok (l.manifest.signaturesOffset.getD (l.fileSize - offset)) := by
  unfold dataLength
  cases l.manifest.signaturesOffset with
  | none =>
    rw [ho]
    rfl
  | some start => rfl

/-- A region is declared for a payload signature that is not empty. -/
theorem exists_payloadSignatureRegion :
    ∃ r, l.payloadSignatureRegion = .ok r ∧ ∀ q, r = some q ↔ ∃ start n,
      l.manifest.signaturesOffset = some start ∧ l.manifest.signaturesSize = some n ∧ n ≠ 0 ∧
        q = ⟨offset + start, n⟩ := by
  unfold payloadSignatureRegion
  split
  · next start n hstart hn =>
    rw [hstart, hn]
    by_cases h0 : n = 0
    · refine ⟨none, if_pos h0, fun q => ⟨nofun, ?_⟩⟩
      rintro ⟨_, _, ⟨⟩, ⟨⟩, hne, -⟩
      exact absurd h0 hne
    · refine ⟨some ⟨offset + start, n⟩, ?_, fun q => ⟨?_, ?_⟩⟩
      · rw [if_neg h0, ho]
        rfl
      · rintro ⟨⟩
        exact ⟨start, n, rfl, rfl, h0, rfl⟩
      · rintro ⟨_, _, ⟨⟩, ⟨⟩, -, rfl⟩
        rfl
  · next hnone =>
    refine ⟨none, rfl, fun q => ⟨nofun, ?_⟩⟩
    rintro ⟨start, n, hstart, hn, -⟩
    exact absurd hn (hnone start n hstart)

end DataOffset

/-- `content` is the file that `l` describes, and these are its parts. -/
structure Splits (l : Layout) (content metadata signature data tail : Bytes) : Prop where
  content_eq : content = metadata ++ signature ++ data ++ tail
  fileSize_eq : l.fileSize = content.length
  header_valid : l.header.Valid
  metadata_eq : ∃ raw, metadata = l.header.form ++ raw ∧ l.header.manifestSize = raw.length ∧
    Manifest.ofBytes raw = .ok l.manifest
  signature_length : l.header.metadataSignatureSize = signature.length
  offset_eq : ∀ n, l.manifest.signaturesOffset = some n → n = data.length
  tail_nil : l.manifest.signaturesOffset = none → tail = []
  size_le : ∀ offset n, l.manifest.signaturesOffset = some offset →
    l.manifest.signaturesSize = some n → n ≤ tail.length

namespace Splits

theorem manifest_valid (h : l.Splits content metadata signature data tail) : l.manifest.Valid := by
  obtain ⟨raw, -, -, hraw⟩ := h.metadata_eq
  exact Manifest.valid_of_ofBytes hraw

theorem metadataSize_eq (h : l.Splits content metadata signature data tail) :
    l.metadataSize = .ok metadata.length := by
  obtain ⟨raw, rfl, hsize, -⟩ := h.metadata_eq
  rw [metadataSize, Header.size_eq h.header_valid, ok_bind, hsize, List.length_append]
  rfl

theorem dataOffset_eq (h : l.Splits content metadata signature data tail) :
    l.dataOffset = .ok (metadata.length + signature.length) := by
  rw [dataOffset, h.metadataSize_eq, ok_bind, h.signature_length]
  rfl

theorem length_eq (h : l.Splits content metadata signature data tail) :
    content.length = metadata.length + signature.length + data.length + tail.length := by
  rw [h.content_eq]
  simp only [List.length_append]

theorem dataLength_eq (h : l.Splits content metadata signature data tail) :
    l.dataLength = .ok data.length := by
  have hlen := h.length_eq
  rw [dataLength_of_dataOffset h.dataOffset_eq]
  cases hn : l.manifest.signaturesOffset with
  | none =>
    rw [h.tail_nil hn, List.length_nil] at hlen
    rw [Option.getD_none, h.fileSize_eq]
    congr 1
    omega
  | some n => rw [Option.getD_some, h.offset_eq n hn]

theorem metadataSignatureRegion_eq (h : l.Splits content metadata signature data tail) :
    l.metadataSignatureRegion =
      .ok (if signature = [] then none else some ⟨metadata.length, signature.length⟩) := by
  have hz : l.header.metadataSignatureSize = 0 ↔ signature = [] := by
    rw [h.signature_length, ← List.length_eq_zero_iff]
    omega
  unfold metadataSignatureRegion
  by_cases hs : signature = []
  · rw [if_pos (hz.2 hs), if_pos hs]
  · rw [if_neg (mt hz.1 hs), if_neg hs, h.metadataSize_eq, ok_bind, h.signature_length]
    rfl

theorem payloadSignatureRegion_eq_ok (h : l.Splits content metadata signature data tail) :
    ∃ r, l.payloadSignatureRegion = .ok r ∧ ∀ q, r = some q →
      q.offset = metadata.length + signature.length + data.length ∧ 0 < q.length ∧
        q.length ≤ tail.length ∧ l.manifest.signaturesSize = some q.length := by
  obtain ⟨r, hr, hregion⟩ := exists_payloadSignatureRegion h.dataOffset_eq
  refine ⟨r, hr, fun q hq => ?_⟩
  obtain ⟨start, n, hstart, hn, hne, rfl⟩ := (hregion q).1 hq
  have hpos := (h.manifest_valid.signaturesSize n hn).1
  rw [h.offset_eq start hstart]
  exact ⟨rfl, lt_of_le_of_ne hpos hne.symm, h.size_le start n hstart hn, hn⟩

end Splits

theorem validate_eq {offset length : Int} {r : Option Region} (ho : l.dataOffset = .ok offset)
    (hl : l.dataLength = .ok length) (hr : l.payloadSignatureRegion = .ok r) :
    l.validate =
      if l.fileSize < offset then
        .error (faultShowing [offset, l.fileSize] (.metadataPastEnd offset l.fileSize))
      else if l.fileSize < offset + length then .error .dataPastEnd
      else match r with
        | some q =>
          if l.fileSize < q.stop then
            .error (faultShowing [q.offset, q.stop, l.fileSize]
              (.signaturePastEnd q.offset q.stop l.fileSize))
          else .ok ()
        | none => .ok () := by
  unfold validate
  simp only [ho, hl, hr, ok_bind]
  split
  · rfl
  · split
    · rfl
    · cases r with
      | none => rfl
      | some q => by_cases hq : l.fileSize < q.stop <;> simp [hq] <;> rfl

theorem validate_eq_ok_iff {offset length : Int} {r : Option Region} (ho : l.dataOffset = .ok offset)
    (hl : l.dataLength = .ok length) (hr : l.payloadSignatureRegion = .ok r) :
    l.validate = .ok () ↔
      offset ≤ l.fileSize ∧ offset + length ≤ l.fileSize ∧ ∀ q, r = some q → q.stop ≤ l.fileSize := by
  rw [validate_eq ho hl hr]
  cases r <;> grind

/-- What the first check that fails has found. -/
theorem fault_of_validate {offset length : Int} {r : Option Region} {f : PayloadFault}
    (ho : l.dataOffset = .ok offset) (hl : l.dataLength = .ok length)
    (hr : l.payloadSignatureRegion = .ok r) (hf : l.validate = .error f) :
    (l.fileSize < offset ∧
      f = faultShowing [offset, l.fileSize] (.metadataPastEnd offset l.fileSize)) ∨
    (l.fileSize < offset + length ∧ f = .dataPastEnd) ∨
    (offset ≤ l.fileSize ∧ offset + length ≤ l.fileSize ∧ ∃ q, r = some q ∧ l.fileSize < q.stop ∧
      f = faultShowing [q.offset, q.stop, l.fileSize]
        (.signaturePastEnd q.offset q.stop l.fileSize)) := by
  rw [validate_eq ho hl hr] at hf
  cases r <;> grind

theorem ofContent_eq_ok {path : String} (h : ofContent path content = .ok l) :
    ∃ size, Header.ofBytes (content.take Header.maxSize) = .ok l.header ∧
      l.header.size = .ok size ∧
      ((Bytes.slice size l.header.manifestSize.toNat content).length : Int) = l.header.manifestSize ∧
      Manifest.ofBytes (Bytes.slice size l.header.manifestSize.toNat content) = .ok l.manifest ∧
      l.fileSize = content.length ∧ l.validate = .ok () := by
  unfold ofContent at h
  obtain ⟨header, hheader, h⟩ := bind_eq_ok_iff.1 h
  obtain ⟨size, hsize, h⟩ := bind_eq_ok_iff.1 h
  simp only at h
  split at h
  · cases h
  · next hlen =>
    obtain ⟨manifest, hmanifest, h⟩ := bind_eq_ok_iff.1 h
    obtain ⟨_, hvalidate, h⟩ := bind_eq_ok_iff.1 h
    cases h
    exact ⟨size, hheader, hsize, Decidable.not_not.1 hlen, mapError_eq_ok_iff.1 hmanifest, rfl,
      hvalidate⟩

/-- Header and manifest stand in front of a file that has a layout. -/
theorem metadata_of_ofContent {path : String} (h : ofContent path content = .ok l) :
    ∃ raw, l.header.Valid ∧ l.header.manifestSize = raw.length ∧
      Manifest.ofBytes raw = .ok l.manifest ∧
      content.take (l.header.form.length + raw.length) = l.header.form ++ raw ∧
      l.fileSize = content.length ∧ l.validate = .ok () := by
  obtain ⟨size, hheader, hsize, hlen, hmanifest, hfile, hvalidate⟩ := ofContent_eq_ok h
  obtain ⟨hvalid, -⟩ := Header.form_of_ofBytes hheader
  obtain rfl : l.header.form.length = size := by
    rw [Header.size_eq hvalid] at hsize
    exact Except.ok.inj hsize
  refine ⟨_, hvalid, hlen.symm, hmanifest, ?_, hfile, hvalidate⟩
  rw [← Int.toNat_natCast (Bytes.slice _ _ _).length, hlen, Bytes.take_add_eq,
    Header.take_form_of_ofBytes hheader]

/-- In a layout that passes the checks the data ends inside the file, and so does the payload
signature. Without a payload signature the data ends where the file does. -/
theorem exists_dataEnd {o : ℕ} (hm : l.manifest.Valid) (ho : l.dataOffset = .ok (o : Int))
    (hvalidate : l.validate = .ok ()) :
    ∃ d : ℕ, o + d ≤ l.fileSize ∧ (∀ n, l.manifest.signaturesOffset = some n → n = d) ∧
      (l.manifest.signaturesOffset = none → o + d = l.fileSize) ∧
      ∀ start n, l.manifest.signaturesOffset = some start → l.manifest.signaturesSize = some n →
        o + d + n ≤ l.fileSize := by
  have hlength := dataLength_of_dataOffset ho
  obtain ⟨r, hr, hregion⟩ := exists_payloadSignatureRegion ho
  obtain ⟨hole, hdle, hrle⟩ := (validate_eq_ok_iff ho hlength hr).1 hvalidate
  have hpos : 0 ≤ l.manifest.signaturesOffset.getD (l.fileSize - o) := by
    cases hn : l.manifest.signaturesOffset with
    | none => exact Int.sub_nonneg_of_le hole
    | some n => exact (hm.signaturesOffset n hn).1
  obtain ⟨d, hd⟩ := Int.eq_ofNat_of_zero_le hpos
  rw [hd] at hdle
  have hoffset : ∀ n, l.manifest.signaturesOffset = some n → n = d := by
    intro n hn
    rwa [hn] at hd
  refine ⟨d, hdle, hoffset, ?_, ?_⟩
  · intro hn
    rw [hn, Option.getD_none] at hd
    omega
  · intro start n hstart hn
    by_cases h0 : n = 0
    · omega
    · have hstop := hrle _ ((hregion _).2 ⟨start, n, hstart, hn, h0, rfl⟩)
      have := hoffset start hstart
      simp only [Region.stop] at hstop
      omega

/-- A file that has a layout splits into the parts that it describes. -/
theorem splits_of_ofContent {path : String} (h : ofContent path content = .ok l) :
    ∃ metadata signature data tail, l.Splits content metadata signature data tail := by
  obtain ⟨raw, hvalid, hsize, hmanifest, hmetadata, hfile, hvalidate⟩ := metadata_of_ofContent h
  obtain ⟨s, hs⟩ := Int.eq_ofNat_of_zero_le hvalid.signatureSize_nonneg
  have hoffset : l.dataOffset = .ok ((l.header.form.length + raw.length + s : ℕ) : Int) := by
    rw [dataOffset, metadataSize, Header.size_eq hvalid, hsize, hs]
    rfl
  generalize l.header.form.length + raw.length = a at *
  obtain ⟨d, hdle, hoff, hend, hstop⟩ :=
    exists_dataEnd (Manifest.valid_of_ofBytes hmanifest) hoffset hvalidate
  rw [hfile] at hdle hend hstop
  refine ⟨content.take a, Bytes.slice a s content, Bytes.slice (a + s) d content,
    content.drop (a + s + d), ?_⟩
  have hslen : (Bytes.slice a s content).length = s := Bytes.length_slice_of_le (by omega)
  have hdlen : (Bytes.slice (a + s) d content).length = d := Bytes.length_slice_of_le (by omega)
  constructor
  case content_eq => exact Bytes.eq_parts a s d content
  case fileSize_eq => exact hfile
  case header_valid => exact hvalid
  case metadata_eq => exact ⟨raw, hmetadata, hsize, hmanifest⟩
  case signature_length => rw [hslen, hs]
  case offset_eq => exact fun n hn => by rw [hdlen, hoff n hn]
  case tail_nil =>
    intro hn
    have := hend hn
    exact List.drop_eq_nil_of_le (by omega)
  case size_le =>
    intro start n hstart hn
    have := hstop start n hstart hn
    rw [List.length_drop]
    omega

/-- A file that splits has the layout that describes its parts. -/
theorem Splits.ofContent_eq (h : l.Splits content metadata signature data tail) (path : String) :
    ofContent path content = .ok l := by
  obtain ⟨raw, hmetadata, hsize, hraw⟩ := h.metadata_eq
  have hcontent : content = l.header.form ++ (raw ++ (signature ++ data ++ tail)) := by
    rw [h.content_eq, hmetadata]
    simp only [List.append_assoc]
  have hheader : Header.ofBytes (content.take Header.maxSize) = .ok l.header := by
    rw [hcontent, List.take_append, List.take_of_length_le (Header.length_form_le _)]
    exact Header.ofBytes_form h.header_valid _
  have hslice : Bytes.slice l.header.form.length l.header.manifestSize.toNat content = raw := by
    rw [hsize, Int.toNat_natCast, hcontent]
    exact Bytes.slice_append _ _ _
  have hvalidate : l.validate = .ok () := by
    obtain ⟨r, hr, hregion⟩ := h.payloadSignatureRegion_eq_ok
    have hlen := h.length_eq
    rw [validate_eq_ok_iff h.dataOffset_eq h.dataLength_eq hr, h.fileSize_eq]
    refine ⟨by omega, by omega, fun q hq => ?_⟩
    obtain ⟨hoffset, -, hle, -⟩ := hregion q hq
    rw [Region.stop, hoffset]
    omega
  obtain ⟨header, manifest, fileSize⟩ := l
  obtain rfl := h.fileSize_eq
  rw [ofContent, hheader, ok_bind, Header.size_eq h.header_valid, ok_bind]
  simp only [hslice]
  rw [if_neg (not_not.2 hsize.symm), hraw]
  simp only [mapError_ok, ok_bind, hvalidate]
  rfl

end Layout

/-! ### New files -/

variable {header : Header} {manifest : Manifest} {metadata signature data tail : Bytes}

theorem buildMetadata_eq (hv : header.Valid) (hm : manifest.isWritable = true)
    (hs : header.manifestSize = manifest.toBytes.length) :
    buildMetadata header.major manifest header.metadataSignatureSize =
      .ok (header.form ++ manifest.toBytes) := by
  have hbody : manifest.encode = .ok manifest.toBytes := Manifest.encode_eq_ok_iff.2 ⟨hm, rfl⟩
  simp only [buildMetadata, hbody, ← hs, Header.toBytes_eq hv, ok_bind]
  rfl

theorem isWritable_of_buildMetadata {major n : Int}
    (h : buildMetadata major manifest n = .ok metadata) : manifest.isWritable = true := by
  obtain ⟨body, hbody, -⟩ := bind_eq_ok_iff.1 h
  exact (Manifest.encode_eq_ok_iff.1 hbody).1

/-- Metadata that can be built is a valid header with the written manifest behind it. -/
theorem buildMetadata_eq_ok {major : Int} {n : Nat} (hm : manifest.Valid)
    (h : buildMetadata major manifest n = .ok metadata) :
    ∃ header : Header, header.Valid ∧ header.major = major ∧ header.metadataSignatureSize = n ∧
      header.manifestSize = manifest.toBytes.length ∧ metadata = header.form ++ manifest.toBytes := by
  obtain ⟨body, hbody, hb⟩ := bind_eq_ok_iff.1 h
  obtain ⟨-, rfl⟩ := Manifest.encode_eq_ok_iff.1 hbody
  obtain ⟨b, hb, -⟩ := bind_eq_ok_iff.1 hb
  have hv := Header.valid_of_toBytes (Manifest.length_toBytes_le hm) hb
  refine ⟨_, hv, rfl, rfl, rfl, ?_⟩
  rw [buildMetadata_eq hv hm.isWritable rfl] at h
  exact (Except.ok.inj h).symm

/-- The manifest of a file without a payload signature says nothing about one, or it says how long
data and payload signature are. -/
inductive Manifest.Describes (m : Manifest) (data tail : Bytes) : Prop where
  | unsigned (ho : m.signaturesOffset = none) (hn : m.signaturesSize = none) (htail : tail = [])
  | signed (ho : m.signaturesOffset = some (data.length : Int))
      (hn : m.signaturesSize = some (tail.length : Int))

theorem Manifest.Describes.valid (hd : manifest.Describes data tail)
    (hw : manifest.isWritable = true) (hpos : 0 < manifest.blockSize)
    (hminor : 0 ≤ manifest.minorVersion) : manifest.Valid := by
  refine valid_of_isWritable hw hpos hminor ?_ ?_
  · intro n hn
    cases hd with
    | unsigned ho => cases ho.symm.trans hn
    | signed ho => exact Option.some.inj (ho.symm.trans hn) ▸ Int.natCast_nonneg _
  · intro n hn
    cases hd with
    | unsigned _ hn' => cases hn'.symm.trans hn
    | signed _ hn' => exact Option.some.inj (hn'.symm.trans hn) ▸ Int.natCast_nonneg _

/-- A file that is put together from metadata, signatures and data has the layout it was made for. -/
theorem splits_of_parts (hv : header.Valid) (hm : manifest.Valid)
    (hsize : header.manifestSize = manifest.toBytes.length)
    (hsignature : header.metadataSignatureSize = signature.length)
    (hd : manifest.Describes data tail) :
    Layout.Splits
      ⟨header, manifest, (header.form ++ manifest.toBytes ++ signature ++ data ++ tail).length⟩
      (header.form ++ manifest.toBytes ++ signature ++ data ++ tail)
      (header.form ++ manifest.toBytes) signature data tail := by
  constructor
  case content_eq => rfl
  case fileSize_eq => rfl
  case header_valid => exact hv
  case metadata_eq => exact ⟨_, rfl, hsize, Manifest.ofBytes_toBytes hm⟩
  case signature_length => exact hsignature
  case offset_eq =>
    intro n hn
    cases hd with
    | unsigned ho => cases ho.symm.trans hn
    | signed ho => exact (Option.some.inj (ho.symm.trans hn)).symm
  case tail_nil =>
    intro hn
    cases hd with
    | unsigned _ _ htail => exact htail
    | signed ho => cases ho.symm.trans hn
  case size_le =>
    intro _ n ho hn
    cases hd with
    | unsigned ho' => cases ho'.symm.trans ho
    | signed _ hn' => exact Int.le_of_eq (Option.some.inj (hn'.symm.trans hn)).symm

end UpdateSeal
