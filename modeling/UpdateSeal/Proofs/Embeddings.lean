import UpdateSeal.Payload.File
import UpdateSeal.Proofs.Preimages
import UpdateSeal.Proofs.Storage

/-!
# Embedding signatures in a file

A payload file is read part by part, and a file that signatures are embedded in splits into the
metadata that was built for them, the signatures themselves, and the data of the payload.
-/

namespace UpdateSeal

theorem Bytes.Addressable.natural {b : Bytes} (hb : b.Addressable) : Manifest.Natural b.length :=
  Manifest.natural_of_nat (Nat.lt_of_lt_of_le hb (by decide +kernel))

open UpdateSeal.Action

variable {h h₁ h' : Host} {path out p : Path} {F b md sig data tail metadata : Bytes}
variable {l l' : Layout} {manifest : Manifest} {major : Int}

/-- What a layout hands on to the one that its payload is signed with. -/
structure Layout.Alike (l l' : Layout) : Prop where
  major_eq : l'.header.major = l.header.major
  blockSize_eq : l'.manifest.blockSize = l.manifest.blockSize
  minorVersion_eq : l'.manifest.minorVersion = l.manifest.minorVersion

namespace Layout.Splits

theorem inside_data (hs : l.Splits F md sig data tail) :
    (⟨md.length + sig.length, data.length⟩ : Region).Inside F.length := by
  have hlen := hs.length_eq
  refine ⟨?_, ?_, ?_⟩
  · simp only
    omega
  · simp only
    omega
  · simp only [Region.stop]
    omega

theorem bytes_data (hs : l.Splits F md sig data tail) :
    (⟨md.length + sig.length, data.length⟩ : Region).bytes F = data := by
  have hoffset : ((md.length : Int) + sig.length).toNat = md.length + sig.length := by omega
  rw [Region.bytes, hoffset, Int.toNat_natCast]
  exact hs.slice_data

theorem inside_metadata (hs : l.Splits F md sig data tail) :
    (⟨0, md.length⟩ : Region).Inside F.length := by
  have hlen := hs.length_eq
  refine ⟨?_, ?_, ?_⟩
  · simp only
    omega
  · simp only
    omega
  · simp only [Region.stop]
    omega

theorem bytes_metadata (hs : l.Splits F md sig data tail) :
    (⟨0, md.length⟩ : Region).bytes F = md := by
  rw [hs.content_eq]
  simp only [Region.bytes, Bytes.slice, Int.toNat_zero, Int.toNat_natCast, List.drop_zero,
    List.append_assoc, List.take_left]

theorem inside_metadataSignature (hs : l.Splits F md sig data tail) {r : Region}
    (hr : l.metadataSignatureRegion = .ok (some r)) : r.Inside F.length := by
  have hlen := hs.length_eq
  rw [hs.metadataSignatureRegion_eq] at hr
  split at hr
  · cases hr
  · cases hr
    refine ⟨?_, ?_, ?_⟩
    · simp only
      omega
    · simp only
      omega
    · simp only [Region.stop]
      omega

theorem inside_payloadSignature (hs : l.Splits F md sig data tail) {r : Region}
    (hr : l.payloadSignatureRegion = .ok (some r)) : r.Inside F.length := by
  have hlen := hs.length_eq
  obtain ⟨region, hregion, hplace⟩ := hs.payloadSignatureRegion_eq_ok
  obtain rfl : region = some r := Except.ok.inj (hregion.symm.trans hr)
  obtain ⟨hoffset, hpos, hle, -⟩ := hplace r rfl
  refine ⟨by omega, by omega, ?_⟩
  simp only [Region.stop]
  omega

end Layout.Splits

namespace PayloadFile

theorem runOn_readContent (hr : h.Holds p F) : runOn (readContent p) h = (.ok F, h) := by
  rw [readContent, runOn_tryCatch, runOn_read hr]

theorem answers_readContent (hr : h.Holds p F) : Answers (readContent p) h (.ok F) :=
  (answers_read hr).tryCatch_ok

theorem answers_readLayout (hr : h.Holds p F) :
    Answers (readLayout p) h ((Layout.ofContent p.text F).mapError .payload) :=
  (answers_readContent hr).bind (answers_liftExcept _ _ h)

theorem regionOf_eq {r : Region} (hin : r.Inside F.length) : regionOf p F r = .ok (r.bytes F) := by
  have hlen := Region.length_bytes hin
  obtain ⟨ho, hl, -⟩ := hin
  have hread : readWindow F r = .ok (r.bytes F) := by
    rw [readWindow, if_neg (by omega), readBytes, if_pos hl]
    rfl
  simp only [regionOf, hread]
  rw [if_pos hlen]

theorem answers_readRegion {r : Region} (hr : h.Holds p F) (hin : r.Inside F.length) :
    Answers (readRegion p r) h (.ok (r.bytes F)) :=
  (answers_readContent hr).bind (answers_liftExcept_ok (regionOf_eq hin) h)

theorem runOn_readLayout_eq_ok (hr : h.Holds p F) :
    runOn (readLayout p) h = (.ok l, h') ↔ Layout.ofContent p.text F = .ok l ∧ h' = h := by
  rw [readLayout, runOn_bind_ok (runOn_readContent hr), runOn_liftExcept_eq_ok]

theorem runOn_readRegion_eq_ok {r : Region} (hr : h.Holds p F) (hin : r.Inside F.length) :
    runOn (readRegion p r) h = (.ok b, h') ↔ r.bytes F = b ∧ h' = h := by
  rw [readRegion, runOn_bind_ok (runOn_readContent hr), runOn_liftExcept_eq_ok, regionOf_eq hin,
    Except.ok.injEq]

/-! ### Writing -/

theorem splits_of_buildMetadata (hm : manifest.Valid)
    (hb : buildMetadata major manifest sig.length = .ok metadata)
    (hd : manifest.Describes data tail) :
    ∃ header : Header, header.major = major ∧ Header.ofBytes metadata = .ok header ∧
      Layout.Splits ⟨header, manifest, (metadata ++ sig ++ data ++ tail).length⟩
        (metadata ++ sig ++ data ++ tail) metadata sig data tail := by
  obtain ⟨header, hv, hmajor, hsig, hsize, rfl⟩ := buildMetadata_eq_ok hm hb
  exact ⟨header, hmajor, Header.ofBytes_form hv _, splits_of_parts hv hm hsize hsig hd⟩

theorem returns_writeParts {header : Header}
    (hb : buildMetadata major manifest sig.length = .ok metadata)
    (hheader : Header.ofBytes metadata = .ok header)
    (hw : runOn (writeAtomically out (metadata ++ sig ++ data ++ tail)) h = (.ok (), h₁)) :
    Returns (writeParts out major manifest sig data tail) h
      ⟨header, manifest, (metadata ++ sig ++ data ++ tail).length⟩ h₁ := by
  refine (answers_liftExcept_ok hb h).returns.bind ((returns_writeAtomically hw).bind ?_)
  exact Answers.returns ((answers_record _ _ h₁).bind
    ((answers_liftExcept_ok hheader h₁).bind (answers_pure _ h₁)))

theorem writeParts_returns (hm : manifest.Valid)
    (hb : buildMetadata major manifest sig.length = .ok metadata)
    (hw : runOn (writeAtomically out (metadata ++ sig ++ data ++ tail)) h = (.ok (), h₁)) :
    ∃ l, Returns (writeParts out major manifest sig data tail) h l h₁ := by
  obtain ⟨header, hv, -, -, -, hmetadata⟩ := buildMetadata_eq_ok hm hb
  have hheader : Header.ofBytes metadata = .ok header := by
    rw [hmetadata]
    exact Header.ofBytes_form hv _
  exact ⟨_, returns_writeParts hb hheader hw⟩

theorem writeParts_eq_ok
    (hw : runOn (writeParts out major manifest sig data tail) h = (.ok l, h')) :
    ∃ metadata header h₁ log, buildMetadata major manifest sig.length = .ok metadata ∧
      Header.ofBytes metadata = .ok header ∧
      l = ⟨header, manifest, (metadata ++ sig ++ data ++ tail).length⟩ ∧
      runOn (writeAtomically out (metadata ++ sig ++ data ++ tail)) h = (.ok (), h₁) ∧
      h' = { h₁ with log } := by
  obtain ⟨metadata, hb, hw⟩ := runOn_liftExcept_bind_eq_ok.1 hw
  obtain ⟨⟨⟩, h₁, hwrite, hw⟩ := runOn_bind_eq_ok.1 hw
  rw [runOn_bind_ok (runOn_record _ _ _)] at hw
  obtain ⟨header, hheader, hw⟩ := runOn_liftExcept_bind_eq_ok.1 hw
  obtain ⟨hl, hh⟩ := Prod.mk.inj hw
  exact ⟨metadata, header, h₁, _, hb, hheader, (Except.ok.inj hl).symm, hwrite, hh.symm⟩

theorem returns_of_writeParts
    (hw : runOn (writeParts out major manifest sig data tail) h = (.ok l, h')) :
    Returns (writeParts out major manifest sig data tail) h l h' := by
  obtain ⟨metadata, header, h₁, log, hb, hheader, rfl, hwrite, rfl⟩ := writeParts_eq_ok hw
  have hreturns := returns_writeParts hb hheader hwrite
  exact hreturns

/-- A file that is written from its parts splits into them, and the layout that is returned is the
one that it has. -/
theorem splits_of_writeParts (hpos : 0 < manifest.blockSize) (hminor : 0 ≤ manifest.minorVersion)
    (hd : manifest.Describes data tail)
    (hw : runOn (writeParts out major manifest sig data tail) h = (.ok l, h')) :
    ∃ metadata, buildMetadata major manifest sig.length = .ok metadata ∧ l.header.major = major ∧
      l.manifest = manifest ∧ l.Splits (metadata ++ sig ++ data ++ tail) metadata sig data tail ∧
      h'.Holds out (metadata ++ sig ++ data ++ tail) := by
  obtain ⟨metadata, header, h₁, log, hb, hheader, rfl, hwrite, rfl⟩ := writeParts_eq_ok hw
  have hm := hd.valid (isWritable_of_buildMetadata hb) hpos hminor
  obtain ⟨header', hmajor, hheader', hs⟩ := splits_of_buildMetadata hm hb hd
  obtain rfl : header' = header := Except.ok.inj (hheader'.symm.trans hheader)
  have hholds : h₁.Holds out (metadata ++ sig ++ data ++ tail) := holds_of_writeAtomically hwrite
  exact ⟨metadata, hb, hmajor, rfl, hs, hholds⟩

/-! ### Embedding -/

theorem length_of_checkReserved {r : Region} {n : Nat} {fault : Nat → Int → PayloadFault}
    (h : checkReserved (some r) n fault = .ok ()) : r.length = n := by
  rw [checkReserved] at h
  split at h
  · assumption
  · cases h

theorem checkMetadataSignature_eq_ok_iff {m : Int} :
    checkMetadataSignature m sig = .ok () ↔ (m = 1 → sig = []) ∧ (m = 2 → sig ≠ []) := by
  rw [checkMetadataSignature]
  split
  · simp_all
  · split
    · simp_all
    · simp_all

/-- The manifest of a payload that holds a signature of `length` bytes behind `offset` of data. -/
def signedManifest (manifest : Manifest) (offset length : Int) : Manifest :=
  { manifest with signaturesOffset := some offset, signaturesSize := some length }

theorem signedManifest_valid (hs : l.Splits F md sig data tail) (hF : F.Addressable) {n : Nat}
    (hn : Manifest.Natural n) : (signedManifest l.manifest data.length n).Valid := by
  have hm := hs.manifest_valid
  have hlen := hs.length_eq
  have hdata : data.Addressable := by
    simp only [Bytes.Addressable] at hF ⊢
    omega
  constructor
  case pos => exact hm.pos
  case blockSize => exact hm.blockSize
  case minorVersion => exact hm.minorVersion
  case signaturesOffset =>
    intro k hk
    cases hk
    exact hdata.natural
  case signaturesSize =>
    intro k hk
    cases hk
    exact hn

/-- Signatures are embedded where they have the lengths that were set aside for them, and the file
they are embedded in can be written. -/
theorem embedSignatures_eq_ok_iff (hr : h.Holds path F)
    (hl : Layout.ofContent path.text F = .ok l) (hs : l.Splits F md sig data tail)
    {reserved : Option Region} (hreserved : l.payloadSignatureRegion = .ok reserved)
    {s : Bytes} {M : Option Bytes} :
    runOn (embedSignatures path (some s) M out) h = (.ok l', h') ↔
      checkMetadataSignature l.header.major (M.getD []) = .ok () ∧
      checkPayloadSignature reserved (some s) = .ok () ∧
      checkReserved (if sig = [] then none else some ⟨md.length, sig.length⟩) (M.getD []).length
        .metadataSignatureSize = .ok () ∧
      runOn (writeParts out l.header.major (signedManifest l.manifest data.length s.length)
        (M.getD []) data s) h = (.ok l', h') := by
  have hlayout : runOn (readLayout path) h = (.ok l, h) := (runOn_readLayout_eq_ok hr).2 ⟨hl, rfl⟩
  have hregion : runOn (readRegion path ⟨md.length + sig.length, data.length⟩) h = (.ok data, h) :=
    (runOn_readRegion_eq_ok hr hs.inside_data).2 ⟨hs.bytes_data, rfl⟩
  rw [embedSignatures, runOn_bind_ok hlayout]
  simp only [runOn_liftExcept_bind_eq_ok, hreserved, hs.metadataSignatureRegion_eq,
    hs.dataOffset_eq, hs.dataLength_eq, Except.ok.injEq, exists_eq_left', runOn_bind_ok hregion]
  constructor
  · intro hw
    obtain ⟨⟨⟩, hmetadata, ⟨⟩, hpayload, ⟨⟩, hlength, hw⟩ := hw
    exact ⟨hmetadata, hpayload, hlength, hw⟩
  · intro hw
    obtain ⟨hmetadata, hpayload, hlength, hw⟩ := hw
    exact ⟨(), hmetadata, (), hpayload, (), hlength, hw⟩

/-- `l'` lays out a file with the data that `l` lays out, and with the given signatures. -/
structure Embeds (l l' : Layout) (metadata metadataSignature data signature : Bytes) : Prop where
  metadata_eq : buildMetadata l.header.major
    (signedManifest l.manifest data.length signature.length) metadataSignature.length = .ok metadata
  major_eq : l'.header.major = l.header.major
  manifest_eq : l'.manifest = signedManifest l.manifest data.length signature.length
  splits : l'.Splits (metadata ++ metadataSignature ++ data ++ signature) metadata metadataSignature
    data signature

theorem Embeds.alike {metadataSignature signature : Bytes}
    (he : Embeds l l' metadata metadataSignature data signature) : l.Alike l' := by
  constructor
  case major_eq => exact he.major_eq
  case blockSize_eq =>
    rw [he.manifest_eq]
    rfl
  case minorVersion_eq =>
    rw [he.manifest_eq]
    rfl

theorem embeds_of_embedSignatures (hr : h.Holds path F)
    (hl : Layout.ofContent path.text F = .ok l) (hs : l.Splits F md sig data tail)
    (hF : F.Addressable) {s : Bytes} (hn : s.Addressable) {M : Option Bytes}
    (hw : runOn (embedSignatures path (some s) M out) h = (.ok l', h')) :
    ∃ metadata l₁, Embeds l l₁ metadata (M.getD []) data s ∧
      h'.Holds out (metadata ++ M.getD [] ++ data ++ s) := by
  obtain ⟨reserved, hreserved, -⟩ := hs.payloadSignatureRegion_eq_ok
  obtain ⟨-, -, -, hw⟩ := (embedSignatures_eq_ok_iff hr hl hs hreserved).1 hw
  obtain ⟨metadata, _, h₁, log, hb, -, -, hwrite, rfl⟩ := writeParts_eq_ok hw
  obtain ⟨header, hmajor, -, hs₁⟩ :=
    splits_of_buildMetadata (signedManifest_valid hs hF hn.natural) hb (.signed rfl rfl)
  have hholds : h₁.Holds out (metadata ++ M.getD [] ++ data ++ s) := holds_of_writeAtomically hwrite
  exact ⟨metadata, _, ⟨hb, hmajor, rfl, hs₁⟩, hholds⟩

end PayloadFile

end UpdateSeal
