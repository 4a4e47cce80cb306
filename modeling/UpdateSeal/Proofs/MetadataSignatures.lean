import UpdateSeal.Proofs.Observations
import UpdateSeal.Proofs.Signings

/-!
# Payloads without a metadata signature

Verification checks the signatures that a payload declares. A payload of the second major version
that declares none over its metadata is verified by its payload signature alone, although embedding
never makes such a payload.
-/

namespace UpdateSeal

open UpdateSeal.Action

namespace Layout

variable {l : Layout} {F md sig data tail : Bytes} {keys : List Rsa.PublicKey}

/-- The payload signature ends the file, and is made over what it covers. -/
def PayloadSignedBy (l : Layout) (keys : List Rsa.PublicKey) (content : Bytes) : Prop :=
  ∃ r b, l.payloadSignatureRegion = .ok (some r) ∧ r.stop = content.length ∧
    l.payloadPreimage content = .ok b ∧ Container.SignedBy keys (sha256 b) (r.bytes content)

/-- There is a metadata signature, and it is made over what it covers. -/
def MetadataSignedBy (l : Layout) (keys : List Rsa.PublicKey) (content : Bytes) : Prop :=
  ∃ r b, l.metadataSignatureRegion = .ok (some r) ∧ 0 < r.length ∧
    l.metadataPreimage content = .ok b ∧ Container.SignedBy keys (sha256 b) (r.bytes content)

theorem Splits.signedBy_iff_payload_and_metadata (hs : l.Splits F md sig data tail) :
    l.SignedBy keys F ↔ l.PayloadSignedBy keys F ∧
      (l.header.metadataSignatureSize = 0 ∨ l.MetadataSignedBy keys F) := by
  have hregion := hs.metadataSignatureRegion_eq
  have hlength := hs.signature_length
  constructor
  · intro hsigned
    obtain ⟨r, b, hr, -, hstop, hb, hpayload⟩ := hsigned.payload
    refine ⟨⟨r, b, hr, hstop, hb, hpayload⟩, ?_⟩
    by_cases hnil : sig = []
    · left
      rw [hlength, hnil]
      rfl
    · right
      rw [if_neg hnil] at hregion
      obtain ⟨b, hb, hmetadata⟩ := hsigned.metadata _ hregion
      have hpos : (0 : Int) < sig.length := by
        have := List.length_pos_iff.2 hnil
        omega
      exact ⟨_, b, hregion, hpos, hb, hmetadata⟩
  · intro hsigned
    obtain ⟨⟨r, b, hr, hstop, hb, hpayload⟩, hmetadata⟩ := hsigned
    obtain ⟨reserved, hreserved, hplace⟩ := hs.payloadSignatureRegion_eq_ok
    have hpos := (hplace r (Except.ok.inj (hreserved.symm.trans hr))).2.1
    refine ⟨⟨r, b, hr, hpos, hstop, hb, hpayload⟩, ?_⟩
    intro q hq
    rcases hmetadata with hzero | ⟨r, b, hr, -, hb, hmetadata⟩
    · have hnil : sig = [] := by
        rw [← List.length_eq_zero_iff]
        omega
      rw [hregion, if_pos hnil] at hq
      cases hq
    · rw [hr] at hq
      cases hq
      exact ⟨b, hb, hmetadata⟩

end Layout

/-- Embedding makes no payload of the second major version without a metadata signature. -/
theorem PayloadFile.metadataSignatureSize_ne_zero {path out : Path} {S M : Option Bytes}
    {h h' : Host} {l' : Layout} (h2 : l'.header.major = 2)
    (hw : runOn (embedSignatures path S M out) h = (.ok l', h')) :
    l'.header.metadataSignatureSize ≠ 0 := by
  obtain ⟨s, rfl⟩ := some_of_embedSignatures hw
  obtain ⟨F, l, md, sig, data, tail, hr, hl, hs⟩ := exists_of_embedSignatures hw
  obtain ⟨metadata, he, -⟩ := exists_embeds hr hs hw
  obtain ⟨reserved, hreserved, -⟩ := hs.payloadSignatureRegion_eq_ok
  obtain ⟨hcheck, -⟩ := (embedSignatures_eq_ok_iff hr hl hs hreserved).1 hw
  obtain ⟨-, hne⟩ := checkMetadataSignature_eq_ok_iff.1 hcheck
  rw [← he.major_eq] at hne
  have hpos := List.length_pos_iff.2 (hne h2)
  rw [he.splits.signature_length]
  omega

namespace Sign

variable {t : Toolkit} {h : Host} {path : Path} {paths : List Path} {keys : List Rsa.PublicKey}
variable {l : Layout} {F : Bytes} {sink : Sink} {app : Application}

/-- A payload of the second major version is verified by its payload signature, and by its metadata
signature if it declares one. Embedding never makes one that declares none. -/
theorem verifyPayload_metadata_signature (sink : Sink) (ha : app.Started) (hr : h.Holds path F)
    (hl : Layout.ofContent path.text F = .ok l) (h2 : l.header.major = 2)
    (hk : List.Forall₂ (app.toolkit.keySizes.PublicAt h) paths keys) :
    ((∃ sink' h', runOn ((verifyPayload app.toolkit path paths).run sink) h =
        (.ok (true, sink'), h')) ↔
      (l.PayloadSignedBy keys F ∧
        (l.header.metadataSignatureSize = 0 ∨ l.MetadataSignedBy keys F)) ∧
      sink.CanRecord ((path :: paths).map Path.spelling) h) ∧
    (l.header.metadataSignatureSize = 0 → ∀ source S M out h₀ h₁,
      runOn (PayloadFile.embedSignatures source S M out) h₀ ≠ (.ok l, h₁)) := by
  obtain ⟨md, sig, data, tail, hs⟩ := Layout.splits_of_ofContent hl
  obtain ⟨b, hverify, hb⟩ := answers_verifyFile ha.chunk_pos ha.room_for_block hr hl hk
  constructor
  · rw [exists_verifyPayload_iff hverify, hb, hs.signedBy_iff_payload_and_metadata]
  · intro hzero source S M out h₀ h₁ hw
    exact PayloadFile.metadataSignatureSize_ne_zero h2 hw hzero

end Sign

namespace Sample

/-- The manifest of a payload without data, with a signature of 149 bytes. -/
def signedManifest : Manifest := { signaturesOffset := some 0, signaturesSize := some 149 }

def bareHeader : Header := ⟨2, signedManifest.toBytes.length, 0⟩

def bareMetadata : Bytes := bareHeader.form ++ signedManifest.toBytes

theorem signedManifest_valid : signedManifest.Valid := by
  have hd : signedManifest.Describes [] (List.replicate 149 0) := .signed rfl rfl
  exact hd.valid (by decide +kernel) (by decide) (by decide)

theorem bareHeader_valid : bareHeader.Valid :=
  .second (Manifest.length_toBytes_le signedManifest_valid) (by decide)

theorem buildMetadata_bare : buildMetadata 2 signedManifest 0 = .ok bareMetadata := by
  have hsize : bareHeader.manifestSize = signedManifest.toBytes.length := rfl
  have hb := buildMetadata_eq bareHeader_valid signedManifest_valid.isWritable hsize
  exact hb

theorem bare_addressable {blob : Bytes} (hlength : blob.length = 149) :
    (bareMetadata ++ [] ++ [] ++ blob).Addressable := by
  have hsize := Manifest.length_toBytes_le signedManifest_valid
  have hform := Header.length_form_le bareHeader
  rw [Bytes.Addressable, bareMetadata]
  simp only [Header.maxManifestSize, Header.maxSize] at hsize hform
  simp only [List.length_append, List.length_nil, hlength]
  generalize bareHeader.form.length = a at hform ⊢
  generalize signedManifest.toBytes.length = b at hsize ⊢
  omega

/-- The key signs a payload of the second major version without a metadata signature. -/
theorem exists_bare_addressable :
    ∃ (l : Layout) (F : Bytes), l.header = bareHeader ∧ Layout.ofContent "payload" F = .ok l ∧
      l.SignedBy [privateKey.publicHalf] F ∧ F.Addressable := by
  obtain ⟨entries, hsigned, hlength⟩ := Sign.signed_of_predicted app_started.room_for_block
    (answers_blobLength (privateAt [])) (length_sha256 (bareMetadata ++ []))
  have hsize : ((Container.encode entries).length : Int) = 149 := congrArg Int.ofNat hlength
  have hd : signedManifest.Describes [] (Container.encode entries) :=
    .signed rfl (congrArg some hsize.symm)
  have hb : buildMetadata 2 signedManifest ([] : Bytes).length = .ok bareMetadata :=
    buildMetadata_bare
  obtain ⟨header, hmajor, hheader, hs⟩ :=
    PayloadFile.splits_of_buildMetadata signedManifest_valid hb hd
  have hform : Header.ofBytes bareMetadata = .ok bareHeader :=
    Header.ofBytes_form bareHeader_valid _
  obtain rfl : header = bareHeader := Except.ok.inj (hheader.symm.trans hform)
  have hmanifest : PayloadFile.signedManifest signedManifest ([] : Bytes).length
      (Container.encode entries).length = signedManifest := by
    rw [hsize]
    rfl
  have he : PayloadFile.Embeds ⟨bareHeader, signedManifest, 0⟩ ⟨bareHeader, signedManifest,
      (bareMetadata ++ [] ++ [] ++ Container.encode entries).length⟩ bareMetadata [] []
      (Container.encode entries) := by
    constructor
    case metadata_eq =>
      simp only [hmanifest]
      exact hb
    case major_eq => rfl
    case manifest_eq => exact hmanifest.symm
    case splits => exact hs
  have hne : Container.encode entries ≠ [] := by
    rw [← List.length_pos_iff, hlength]
    decide
  have hpayload : Container.SignedBy [privateKey.publicHalf] (sha256 (bareMetadata ++ []))
      (Container.encode entries) :=
    (hsigned.fitBy List.mem_cons_self (privateAt []) inverts).signedBy canTransform
      List.mem_cons_self
  exact ⟨_, _, rfl, hs.ofContent_eq _, he.signedWith hne hpayload fun hm => absurd rfl hm,
    bare_addressable hlength⟩

theorem exists_bare :
    ∃ (l : Layout) (F : Bytes), l.header = bareHeader ∧ Layout.ofContent "payload" F = .ok l ∧
      l.SignedBy [privateKey.publicHalf] F := by
  obtain ⟨l, F, hheader, hl, hsigned, -⟩ := exists_bare_addressable
  exact ⟨l, F, hheader, hl, hsigned⟩

/-- It is verified, though embedding never makes it. -/
theorem bare_verifyPayload :
    ∃ (l : Layout) (F : Bytes), l.header.major = 2 ∧ l.header.metadataSignatureSize = 0 ∧
      Layout.ofContent "payload" F = .ok l ∧
      (∃ sink' h', runOn ((Sign.verifyPayload app.toolkit ⟨false, ["payload"]⟩
        [⟨false, ["public"]⟩]).run .silent) (host F) = (.ok (true, sink'), h')) ∧
      ∀ source S M out h₀ h₁,
        runOn (PayloadFile.embedSignatures source S M out) h₀ ≠ (.ok l, h₁) := by
  obtain ⟨l, F, hheader, hl, hsigned⟩ := exists_bare
  have h2 : l.header.major = 2 := by rw [hheader]; rfl
  have hzero : l.header.metadataSignatureSize = 0 := by rw [hheader]; rfl
  have hholds : (host F).Holds ⟨false, ["payload"]⟩ F := rfl
  obtain ⟨hverify, hnever⟩ := Sign.verifyPayload_metadata_signature .silent app_started hholds
    hl h2 (.cons (publicAt F) .nil)
  obtain ⟨md, sig, data, tail, hs⟩ := Layout.splits_of_ofContent hl
  have hparts := hs.signedBy_iff_payload_and_metadata.1 hsigned
  exact ⟨l, F, h2, hzero, hl, hverify.2 ⟨hparts, Sink.canRecord_silent _ _⟩, hnever hzero⟩

end Sample

end UpdateSeal
