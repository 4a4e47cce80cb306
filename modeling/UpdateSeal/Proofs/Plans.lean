import UpdateSeal.Proofs.Containers
import UpdateSeal.Proofs.Embeddings
import UpdateSeal.Signing.Plan

/-!
# The hashes that are signed

A payload is hashed as it will be once it is signed. What is hashed depends on its data and on two
numbers of its manifest, but not on the signatures that it has or has room for; and a file that
holds containers of the planned size is hashed to the same, by the regions that it declares.
-/

namespace UpdateSeal

open UpdateSeal.Action

/-- The digests of what payload and metadata signature cover. -/
def HashSet.ofPreimages (payload metadata : Bytes) : HashSet :=
  ⟨sha256 payload, sha256 metadata, length_sha256 payload, length_sha256 metadata⟩

theorem HashSet.ofDigests_sha256 (payload metadata : Bytes) :
    ofDigests (sha256 payload) (sha256 metadata) = .ok (ofPreimages payload metadata) := by
  simp only [ofDigests, length_sha256, dite_true]
  rfl

/-- The hashes of data that is laid out by `l`, as it will be once it is signed. -/
def Layout.signingHashes (l : Layout) (data : Bytes) (sizes : List Int) :
    Except Failure HashSet := do
  let length ← (Plan.blobLengthOfSizes sizes).mapError .value
  let metadata ← (Plan.signedMetadata l length).mapError .payload
  return .ofPreimages (metadata ++ data) metadata

namespace Plan

variable {t : Toolkit} {h : Host} {path : Path} {F metadata md sig data tail : Bytes}
variable {l l' : Layout} {sizes : List Int} {regions : List Region}

theorem answers_digestFile {chunk : Int} (hchunk : 0 < chunk) (hr : h.Holds path F)
    (hin : ∀ r ∈ regions, r.Inside F.length) (lead : Bytes) :
    Answers (digestFile path regions lead chunk) h
      (.ok (sha256 (lead ++ regions.flatMap (·.bytes F)))) := by
  have hdigest := digestRegions_eq hchunk hin lead
  exact (answers_read hr).tryCatch_ok.bind (answers_liftExcept_ok hdigest h)

theorem answers_hashRegions (hchunk : 0 < t.chunk) (hr : h.Holds path F)
    (hs : l.Splits F md sig data tail) (metadata : Bytes) :
    Answers (hashRegions t path l metadata) h (.ok (.ofPreimages (metadata ++ data) metadata)) := by
  have hdigest : Answers (digestFile path [⟨md.length + sig.length, data.length⟩] metadata t.chunk) h
      (.ok (sha256 (metadata ++ data))) := by
    have hin : ∀ r ∈ [(⟨md.length + sig.length, data.length⟩ : Region)], r.Inside F.length := by
      intro r hmem
      obtain rfl := List.mem_singleton.1 hmem
      exact hs.inside_data
    have hregion := answers_digestFile hchunk hr hin metadata
    rwa [List.flatMap_singleton, hs.bytes_data] at hregion
  have hset := HashSet.ofDigests_sha256 (metadata ++ data) metadata
  refine (answers_liftExcept_ok hs.dataOffset_eq h).bind ?_
  refine (answers_liftExcept_ok hs.dataLength_eq h).bind ?_
  exact hdigest.bind (answers_liftExcept_ok hset h)

theorem answers_hashSigned (hchunk : 0 < t.chunk) (hr : h.Holds path F)
    (hs : l.Splits F md sig data tail) :
    Answers (hashSigned t path) h (.ok (.ofPreimages (md ++ data) md)) := by
  have hlayout : Answers (PayloadFile.readLayout path) h (.ok l) := by
    have hread := PayloadFile.answers_readLayout hr
    rwa [hs.ofContent_eq] at hread
  have hregion := PayloadFile.answers_readRegion hr hs.inside_metadata
  rw [hs.bytes_metadata] at hregion
  refine hlayout.bind ((answers_liftExcept_ok hs.metadataSize_eq h).bind ?_)
  exact hregion.bind (answers_hashRegions hchunk hr hs md)

theorem answers_hashForSigning (hchunk : 0 < t.chunk) (hr : h.Holds path F)
    (hs : l.Splits F md sig data tail) :
    Answers (hashForSigning t path sizes) h (l.signingHashes data sizes) := by
  have hlayout : Answers (PayloadFile.readLayout path) h (.ok l) := by
    have hread := PayloadFile.answers_readLayout hr
    rwa [hs.ofContent_eq] at hread
  refine (answers_liftExcept _ _ h).bind_of_ok fun length hlength => ?_
  refine hlayout.bind ((answers_liftExcept _ _ h).bind_of_ok fun metadata hmetadata => ?_)
  exact answers_hashRegions hchunk hr hs metadata

end Plan

namespace Layout

variable {l l' : Layout} {F G : Bytes}

/-- What is signed determines a file outside its signatures, and only that; what a metadata
signature covers is what a payload signature covers only where there is no data; and both are what
a signed file is hashed by. -/
theorem payloadPreimage_eq_iff {pathF pathG : String} (hF : ofContent pathF F = .ok l)
    (hG : ofContent pathG G = .ok l') (he : l.EndsSigned) (he' : l'.EndsSigned) :
    ((∃ b, l.payloadPreimage F = .ok b ∧ l'.payloadPreimage G = .ok b) ↔
      F.length = G.length ∧ l = l' ∧ ∀ i, ¬ l.InSignature i → F[i]? = G[i]?) ∧
    ((∃ b, l.metadataPreimage F = .ok b ∧ l'.payloadPreimage G = .ok b) →
      l'.dataLength = .ok 0) ∧
    ∀ (t : Toolkit) (h : Host) (path : Path), 0 < t.chunk → h.Holds path F →
      ∃ b b', l.payloadPreimage F = .ok b ∧ l.metadataPreimage F = .ok b' ∧
        Answers (Plan.hashSigned t path) h (.ok (.ofPreimages b b')) := by
  obtain ⟨md, sig, data, tail, hF⟩ := splits_of_ofContent hF
  obtain ⟨md', sig', data', tail', hG⟩ := splits_of_ofContent hG
  rw [hF.payloadPreimage_eq, hG.payloadPreimage_eq, hF.metadataPreimage_eq]
  refine ⟨⟨?_, ?_⟩, ?_, fun t h path hchunk hr => ?_⟩
  · rintro ⟨b, hb, hb'⟩
    have heq := (Except.ok.inj hb).trans (Except.ok.inj hb').symm
    exact hF.eq_of_preimage_eq hG he he' heq
  · rintro ⟨-, rfl, hbytes⟩
    obtain ⟨rfl, rfl⟩ := hF.metadata_data_eq he hG hbytes
    exact ⟨_, rfl, rfl⟩
  · rintro ⟨b, hb, hb'⟩
    have heq : md ++ [] = md' ++ data' := by
      rw [List.append_nil]
      exact (Except.ok.inj hb).trans (Except.ok.inj hb').symm
    obtain ⟨-, -, -, hdata⟩ := hF.metadata_inj hG heq
    rw [hG.dataLength_eq, ← hdata]
    rfl
  · exact ⟨_, _, rfl, rfl, Plan.answers_hashSigned hchunk hr hF⟩

theorem smallPayload_payloadPreimage :
    ∃ b, smallLayout.payloadPreimage (smallPayload 1) = .ok b ∧
      smallLayout.payloadPreimage (smallPayload 2) = .ok b := by
  have h1 := smallPayload_splits 1
  have h2 := smallPayload_splits 2
  have hlen := h1.length_eq
  have hlen' := h2.length_eq
  simp only [List.length_cons, List.length_nil, List.length_replicate] at hlen hlen'
  generalize smallMetadata.length = n at hlen hlen'
  refine (payloadPreimage_eq_iff (h1.ofContent_eq "first") (h2.ofContent_eq "second")
    smallLayout_endsSigned smallLayout_endsSigned).1.2 ⟨by omega, rfl, ?_⟩
  intro i hi
  rw [h1.inSignature_iff smallLayout_endsSigned] at hi
  simp only [List.length_cons, List.length_nil] at hi
  by_cases hdata : i < (smallMetadata ++ [] ++ [7]).length
  · rw [smallPayload, smallPayload, List.getElem?_append_left hdata, List.getElem?_append_left hdata]
  · simp only [List.length_append, List.length_cons, List.length_nil] at hdata
    rw [List.getElem?_eq_none (by omega), List.getElem?_eq_none (by omega)]

end Layout

/-! ### Signed files -/

namespace Plan

open PayloadFile (Embeds signedManifest)

variable {t : Toolkit} {h : Host} {path : Path} {F metadata md sig data tail : Bytes}
variable {l l' : Layout} {sizes : List Int} {regions : List Region}

theorem signedMetadata_eq (hs : l.Splits F md sig data tail) (n : Nat) :
    signedMetadata l n = buildMetadata l.header.major (signedManifest l.manifest data.length n)
      (if l.header.major = 2 then n else 0) := by
  rw [signedMetadata, hs.dataLength_eq, ok_bind]
  rfl

/-- The hashes to be signed depend on what is laid out alike and on the data. -/
theorem signingHashes_congr (halike : l.Alike l') (hs : l.Splits F md sig data tail)
    {F' md' sig' tail' : Bytes} (hs' : l'.Splits F' md' sig' data tail') (sizes : List Int) :
    l'.signingHashes data sizes = l.signingHashes data sizes := by
  have hmetadata : ∀ n, signedMetadata l' n = signedMetadata l n := by
    intro n
    rw [signedMetadata_eq hs', signedMetadata_eq hs, halike.major_eq, signedManifest,
      halike.blockSize_eq, halike.minorVersion_eq]
    rfl
  simp only [Layout.signingHashes, hmetadata]

/-- The hashes to be signed do not depend on signatures that are embedded. -/
theorem signingHashes_embeds (hs : l.Splits F md sig data tail) {m s : Bytes}
    (he : Embeds l l' metadata m data s) (sizes : List Int) :
    l'.signingHashes data sizes = l.signingHashes data sizes :=
  signingHashes_congr he.alike hs he.splits sizes

theorem signingHashes_eq_ok {hashes : HashSet} (h : l.signingHashes data sizes = .ok hashes) :
    ∃ n metadata, blobLengthOfSizes sizes = .ok n ∧ signedMetadata l n = .ok metadata ∧
      hashes = .ofPreimages (metadata ++ data) metadata := by
  obtain ⟨n, hn, h⟩ := bind_eq_ok_iff.1 h
  obtain ⟨metadata, hmetadata, h⟩ := bind_eq_ok_iff.1 h
  exact ⟨n, metadata, mapError_eq_ok_iff.1 hn, mapError_eq_ok_iff.1 hmetadata,
    (pure_eq_ok_iff.1 h).symm⟩

theorem length_metadataSignature (hs : l.Splits F md sig data tail) {m : Bytes} {n : Nat}
    (hm : PayloadFile.checkMetadataSignature l.header.major m = .ok ())
    (hn : l.header.major = 2 → m.length = n) :
    (m.length : Int) = if l.header.major = 2 then (n : Int) else 0 := by
  split
  · next h2 => rw [hn h2]
  · next h2 =>
    have h1 : l.header.major = 1 := hs.header_valid.major_eq.resolve_right h2
    have hnil : m = [] := by
      by_contra hne
      rw [PayloadFile.checkMetadataSignature, if_pos ⟨h1, hne⟩] at hm
      cases hm
    rw [hnil]
    rfl

/-- Signatures of the planned size leave a file whose regions are hashed to what was signed. -/
theorem hashSigned_embeds (hchunk : 0 < t.chunk) (hs : l.Splits F md sig data tail)
    {m s : Bytes} (he : Embeds l l' metadata m data s)
    (hr : h.Holds path (metadata ++ m ++ data ++ s)) (hn : blobLengthOfSizes sizes = .ok s.length)
    (hm : (m.length : Int) = if l.header.major = 2 then (s.length : Int) else 0)
    {hashes : HashSet} (hh : l.signingHashes data sizes = .ok hashes) :
    Answers (hashSigned t path) h (.ok hashes) := by
  obtain ⟨n, metadata', hn', hmetadata, rfl⟩ := signingHashes_eq_ok hh
  obtain rfl : s.length = n := Except.ok.inj (hn.symm.trans hn')
  rw [signedMetadata_eq hs, ← hm, he.metadata_eq] at hmetadata
  obtain rfl := Except.ok.inj hmetadata
  exact answers_hashSigned hchunk hr he.splits

/-- What is to be signed does not change when signatures are embedded; and once signatures of the
planned size are, it is what the file is hashed to by the regions that it declares. -/
theorem hashForSigning_embedSignatures {h₁ h₂ : Host} {out : Path} {P S : Bytes} {M : Option Bytes}
    {hashes : HashSet} (hchunk : 0 < t.chunk) (hP : h.Holds path P) (hsize : P.Addressable)
    (hl : Layout.ofContent path.text P = .ok l) (hS : S.Addressable)
    (hhash : runOn (hashForSigning t path sizes) h = (.ok hashes, h₁))
    (hembed : runOn (PayloadFile.embedSignatures path (some S) M out) h = (.ok l', h₂)) :
    Answers (hashForSigning t out sizes) h₂ (.ok hashes) ∧
      (blobLengthOfSizes sizes = .ok S.length →
        (l.header.major = 2 → blobLengthOfSizes sizes = .ok (M.getD []).length) →
          Answers (hashSigned t out) h₂ (.ok hashes)) := by
  obtain ⟨md, sig, data, tail, hs⟩ := Layout.splits_of_ofContent hl
  have hh : l.signingHashes data sizes = .ok hashes :=
    (answers_hashForSigning hchunk hP hs).eq_of_runOn hhash
  obtain ⟨metadata, l₁, he, hQ⟩ := PayloadFile.embeds_of_embedSignatures hP hl hs hsize hS hembed
  constructor
  · rw [← hh, ← signingHashes_embeds hs he]
    exact answers_hashForSigning hchunk hQ he.splits
  · intro hn hn'
    obtain ⟨reserved, hreserved, -⟩ := hs.payloadSignatureRegion_eq_ok
    obtain ⟨hcheck, -⟩ := (PayloadFile.embedSignatures_eq_ok_iff hP hl hs hreserved).1 hembed
    have hM : l.header.major = 2 → (M.getD []).length = S.length := by
      intro h2
      exact Except.ok.inj ((hn' h2).symm.trans hn)
    exact hashSigned_embeds hchunk hs he hQ hn (length_metadataSignature hs hcheck hM) hh

/-- A host with one payload file. -/
def payloadHost (content : Bytes) : Host :=
  { files := ⟨[(["payload"], .file content FileTree.plainMode)]⟩ }

theorem payloadHost_holds (content : Bytes) :
    (payloadHost content).Holds ⟨false, ["payload"]⟩ content := rfl

theorem payloadHost_writeAtomically (content signed : Bytes) :
    ∃ h', runOn (writeAtomically ⟨false, ["signed"]⟩ signed) (payloadHost content) = (.ok (), h') :=
  ⟨_, rfl⟩

theorem blobLengthOfSizes_one : blobLengthOfSizes [1] = .ok 7 := by
  have hpos : ∀ size ∈ [(1 : Int)], 0 < size := by decide
  rw [blobLengthOfSizes, Container.encodedLength_of_pos hpos]
  simp [Container.entryLength, Container.versionField, Container.dataField, Container.entriesField,
    Signature.currentVersion, Varint.length, Varint.encode_of_lt, Wire.key, mapError_ok]

theorem buildMetadata_small : buildMetadata 1 Layout.smallManifest 0 = .ok Layout.smallMetadata := by
  have hsize : Layout.smallHeader.manifestSize = Layout.smallManifest.toBytes.length := rfl
  have hb := buildMetadata_eq Layout.smallHeader_valid Layout.smallManifest_valid.isWritable hsize
  exact hb

theorem embedSignatures_smallPayload {h h₁ : Host} {path out : Path} {s : Bytes}
    (hs : s.length = 7) (hr : h.Holds path (Layout.smallPayload 0))
    (hwrite : runOn (writeAtomically out (Layout.smallMetadata ++ [] ++ [7] ++ s)) h =
      (.ok (), h₁)) :
    ∃ l' h', runOn (PayloadFile.embedSignatures path (some s) none out) h = (.ok l', h') := by
  have hsplits := Layout.smallPayload_splits 0
  obtain ⟨reserved, hreserved, hregion⟩ := hsplits.payloadSignatureRegion_eq_ok
  have hb : buildMetadata 1 Layout.smallManifest ([] : Bytes).length = .ok Layout.smallMetadata :=
    buildMetadata_small
  obtain ⟨l', hparts⟩ := PayloadFile.writeParts_returns Layout.smallManifest_valid hb hwrite
  obtain ⟨log, hw⟩ := hparts.runOn
  have hlength : PayloadFile.checkPayloadSignature reserved (some s) = .ok () := by
    cases reserved with
    | none => rfl
    | some r =>
      obtain ⟨-, -, -, hsize⟩ := hregion r rfl
      have hlen : r.length = s.length := by
        rw [hs]
        exact (Option.some.inj hsize).symm
      rw [PayloadFile.checkPayloadSignature, PayloadFile.checkReserved, if_pos hlen]
      rfl
  have hmanifest : signedManifest Layout.smallManifest 1 s.length = Layout.smallManifest := by
    rw [hs]
    rfl
  rw [← hmanifest] at hw
  exact ⟨l', _, (PayloadFile.embedSignatures_eq_ok_iff hr (hsplits.ofContent_eq _) hsplits
    hreserved).2 ⟨rfl, hlength, rfl, hw⟩⟩

theorem smallPayload_embedSignatures :
    ∃ l' h', runOn (PayloadFile.embedSignatures ⟨false, ["payload"]⟩ (some (List.replicate 7 1))
      none ⟨false, ["signed"]⟩) (payloadHost (Layout.smallPayload 0)) = (.ok l', h') := by
  obtain ⟨h₁, hwrite⟩ := payloadHost_writeAtomically (Layout.smallPayload 0)
    (Layout.smallMetadata ++ [] ++ [7] ++ List.replicate 7 1)
  exact embedSignatures_smallPayload (List.length_replicate ..) (payloadHost_holds _) hwrite

theorem smallPayload_addressable (c : UInt8) : (Layout.smallPayload c).Addressable := by
  have hlen := (Layout.smallPayload_splits c).length_eq
  have hsize := Manifest.length_toBytes_le Layout.smallManifest_valid
  have hform := Header.length_form_le Layout.smallHeader
  have hmetadata : Layout.smallMetadata.length =
      Layout.smallHeader.form.length + Layout.smallManifest.toBytes.length := List.length_append
  simp only [List.length_cons, List.length_nil, List.length_replicate] at hlen
  simp only [Header.maxManifestSize, Header.maxSize] at hsize hform
  rw [Bytes.Addressable]
  generalize Layout.smallHeader.form.length = a at hform hmetadata
  generalize Layout.smallManifest.toBytes.length = b at hsize hmetadata
  omega

theorem smallPayload_hashForSigning :
    ∃ hashes h', runOn (hashForSigning {} ⟨false, ["payload"]⟩ [1])
      (payloadHost (Layout.smallPayload 0)) = (.ok hashes, h') := by
  have hs := Layout.smallPayload_splits 0
  have hmetadata : signedMetadata Layout.smallLayout 7 = .ok Layout.smallMetadata := by
    rw [signedMetadata_eq hs]
    exact buildMetadata_small
  have hh : Layout.smallLayout.signingHashes [7] [1] =
      .ok (.ofPreimages (Layout.smallMetadata ++ [7]) Layout.smallMetadata) := by
    rw [Layout.signingHashes, blobLengthOfSizes_one]
    simp only [mapError_ok, ok_bind, hmetadata]
    rfl
  have hanswers : Answers (hashForSigning {} ⟨false, ["payload"]⟩ [1])
      (payloadHost (Layout.smallPayload 0)) (Layout.smallLayout.signingHashes [7] [1]) :=
    answers_hashForSigning (by decide) (payloadHost_holds _) hs
  rw [hh] at hanswers
  obtain ⟨log, hr⟩ := hanswers.runOn
  exact ⟨_, _, hr⟩

theorem smallPayload_hashSigned :
    ∃ hashes h', Answers (hashForSigning {} ⟨false, ["signed"]⟩ [1]) h' (.ok hashes) ∧
      Answers (hashSigned {} ⟨false, ["signed"]⟩) h' (.ok hashes) := by
  obtain ⟨hashes, h₁, hhash⟩ := smallPayload_hashForSigning
  obtain ⟨l', h₂, hembed⟩ := smallPayload_embedSignatures
  have hl := (Layout.smallPayload_splits 0).ofContent_eq "payload"
  have hS : Bytes.Addressable (List.replicate 7 1) := by
    rw [Bytes.Addressable, List.length_replicate]
    decide
  obtain ⟨hsame, hsigned⟩ := hashForSigning_embedSignatures (by decide) (payloadHost_holds _)
    (smallPayload_addressable 0) hl hS hhash hembed
  exact ⟨hashes, h₂, hsame, hsigned blobLengthOfSizes_one fun h2 => (by cases h2)⟩

end Plan

end UpdateSeal
