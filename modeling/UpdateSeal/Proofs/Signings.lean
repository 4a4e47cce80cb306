import UpdateSeal.Proofs.Operations
import UpdateSeal.Proofs.Verifications

/-!
# Signed payloads verify

A payload whose signature regions have the size that is predicted for the keys is signed, hashed to
what was signed, and verified by every list of keys that has the public half of one of them.
-/

namespace UpdateSeal

open UpdateSeal.Action PayloadFile

variable {h h' : Host} {path out p : Path} {keys : List Path} {n : Nat} {digest : Bytes}
variable {secret secret' : Rsa.PrivateKey} {publics : List Rsa.PublicKey}
variable {l l' : Layout} {F md sig data tail metadata m s : Bytes} {t : Toolkit}

/-- A payload has room for containers of `n` bytes: its signature regions have that length. -/
structure Layout.HasRoom (l : Layout) (n : Nat) : Prop where
  payload : ∀ r, l.payloadSignatureRegion = .ok (some r) → r.length = n
  metadata : ∀ r, l.metadataSignatureRegion = .ok (some r) → r.length = n

theorem KeySizes.PrivateAt.unique {k : KeySizes} (hs : k.PrivateAt h p secret)
    (hs' : k.PrivateAt h p secret') : secret = secret' := by
  have hkey := Except.ok.inj (Answers.unique hs hs')
  exact KeyMaterial.privateKey.inj (LoadedKey.mk.inj hkey).2.2

/-! ### Containers -/

namespace Sign

variable {entries : List Signature}

theorem exists_madeBy (hs : List.Forall₂ (MadeBy t h digest) keys entries) (hp : p ∈ keys) :
    ∃ s ∈ entries, MadeBy t h digest p s := by
  induction hs with
  | nil => cases hp
  | cons hmade _ ih =>
    cases hp with
    | head => exact ⟨_, List.mem_cons_self, hmade⟩
    | tail _ hp =>
      obtain ⟨s, hmem, hs⟩ := ih hp
      exact ⟨s, List.mem_cons_of_mem _ hmem, hs⟩

theorem Signed.fitBy (hs : Signed t h digest keys entries) (hp : p ∈ keys)
    (hk : t.keySizes.PrivateAt h p secret) (hinv : secret.Inverts) :
    Container.FitBy secret.publicHalf digest (Container.encode entries) := by
  obtain ⟨s, hentry, secret', block, hk', hblock, rfl⟩ := exists_madeBy hs.made hp
  obtain rfl := hk.unique hk'
  exact ⟨entries, hs.decode, _, hentry, rfl, Rsa.PrivateKey.fits_transform hinv hblock⟩

/-- Keys for which a size is predicted sign every digest, in a container of that size. -/
theorem signed_of_predicted
    (hblock : ∀ modulus, t.keySizes.Supports modulus → 62 ≤ Rsa.byteLength modulus)
    (hn : Answers (Plan.blobLength t keys) h (.ok n)) (hd : digest.length = digestSize) :
    ∃ entries, Signed t h digest keys entries ∧ (Container.encode entries).length = n := by
  by_cases hne : keys = []
  · subst hne
    have hsizes : Answers (Plan.signatureSizes t []) h (.ok []) := answers_pure [] h
    have hfault : Answers (Plan.blobLength t []) h (.error (.value .noSizes)) :=
      hsizes.bind (answers_throw _ h)
    cases hfault.unique hn
  · cases signed_or_fault (h := h) hblock hd hne with
    | inl hsigned =>
      obtain ⟨entries, hs⟩ := hsigned
      exact ⟨entries, hs, Except.ok.inj (hs.predicted.unique hn)⟩
    | inr hfails =>
      obtain ⟨e, -, hpredict⟩ := hfails
      cases hpredict.unique hn

theorem Signed.encode_ne_nil (hs : Signed t h digest keys entries) :
    Container.encode entries ≠ [] := by
  intro hnil
  have hempty : Container.decode (Container.encode []) = .ok [] := Container.decode_encode (by simp)
  have hdecode := hs.decode
  rw [hnil] at hdecode
  obtain rfl : [] = entries := Except.ok.inj (hempty.symm.trans hdecode)
  cases hs.length

end Sign

/-! ### Files -/

theorem exists_signedMetadata (hs : l.Splits F md sig data tail) (hF : F.Addressable)
    (hn : n < if l.header.major = 2 then 2 ^ 32 else 10 ^ Json.maxDigits) :
    ∃ metadata, Plan.signedMetadata l n = .ok metadata := by
  have hdigits : n < 10 ^ Json.maxDigits := by
    have hle : 2 ^ 32 ≤ 10 ^ Json.maxDigits := by decide +kernel
    split at hn <;> omega
  have hvalid := signedManifest_valid hs hF (Manifest.natural_of_nat hdigits)
  have hsize := Manifest.length_toBytes_le hvalid
  have hwritable := hvalid.isWritable
  rw [Plan.signedMetadata_eq hs]
  generalize signedManifest l.manifest data.length n = manifest at hsize hwritable
  rcases hs.header_valid.major_eq with h1 | h2
  · have hv : Header.Valid ⟨1, manifest.toBytes.length, 0⟩ := .first hsize
    have hlen : (⟨1, manifest.toBytes.length, 0⟩ : Header).manifestSize = manifest.toBytes.length :=
      rfl
    have hb := buildMetadata_eq hv hwritable hlen
    rw [h1, if_neg (by decide)]
    exact ⟨_, hb⟩
  · rw [h2, if_pos rfl] at hn
    have hv : Header.Valid ⟨2, manifest.toBytes.length, n⟩ := .second hsize hn
    have hlen : (⟨2, manifest.toBytes.length, n⟩ : Header).manifestSize = manifest.toBytes.length :=
      rfl
    have hb := buildMetadata_eq hv hwritable hlen
    rw [h2, if_pos rfl]
    exact ⟨_, hb⟩

/-- No metadata is built for a container whose size has no place in it. -/
theorem lt_of_signedMetadata (hs : l.Splits F md sig data tail)
    (hm : Plan.signedMetadata l n = .ok metadata) :
    n < if l.header.major = 2 then 2 ^ 32 else 10 ^ Json.maxDigits := by
  rw [Plan.signedMetadata_eq hs] at hm
  have hd : (signedManifest l.manifest data.length n).Describes data (List.replicate n 0) :=
    .signed rfl (by rw [List.length_replicate]; rfl)
  have hvalid := hd.valid (isWritable_of_buildMetadata hm) hs.manifest_valid.pos
    hs.manifest_valid.minorVersion.1
  by_cases h2 : l.header.major = 2
  · rw [if_pos h2] at hm ⊢
    obtain ⟨header, hv, hmajor, hsig, -, -⟩ := buildMetadata_eq_ok hvalid hm
    cases hv with
    | first => rw [← hmajor] at h2; cases h2
    | second _ hlt => rwa [Int.natCast_inj.1 hsig] at hlt
  · rw [if_neg h2]
    exact Json.bounded_natCast.1 (hvalid.signaturesSize n rfl).2

theorem Layout.Splits.major_eq_two (hs : l.Splits F md sig data tail) (hsig : sig ≠ []) :
    l.header.major = 2 := by
  have hlen := hs.signature_length
  have hpos := List.length_pos_iff.2 hsig
  cases hv : l.header with
  | mk major size signatureSize =>
    have hvalid := hs.header_valid
    rw [hv] at hvalid hlen
    cases hvalid with
    | first => simp only at hlen; omega
    | second => rfl

/-- A payload has a place for signatures of these lengths. -/
structure Layout.Takes (l : Layout) (s m : Bytes) : Prop where
  check : checkMetadataSignature l.header.major m = .ok ()
  payload : ∀ r, l.payloadSignatureRegion = .ok (some r) → r.length = s.length
  metadata : ∀ r, l.metadataSignatureRegion = .ok (some r) → r.length = m.length

theorem Layout.Splits.takes (hs : l.Splits F md sig data tail) (hpos : s ≠ [])
    (hpayload : ∀ r, l.payloadSignatureRegion = .ok (some r) → r.length = s.length)
    (hmetadata : ∀ r, l.metadataSignatureRegion = .ok (some r) → r.length = s.length)
    (hm : (m.length : Int) = if l.header.major = 2 then (s.length : Int) else 0) : l.Takes s m := by
  have hlen := List.length_pos_iff.2 hpos
  refine ⟨checkMetadataSignature_eq_ok_iff.2 ⟨fun h1 => ?_, fun h2 => ?_⟩, hpayload, fun r hr => ?_⟩
  · rw [h1, if_neg (by decide)] at hm
    exact List.length_eq_zero_iff.1 (by omega)
  · rw [if_pos h2] at hm
    exact List.ne_nil_of_length_pos (by omega)
  · have hsig : sig ≠ [] := by
      rintro rfl
      rw [hs.metadataSignatureRegion_eq, if_pos rfl] at hr
      cases hr
    rw [if_pos (hs.major_eq_two hsig)] at hm
    rw [hmetadata r hr, hm]

theorem returns_embedSignatures (hr : h.Holds path F) (hs : l.Splits F md sig data tail)
    {M : Option Bytes} (htakes : l.Takes s (M.getD []))
    (hb : buildMetadata l.header.major (signedManifest l.manifest data.length s.length)
      (M.getD []).length = .ok metadata)
    (hw : runOn (writeAtomically out (metadata ++ M.getD [] ++ data ++ s)) h = (.ok (), h')) :
    ∃ l₁, Returns (embedSignatures path (some s) M out) h l₁ h' := by
  obtain ⟨reserved, hreserved, -⟩ := hs.payloadSignatureRegion_eq_ok
  have hd : (signedManifest l.manifest data.length s.length).Describes data s := .signed rfl rfl
  have hvalid := hd.valid (isWritable_of_buildMetadata hb) hs.manifest_valid.pos
    hs.manifest_valid.minorVersion.1
  have hpayload : checkPayloadSignature reserved (some s) = .ok () := by
    cases reserved with
    | none => rfl
    | some r =>
      rw [checkPayloadSignature, checkReserved, if_pos (htakes.payload r hreserved)]
      rfl
  have hmetadata : checkReserved (if sig = [] then none else some ⟨md.length, sig.length⟩)
      (M.getD []).length .metadataSignatureSize = .ok () := by
    have hregion := hs.metadataSignatureRegion_eq
    split
    · rfl
    · next hsig =>
      rw [if_neg hsig] at hregion
      rw [checkReserved, if_pos (htakes.metadata _ hregion)]
  obtain ⟨l₁, hwrite⟩ := writeParts_returns hvalid hb hw
  refine ⟨l₁, fun log => ?_⟩
  obtain ⟨log', hwrite⟩ := hwrite log
  have hr' : ({ h with log } : Host).Holds path F := hr
  exact ⟨log', (embedSignatures_eq_ok_iff hr' (hs.ofContent_eq _) hs hreserved).2
    ⟨htakes.check, hpayload, hmetadata, hwrite⟩⟩

/-! ### Signed files -/

theorem Region.bytes_append (a b c : Bytes) :
    (⟨a.length, b.length⟩ : Region).bytes (a ++ (b ++ c)) = b := by
  rw [Region.bytes, Int.toNat_natCast, Int.toNat_natCast]
  exact Bytes.slice_append a b c

namespace PayloadFile.Embeds

theorem payloadSignatureRegion_eq (he : Embeds l l' metadata m data s) (hne : s ≠ []) :
    l'.payloadSignatureRegion = .ok (some ⟨(metadata ++ m ++ data).length, s.length⟩) := by
  have hsize : (s.length : Int) ≠ 0 := by simpa using hne
  rw [Layout.payloadSignatureRegion, he.manifest_eq]
  simp only [signedManifest, if_neg hsize, he.splits.dataOffset_eq, ok_bind, List.length_append]
  rfl

theorem signedWith (he : Embeds l l' metadata m data s) (hne : s ≠ [])
    {accepted : Bytes → Bytes → Prop} (hs : accepted (sha256 (metadata ++ data)) s)
    (hm : m ≠ [] → accepted (sha256 metadata) m) :
    l'.SignedWith accepted (metadata ++ m ++ data ++ s) := by
  refine (he.splits.signedWith_iff (he.payloadSignatureRegion_eq hne)).2 ⟨_, rfl, ?_, ?_, ?_⟩
  · simp only [Region.stop, List.length_append]
    omega
  · have hbytes := Region.bytes_append (metadata ++ m ++ data) s []
    rw [List.append_nil] at hbytes
    rwa [hbytes]
  · intro r hr
    rw [he.splits.metadataSignatureRegion_eq] at hr
    split at hr
    · cases hr
    · next hne =>
      cases hr
      rw [List.append_assoc, List.append_assoc, Region.bytes_append]
      exact hm hne

end PayloadFile.Embeds

namespace Sign

variable {sink : Sink} {entries : List Signature}

theorem signingHashes_eq {sizes : List Int} (hsizes : Plan.blobLengthOfSizes sizes = .ok n)
    (hmetadata : Plan.signedMetadata l n = .ok metadata) (data : Bytes) :
    l.signingHashes data sizes = .ok (.ofPreimages (metadata ++ data) metadata) := by
  rw [Layout.signingHashes, hsizes]
  simp only [mapError_ok, ok_bind, hmetadata]
  rfl

theorem answers_signMetadata
    (hblock : ∀ modulus, t.keySizes.Supports modulus → 62 ≤ Rsa.byteLength modulus)
    (hn : Answers (Plan.blobLength t keys) h (.ok n)) (hd : digest.length = digestSize)
    (major : Int) :
    ∃ M, Answers (signMetadata t major digest keys) h (.ok M) ∧
      ((M.getD []).length : Int) = (if major = 2 then (n : Int) else 0) ∧
      (M.getD [] ≠ [] → ∃ entries, Signed t h digest keys entries ∧
        M.getD [] = Container.encode entries) := by
  unfold signMetadata
  by_cases h2 : major = 2
  · obtain ⟨entries, hs, hlen⟩ := signed_of_predicted hblock hn hd
    rw [if_pos h2, if_pos h2]
    refine ⟨some (Container.encode entries), hs.blob.bind (answers_pure _ h), ?_,
      fun _ => ⟨entries, hs, rfl⟩⟩
    rw [← hlen]
    rfl
  · rw [if_neg h2, if_neg h2]
    exact ⟨none, answers_pure none h, rfl, fun hne => absurd rfl hne⟩

/-- Containers of the size that is predicted for the keys. -/
structure Sized (t : Toolkit) (h : Host) (keys : List Path) (major : Int) (n : Nat)
    (hashes : HashSet) (s : Bytes) (M : Option Bytes) : Prop where
  payload : ∃ entries, Signed t h hashes.payload keys entries ∧ s = Container.encode entries
  metadata : M.getD [] ≠ [] → ∃ entries, Signed t h hashes.metadata keys entries ∧
    M.getD [] = Container.encode entries
  length_payload : s.length = n
  length_metadata : ((M.getD []).length : Int) = if major = 2 then (n : Int) else 0

theorem Sized.ne_nil {major : Int} {hashes : HashSet} {M : Option Bytes}
    (hm : Sized t h keys major n hashes s M) : s ≠ [] := by
  obtain ⟨entries, hs, rfl⟩ := hm.payload
  exact hs.encode_ne_nil

theorem exists_made (hchunk : 0 < t.chunk)
    (hblock : ∀ modulus, t.keySizes.Supports modulus → 62 ≤ Rsa.byteLength modulus)
    (hr : h.Holds path F) (hs : l.Splits F md sig data tail)
    (hn : Answers (Plan.blobLength t keys) h (.ok n))
    (hmetadata : Plan.signedMetadata l n = .ok metadata) :
    ∃ s M, Made t h path keys (.ofPreimages (metadata ++ data) metadata) s M ∧
      Sized t h keys l.header.major n (.ofPreimages (metadata ++ data) metadata) s M := by
  obtain ⟨entries, hsigned, rfl⟩ :=
    signed_of_predicted hblock hn (length_sha256 (metadata ++ data))
  obtain ⟨M, hM, hlen, hm⟩ :=
    answers_signMetadata hblock hn (length_sha256 metadata) l.header.major
  have hlayout := answers_readLayout hr
  rw [hs.ofContent_eq] at hlayout
  have hhashes : Answers (Plan.hashForSigning t path (entries.map fun s => (s.data.length : Int))) h
      (.ok (.ofPreimages (metadata ++ data) metadata)) := by
    rw [← signingHashes_eq hsigned.length hmetadata data]
    exact Plan.answers_hashForSigning hchunk hr hs
  exact ⟨Container.encode entries, M, ⟨⟨_, hsigned.sizes, hhashes⟩, hsigned.blob, l, hlayout, hM⟩,
    ⟨entries, hsigned, rfl⟩, hm, rfl, hlen⟩

/-- Signing leaves a file that holds the data of the payload between containers of all keys, over
the hashes that are returned. -/
theorem returns_signFile (hchunk : 0 < t.chunk)
    (hblock : ∀ modulus, t.keySizes.Supports modulus → 62 ≤ Rsa.byteLength modulus)
    (hr : h.Holds path F) (hF : F.Addressable) (hl : Layout.ofContent path.text F = .ok l)
    (hn : Answers (Plan.blobLength t keys) h (.ok n)) (hroom : l.HasRoom n)
    (hbound : n < if l.header.major = 2 then 2 ^ 32 else 10 ^ Json.maxDigits)
    (hw : ∀ content, ∃ h', runOn (writeAtomically out content) h = (.ok (), h')) :
    ∃ metadata m data s l' content h',
      Returns (signFile t path keys out) h (.ofPreimages (metadata ++ data) metadata, s) h' ∧
      runOn (writeAtomically out content) h = (.ok (), h') ∧
      h'.Holds out (metadata ++ m ++ data ++ s) ∧ Embeds l l' metadata m data s ∧ s ≠ [] ∧
      (∃ entries, Signed t h (sha256 (metadata ++ data)) keys entries ∧
        s = Container.encode entries) ∧
      (m ≠ [] → ∃ entries, Signed t h (sha256 metadata) keys entries ∧
        m = Container.encode entries) := by
  obtain ⟨md, sig, data, tail, hs⟩ := Layout.splits_of_ofContent hl
  obtain ⟨metadata, hmetadata⟩ := exists_signedMetadata hs hF hbound
  obtain ⟨s, M, hmade, hsized⟩ := exists_made hchunk hblock hr hs hn hmetadata
  obtain rfl := hsized.length_payload
  rw [Plan.signedMetadata_eq hs, ← hsized.length_metadata] at hmetadata
  obtain ⟨h', hwrite⟩ := hw (metadata ++ M.getD [] ++ data ++ s)
  have htakes := hs.takes hsized.ne_nil hroom.payload hroom.metadata hsized.length_metadata
  obtain ⟨l₁, hembed⟩ := returns_embedSignatures hr hs htakes hmetadata hwrite
  obtain ⟨log, hrun⟩ := hembed.runOn
  obtain ⟨metadata', he, hholds⟩ := exists_embeds hr hs hrun
  obtain rfl := Except.ok.inj (hmetadata.symm.trans he.metadata_eq)
  have hsign := returns_signFile_of_made hmade hrun
  exact ⟨metadata, M.getD [], data, s, l₁, _, h', hsign, hwrite, hholds, he, hsized.ne_nil,
    hsized.payload, hsized.metadata⟩

/-- Signing leaves a file whose signatures fit every key, and which is hashed to what was signed. -/
theorem signPayload_fits (hchunk : 0 < t.chunk)
    (hblock : ∀ modulus, t.keySizes.Supports modulus → 62 ≤ Rsa.byteLength modulus)
    (hP : h.Holds path F) (hsize : F.Addressable) (hl : Layout.ofContent path.text F = .ok l)
    (hn : Answers (Plan.blobLength t keys) h (.ok n)) (hroom : l.HasRoom n)
    (hbound : n < if l.header.major = 2 then 2 ^ 32 else 10 ^ Json.maxDigits)
    (hw : ∀ content, ∃ h', runOn (writeAtomically out content) h = (.ok (), h') ∧
      sink.CanRecord ((path :: out :: keys).map Path.spelling) h' ∧ sink.Spares h' out) :
    ∃ hashes sink' h' l' signed,
      runOn ((signPayload t path keys out).run sink) h = (.ok (hashes, sink'), h') ∧
      h'.Holds out signed ∧ Layout.ofContent out.text signed = .ok l' ∧
      Answers (Plan.hashSigned t out) h' (.ok hashes) ∧
      (∀ paths, sink.Spells paths → sink'.CanRecord ((out :: paths).map Path.spelling) h') ∧
      ∀ p ∈ keys, ∀ secret, t.keySizes.PrivateAt h p secret → secret.Inverts →
        l'.SignedWith (Container.FitBy secret.publicHalf) signed := by
  have hw' : ∀ content, ∃ h', runOn (writeAtomically out content) h = (.ok (), h') := by
    intro content
    obtain ⟨h', hwrite, -⟩ := hw content
    exact ⟨h', hwrite⟩
  obtain ⟨metadata, m, data, s, l', content, h₁, hsign, hwrite, hholds, he, hne, hs, hm⟩ :=
    returns_signFile hchunk hblock hP hsize hl hn hroom hbound hw'
  obtain ⟨h₁', hwrite', hrecord, hspare⟩ := hw content
  obtain rfl : h₁ = h₁' := (Prod.mk.inj (hwrite.symm.trans hwrite')).2
  obtain ⟨log, hrun⟩ := hsign.runOn
  have htexts : sink.CanRecord (signingTexts path keys out
      (.ofPreimages (metadata ++ data) metadata)) { h₁ with log } :=
    canRecord_signingTexts_iff.2 hrecord
  obtain ⟨e, sink', h', hlog, hrecord', hkeep⟩ := Sink.log_returns "sign_payload"
    (path.spelling :: keys.map Path.spelling) _
    [("key_count", .int keys.length), ("signature_blob_length", .int s.length)] htexts
  obtain ⟨hholds', -⟩ := hkeep out _ (show Host.Holds { h₁ with log } out _ from hholds)
    (show sink.Spares { h₁ with log } out from hspare)
  refine ⟨_, sink', h', l', _, runOn_signPayload_eq_ok.2 ⟨s, _, e, hrun, hlog⟩, hholds',
    he.splits.ofContent_eq _, Plan.answers_hashSigned hchunk hholds' he.splits, ?_, ?_⟩
  · intro paths hspells
    have hnames : sink.CanRecord ([out.spelling] ++ paths.map Path.spelling) { h₁ with log } :=
      Sink.canRecord_append_iff.2 ⟨hrecord.mono (by simp), hspells⟩
    exact hrecord' _ hnames
  · intro p hp secret hk hinv
    apply he.signedWith hne
    · obtain ⟨entries, hs, rfl⟩ := hs
      exact hs.fitBy hp hk hinv
    · intro hne
      obtain ⟨entries, hs, rfl⟩ := hm hne
      exact hs.fitBy hp hk hinv

/-- Signing a payload that has room for the signatures returns the hashes that the signed file is
hashed to, and the file is verified by every list of keys with the public half of a key. -/
theorem signPayload_verifies {app : Application} (ha : app.Started) (hP : h.Holds path F)
    (hsize : F.Addressable) (hl : Layout.ofContent path.text F = .ok l)
    (hinv : ∀ p ∈ keys, ∀ secret, app.toolkit.keySizes.PrivateAt h p secret → secret.Inverts)
    (hn : Answers (Plan.blobLength app.toolkit keys) h (.ok n)) (hroom : l.HasRoom n)
    (hbound : n < if l.header.major = 2 then 2 ^ 32 else 10 ^ Json.maxDigits)
    (hw : ∀ content, ∃ h', runOn (writeAtomically out content) h = (.ok (), h') ∧
      sink.CanRecord ((path :: out :: keys).map Path.spelling) h' ∧ sink.Spares h' out) :
    ∃ hashes sink' h', runOn ((signPayload app.toolkit path keys out).run sink) h =
        (.ok (hashes, sink'), h') ∧
      Answers (Plan.hashSigned app.toolkit out) h' (.ok hashes) ∧
      ∀ paths publics p secret, List.Forall₂ (app.toolkit.keySizes.PublicAt h') paths publics →
        p ∈ keys → app.toolkit.keySizes.PrivateAt h p secret → secret.publicHalf.canTransform →
          secret.publicHalf ∈ publics → sink.Spells paths →
          ∃ sink'' h'', runOn ((verifyPayload app.toolkit out paths).run sink') h' =
            (.ok (true, sink''), h'') := by
  obtain ⟨hashes, sink', h', l', signed, hrun, hholds, hl', hhash, hrecord, hfits⟩ :=
    signPayload_fits ha.chunk_pos ha.room_for_block hP hsize hl hn hroom hbound hw
  refine ⟨hashes, sink', h', hrun, hhash, ?_⟩
  intro paths publics p secret hpublic hp hk hcan hmem hspells
  obtain ⟨b, hverify, hb⟩ :=
    answers_verifyFile ha.chunk_pos ha.room_for_block hholds hl' hpublic
  have hsigned : l'.SignedBy publics signed :=
    (hfits p hp secret hk (hinv p hp secret hk)).mono fun _ _ hfit => hfit.signedBy hcan hmem
  rw [hb.2 hsigned] at hverify
  exact verifyPayload_returns hverify (hrecord paths hspells)

end Sign

namespace Sample

/-- A payload of three bytes without signatures or room for them. -/
def header : Header := ⟨2, (Manifest.toBytes {}).length, 0⟩

def payload : Bytes := header.form ++ Manifest.toBytes {} ++ [] ++ [1, 2, 3] ++ []

def layout : Layout := ⟨header, {}, payload.length⟩

theorem manifest_describes (data : Bytes) : Manifest.Describes {} data [] := .unsigned rfl rfl rfl

theorem manifest_valid : Manifest.Valid {} :=
  (manifest_describes []).valid (by decide +kernel) (by decide) (by decide)

theorem payload_splits :
    layout.Splits payload (header.form ++ Manifest.toBytes {}) [] [1, 2, 3] [] := by
  have hv : header.Valid := .second (Manifest.length_toBytes_le manifest_valid) (by decide)
  have hsize : header.manifestSize = (Manifest.toBytes {}).length := rfl
  have hempty : header.metadataSignatureSize = ([] : Bytes).length := rfl
  have hs := splits_of_parts hv manifest_valid hsize hempty (manifest_describes [1, 2, 3])
  exact hs

theorem payload_addressable : payload.Addressable := by
  have hlen := payload_splits.length_eq
  have hsize := Manifest.length_toBytes_le manifest_valid
  have hform := Header.length_form_le header
  simp only [List.length_append, List.length_cons, List.length_nil] at hlen
  simp only [Header.maxManifestSize, Header.maxSize] at hsize hform
  rw [Bytes.Addressable]
  generalize header.form.length = a at hform hlen
  generalize (Manifest.toBytes {}).length = b at hsize hlen
  omega

theorem layout_hasRoom (n : Nat) : layout.HasRoom n := by
  constructor
  case payload =>
    intro r hr
    cases hr
  case metadata =>
    intro r hr
    cases hr

theorem entryLength_privateKey :
    Container.entryLength (Rsa.byteLength privateKey.modulus) = 149 := by
  have hmodulus : Rsa.byteLength privateKey.modulus = 141 := by decide +kernel
  have hlong : Varint.encode 146 = [146, 1] := by
    rw [Varint.encode_of_le (by decide), Varint.encode_of_lt (by decide)]
    rfl
  have hsize : Varint.encode 141 = [141, 1] := by
    rw [Varint.encode_of_le (by decide), Varint.encode_of_lt (by decide)]
    rfl
  simp [hmodulus, Container.entryLength, Container.versionField, Container.dataField,
    Container.entriesField, Signature.currentVersion, Varint.length, Varint.encode_of_lt, Wire.key,
    hlong, hsize]

theorem answers_blobLength (hk : app.toolkit.keySizes.PrivateAt h p privateKey) :
    Answers (Plan.blobLength app.toolkit [p]) h (.ok 149) := by
  have hpos : ∀ secret ∈ [privateKey], 0 < Rsa.byteLength secret.modulus := by decide +kernel
  have hlength := Sign.answers_blobLength (.cons hk .nil) hpos (List.cons_ne_nil p [])
  rwa [List.map_singleton, List.sum_singleton, entryLength_privateKey] at hlength

theorem payload_signPayload_verifies :
    ∃ hashes sink' h', runOn ((Sign.signPayload app.toolkit ⟨false, ["payload"]⟩ [⟨false, ["key"]⟩]
        ⟨false, ["signed"]⟩).run .silent) (host payload) = (.ok (hashes, sink'), h') ∧
      Answers (Plan.hashSigned app.toolkit ⟨false, ["signed"]⟩) h' (.ok hashes) ∧
      ∀ paths publics, List.Forall₂ (app.toolkit.keySizes.PublicAt h') paths publics →
        privateKey.publicHalf ∈ publics →
          ∃ sink'' h'', runOn ((Sign.verifyPayload app.toolkit ⟨false, ["signed"]⟩ paths).run sink')
            h' = (.ok (true, sink''), h'') := by
  have hwrite : ∀ content, ∃ h', runOn (writeAtomically ⟨false, ["signed"]⟩ content)
      (host payload) = (.ok (), h') ∧ Sink.CanRecord .silent ["payload", "signed", "key"] h' ∧
        Sink.Spares .silent h' ⟨false, ["signed"]⟩ :=
    fun content => ⟨_, rfl, fun l hl => (by cases hl), fun l hl => (by cases hl)⟩
  have hinv : ∀ p ∈ [(⟨false, ["key"]⟩ : Path)], ∀ secret,
      app.toolkit.keySizes.PrivateAt (host payload) p secret → secret.Inverts := by
    intro p hp secret hk
    obtain rfl := List.mem_singleton.1 hp
    obtain rfl := (privateAt payload).unique hk
    exact inverts
  have hholds : (host payload).Holds ⟨false, ["payload"]⟩ payload := rfl
  obtain ⟨hashes, sink', h', hrun, hhash, hverify⟩ := Sign.signPayload_verifies app_started hholds
    payload_addressable (payload_splits.ofContent_eq _) hinv (answers_blobLength (privateAt payload))
    (layout_hasRoom 149) (by decide) hwrite
  refine ⟨hashes, sink', h', hrun, hhash, ?_⟩
  intro paths publics hpublic hmem
  exact hverify paths publics _ _ hpublic List.mem_cons_self (privateAt payload) canTransform hmem
    nofun

end Sample

end UpdateSeal
