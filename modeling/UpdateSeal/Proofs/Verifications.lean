import UpdateSeal.Proofs.Applications
import UpdateSeal.Proofs.Plans
import UpdateSeal.Proofs.Recording
import UpdateSeal.Signing.Sign

/-!
# What verification accepts

A container is accepted exactly if it can be read and one of its current signatures is made by one
of the keys over the digest. A payload is accepted exactly if it has a layout, its payload signature
ends the file, and every signature region that it declares holds such a container. Verifying
answers on every payload with a layout, as long as the operation can be recorded.
-/

namespace UpdateSeal

open UpdateSeal.Action

/-- `blob` is a container with a current signature over `digest` by one of the keys. -/
def Container.SignedBy (keys : List Rsa.PublicKey) (digest blob : Bytes) : Prop :=
  ∃ entries, decode blob = .ok entries ∧ ∃ s ∈ entries, s.version = Signature.currentVersion ∧
    ∃ key ∈ keys, key.Signs digest s.data

/-- `blob` is a container with a current signature that fits the digest under the key, whether or not
the key can be used to find this out. -/
def Container.FitBy (key : Rsa.PublicKey) (digest blob : Bytes) : Prop :=
  ∃ entries, decode blob = .ok entries ∧ ∃ s ∈ entries, s.version = Signature.currentVersion ∧
    key.Fits digest s.data

theorem Container.FitBy.signedBy {key : Rsa.PublicKey} {keys : List Rsa.PublicKey}
    {digest blob : Bytes} (h : FitBy key digest blob) (hcan : key.canTransform)
    (hmem : key ∈ keys) : SignedBy keys digest blob := by
  obtain ⟨entries, hdecode, s, hs, hversion, hfits⟩ := h
  exact ⟨entries, hdecode, s, hs, hversion, key, hmem, hfits, hcan⟩

/-- `content` is laid out by `l` with a payload signature that ends the file, and each signature it
has is accepted over the digest of what it covers. -/
structure Layout.SignedWith (l : Layout) (accepted : Bytes → Bytes → Prop) (content : Bytes) :
    Prop where
  payload : ∃ r b, l.payloadSignatureRegion = .ok (some r) ∧ 0 < r.length ∧
    r.stop = content.length ∧ l.payloadPreimage content = .ok b ∧
    accepted (sha256 b) (r.bytes content)
  metadata : ∀ r, l.metadataSignatureRegion = .ok (some r) →
    ∃ b, l.metadataPreimage content = .ok b ∧ accepted (sha256 b) (r.bytes content)

theorem Layout.SignedWith.mono {l : Layout} {accepted accepted' : Bytes → Bytes → Prop}
    {content : Bytes} (hs : l.SignedWith accepted content)
    (himp : ∀ digest blob, accepted digest blob → accepted' digest blob) :
    l.SignedWith accepted' content := by
  obtain ⟨r, b, hr, hpos, hstop, hb, hpayload⟩ := hs.payload
  refine ⟨⟨r, b, hr, hpos, hstop, hb, himp _ _ hpayload⟩, fun r hr => ?_⟩
  obtain ⟨b, hb, hmetadata⟩ := hs.metadata r hr
  exact ⟨b, hb, himp _ _ hmetadata⟩

/-- `content` is laid out by `l` and signed by the keys. -/
abbrev Layout.SignedBy (l : Layout) (keys : List Rsa.PublicKey) (content : Bytes) : Prop :=
  l.SignedWith (Container.SignedBy keys) content

namespace Verify

variable {s : KeySizes} {t : Toolkit} {h : Host} {p : Path} {paths : List Path}
variable {digest block blob : Bytes} {key : Rsa.PublicKey} {keys : List Rsa.PublicKey}
variable {handles : List LoadedKey} {entries : List Signature}

theorem answers_readContainer (blob : Bytes) (h : Host) :
    Answers (readContainer blob) h (.ok ((Container.decode blob).toOption.getD [])) := by
  unfold readContainer
  cases Container.decode blob with
  | ok entries => exact answers_pure entries h
  | error e => exact (answers_record _ _ h).bind (answers_pure [] h)

/-- `k` is `key`, loaded from somewhere. -/
def Handles (s : KeySizes) (k : LoadedKey) (key : Rsa.PublicKey) : Prop :=
  ∃ p, k = ⟨p, Rsa.byteLength key.modulus, .publicKey key⟩ ∧ s.Supports key.modulus

theorem answers_loadPublic (hk : List.Forall₂ (s.PublicAt h) paths keys) :
    ∃ handles, Answers (paths.mapM s.loadPublic) h (.ok handles) ∧
      List.Forall₂ (Handles s) handles keys := by
  induction hk with
  | nil => exact ⟨[], answers_mapM .nil, .nil⟩
  | @cons p key paths keys hkey _ ih =>
    obtain ⟨handles, hload, hhandles⟩ := ih
    obtain ⟨file, -, -, hs⟩ := KeySizes.publicAt_iff.1 hkey
    refine ⟨_, ?_, .cons ⟨p, rfl, hs⟩ hhandles⟩
    rw [List.mapM_cons]
    exact hkey.bind (hload.bind (answers_pure _ h))

theorem answers_matchFrom (hs : s.Supports key.modulus)
    (hb : Padding.pad digest (Rsa.byteLength key.modulus) = .ok block) (index : Nat) :
    ∃ b, Answers (matchFrom s ⟨p, Rsa.byteLength key.modulus, .publicKey key⟩ block index entries) h
        (.ok b) ∧
      (b = true ↔ ∃ e ∈ entries, e.version = Signature.currentVersion ∧
        key.Signs digest e.data) := by
  induction entries generalizing index with
  | nil => exact ⟨false, answers_pure false h, by simp⟩
  | cons e entries ih =>
    obtain ⟨b, hrest, hb'⟩ := ih (index + 1)
    unfold matchFrom
    by_cases hv : e.version = Signature.currentVersion
    · obtain ⟨found, hfound, hsigns⟩ : ∃ b, Answers (recoversTo s
          ⟨p, Rsa.byteLength key.modulus, .publicKey key⟩ block e.data) h (.ok b) ∧
          (b = true ↔ key.Signs digest e.data) := KeySizes.answers_recoversTo hs hb
      rw [if_neg (not_not.2 hv)]
      cases found with
      | true =>
        refine ⟨true, hfound.bind ((answers_record _ _ h).bind (answers_pure true h)), ?_⟩
        simp [hv, hsigns.1 rfl]
      | false =>
        refine ⟨b, hfound.bind hrest, ?_⟩
        have hnot : ¬ key.Signs digest e.data := fun hd => (by cases hsigns.2 hd)
        simp [hb', hnot]
    · rw [if_pos hv]
      refine ⟨b, (answers_record _ _ h).bind hrest, ?_⟩
      simp [hb', hv]

theorem answers_matchKeys (hsize : ∀ key ∈ keys, 62 ≤ Rsa.byteLength key.modulus)
    (hd : digest.length = digestSize) (hk : List.Forall₂ (Handles s) handles keys) :
    ∃ b, Answers (matchKeys s digest entries handles) h (.ok b) ∧
      (b = true ↔ ∃ key ∈ keys, ∃ e ∈ entries, e.version = Signature.currentVersion ∧
        key.Signs digest e.data) := by
  induction hk with
  | nil => exact ⟨false, answers_pure false h, by simp⟩
  | @cons k key handles keys hkey _ ih =>
    obtain ⟨p, rfl, hs⟩ := hkey
    obtain ⟨hsize, hsizes⟩ := List.forall_mem_cons.1 hsize
    obtain ⟨rest, hrest, hrest'⟩ := ih hsizes
    obtain ⟨block, hpad⟩ := Padding.exists_pad hd (Int.ofNat_le.2 hsize)
    obtain ⟨b, hmatch, hb⟩ : ∃ b, Answers (matchFrom s
        ⟨p, Rsa.byteLength key.modulus, .publicKey key⟩ block 0 entries) h (.ok b) ∧
        (b = true ↔ ∃ e ∈ entries, e.version = Signature.currentVersion ∧
          key.Signs digest e.data) := answers_matchFrom hs hpad 0
    have hlift : Answers (Action.liftExcept (.value ∘ .padding)
        (Padding.pad digest (Rsa.byteLength key.modulus))) h (.ok block) :=
      answers_liftExcept_ok hpad h
    unfold matchKeys
    cases b with
    | true =>
      refine ⟨true, hlift.bind (hmatch.bind (answers_pure true h)), ?_⟩
      simp [hb.1 rfl]
    | false =>
      refine ⟨rest, hlift.bind (hmatch.bind hrest), ?_⟩
      have hnot : ¬ ∃ e ∈ entries, e.version = Signature.currentVersion ∧ key.Signs digest e.data :=
        fun hd => (by cases hb.2 hd)
      simp [hrest', hnot]

theorem le_byteLength_of_publicAt
    (hblock : ∀ modulus, s.Supports modulus → 62 ≤ Rsa.byteLength modulus)
    (hk : List.Forall₂ (s.PublicAt h) paths keys) :
    ∀ key ∈ keys, 62 ≤ Rsa.byteLength key.modulus := by
  induction hk with
  | nil => exact List.forall_mem_nil _
  | cons hkey _ ih =>
    obtain ⟨file, -, -, hs⟩ := KeySizes.publicAt_iff.1 hkey
    exact List.forall_mem_cons.2 ⟨hblock _ hs, ih⟩

theorem answers_verifyDigest (hsize : ∀ key ∈ keys, 62 ≤ Rsa.byteLength key.modulus)
    (hd : digest.length = digestSize) (hk : List.Forall₂ (t.keySizes.PublicAt h) paths keys)
    (blob : Bytes) :
    ∃ b, Answers (verifyDigest t blob paths digest) h (.ok b) ∧
      (b = true ↔ Container.SignedBy keys digest blob) := by
  obtain ⟨handles, hload, hhandles⟩ := answers_loadPublic hk
  have hread := answers_readContainer blob h
  cases hdecode : Container.decode blob with
  | error e =>
    rw [hdecode] at hread
    refine ⟨false, hload.bind (hread.bind (answers_pure false h)), ?_⟩
    simp [Container.SignedBy, hdecode]
  | ok entries =>
    rw [hdecode] at hread
    obtain ⟨b, hmatch, hb⟩ : ∃ b, Answers (matchKeys t.keySizes digest entries handles) h (.ok b) ∧
        (b = true ↔ ∃ key ∈ keys, ∃ e ∈ entries, e.version = Signature.currentVersion ∧
          key.Signs digest e.data) := answers_matchKeys hsize hd hhandles
    have hsigned : Container.SignedBy keys digest blob ↔ b = true := by
      rw [hb, Container.SignedBy, hdecode]
      constructor
      · intro hsigned
        obtain ⟨_, ⟨⟩, e, he, hv, key, hkey, hd⟩ := hsigned
        exact ⟨key, hkey, e, he, hv, hd⟩
      · intro hsigned
        obtain ⟨key, hkey, e, he, hv, hd⟩ := hsigned
        exact ⟨entries, rfl, e, he, hv, key, hkey, hd⟩
    refine ⟨b, hload.bind (hread.bind ?_), hsigned.symm⟩
    cases entries with
    | nil =>
      have hfalse : b = false := by simpa using hb
      rw [hfalse]
      exact answers_pure false h
    | cons e entries =>
      refine hmatch.bind ?_
      cases b with
      | true => exact answers_pure true h
      | false => exact (answers_record _ _ h).bind (answers_pure false h)

end Verify

/-! ### Payloads -/

/-- The preimages of a file that splits are known from its parts. -/
theorem Layout.Splits.signedWith_iff {l : Layout} {F md sig data tail : Bytes}
    {accepted : Bytes → Bytes → Prop} (hs : l.Splits F md sig data tail) {region : Option Region}
    (hregion : l.payloadSignatureRegion = .ok region) :
    l.SignedWith accepted F ↔ ∃ r, region = some r ∧ r.stop = F.length ∧
      accepted (sha256 (md ++ data)) (r.bytes F) ∧
      ∀ r, l.metadataSignatureRegion = .ok (some r) → accepted (sha256 md) (r.bytes F) := by
  constructor
  · intro hsigned
    obtain ⟨r, b, hr, -, hstop, hb, hpayload⟩ := hsigned.payload
    rw [hs.payloadPreimage_eq] at hb
    obtain rfl := Except.ok.inj hb
    refine ⟨r, Except.ok.inj (hregion.symm.trans hr), hstop, hpayload, ?_⟩
    intro r hr
    obtain ⟨b, hb, hmetadata⟩ := hsigned.metadata r hr
    rw [hs.metadataPreimage_eq] at hb
    obtain rfl := Except.ok.inj hb
    exact hmetadata
  · intro hsigned
    obtain ⟨r, rfl, hstop, hpayload, hmetadata⟩ := hsigned
    constructor
    case payload =>
      obtain ⟨region, hregion', hplace⟩ := hs.payloadSignatureRegion_eq_ok
      have hpos := (hplace r (Except.ok.inj (hregion'.symm.trans hregion))).2.1
      exact ⟨r, _, hregion, hpos, hstop, hs.payloadPreimage_eq, hpayload⟩
    case metadata => exact fun r hr => ⟨md, hs.metadataPreimage_eq, hmetadata r hr⟩

namespace Sign

variable {t : Toolkit} {h : Host} {path : Path} {paths : List Path} {keys : List Rsa.PublicKey}
variable {l : Layout} {F md sig data tail : Bytes} {sink : Sink}

theorem answers_checkMetadata
    (hblock : ∀ modulus, t.keySizes.Supports modulus → 62 ≤ Rsa.byteLength modulus)
    (hr : h.Holds path F) (hs : l.Splits F md sig data tail)
    (hk : List.Forall₂ (t.keySizes.PublicAt h) paths keys) {digest : Bytes}
    (hd : digest.length = digestSize) {region : Option Region}
    (hregion : l.metadataSignatureRegion = .ok region) :
    ∃ b, Answers (match region with
        | none => return true
        | some region => do
          let blob ← PayloadFile.readRegion path region
          Verify.verifyDigest t blob paths digest) h (.ok b) ∧
      (b = true ↔ ∀ r, l.metadataSignatureRegion = .ok (some r) →
        Container.SignedBy keys digest (r.bytes F)) := by
  cases region with
  | none =>
    refine ⟨true, answers_pure true h, ?_⟩
    simp [hregion]
  | some r =>
    obtain ⟨b, hverify, hb⟩ := Verify.answers_verifyDigest
      (Verify.le_byteLength_of_publicAt hblock hk) hd hk (r.bytes F)
    have hread := PayloadFile.answers_readRegion hr (hs.inside_metadataSignature hregion)
    refine ⟨b, hread.bind hverify, ?_⟩
    simp [hregion, hb]

theorem answers_checkSignatures {region : Region} (hchunk : 0 < t.chunk)
    (hblock : ∀ modulus, t.keySizes.Supports modulus → 62 ≤ Rsa.byteLength modulus)
    (hr : h.Holds path F) (hs : l.Splits F md sig data tail)
    (hk : List.Forall₂ (t.keySizes.PublicAt h) paths keys) (hin : region.Inside F.length) :
    ∃ b, Answers (checkSignatures t path l region paths) h (.ok b) ∧
      (b = true ↔ Container.SignedBy keys (sha256 (md ++ data)) (region.bytes F) ∧
        ∀ r, l.metadataSignatureRegion = .ok (some r) →
          Container.SignedBy keys (sha256 md) (r.bytes F)) := by
  have hhashes := Plan.answers_hashSigned hchunk hr hs
  have hregion := PayloadFile.answers_readRegion hr hin
  obtain ⟨first, hverify, hfirst⟩ :=
    Verify.answers_verifyDigest (Verify.le_byteLength_of_publicAt hblock hk)
      (length_sha256 (md ++ data)) hk (region.bytes F)
  obtain ⟨last, hcheck, hlast⟩ := answers_checkMetadata hblock hr hs hk (length_sha256 md)
    hs.metadataSignatureRegion_eq
  rw [← hfirst, ← hlast]
  cases first with
  | false =>
    refine ⟨false, hhashes.bind (hregion.bind (hverify.bind (answers_pure false h))), ?_⟩
    simp
  | true =>
    refine ⟨last, hhashes.bind (hregion.bind (hverify.bind ?_)), ?_⟩
    · exact (answers_liftExcept_ok hs.metadataSignatureRegion_eq h).bind hcheck
    · simp

theorem answers_verifyFile_of_open {region : Option Region} (hr : h.Holds path F)
    (hl : Layout.ofContent path.text F = .ok l) (hregion : l.payloadSignatureRegion = .ok region)
    (hopen : ∀ r, region = some r → r.stop ≠ l.fileSize) :
    Answers (verifyFile t path paths) h (.ok false) := by
  have hlayout := PayloadFile.answers_readLayout hr
  rw [hl] at hlayout
  refine hlayout.bind ((answers_liftExcept_ok hregion h).bind ?_)
  cases region with
  | none => exact (answers_record _ _ h).bind (answers_pure false h)
  | some r =>
    simp only
    rw [if_pos (hopen r rfl)]
    exact (answers_record _ _ h).bind (answers_pure false h)

theorem answers_verifyFile_of_closed {r : Region} {answer : Except Failure Bool}
    (hr : h.Holds path F) (hl : Layout.ofContent path.text F = .ok l)
    (hregion : l.payloadSignatureRegion = .ok (some r)) (hstop : r.stop = l.fileSize)
    (hcheck : Answers (checkSignatures t path l r paths) h answer) :
    Answers (verifyFile t path paths) h answer := by
  have hlayout := PayloadFile.answers_readLayout hr
  rw [hl] at hlayout
  refine hlayout.bind ((answers_liftExcept_ok hregion h).bind ?_)
  simp only
  rw [if_neg (not_not.2 hstop)]
  exact hcheck

/-- Verifying answers on every payload with a layout, and accepts exactly those that are signed. -/
theorem answers_verifyFile (hchunk : 0 < t.chunk)
    (hblock : ∀ modulus, t.keySizes.Supports modulus → 62 ≤ Rsa.byteLength modulus)
    (hr : h.Holds path F) (hl : Layout.ofContent path.text F = .ok l)
    (hk : List.Forall₂ (t.keySizes.PublicAt h) paths keys) :
    ∃ b, Answers (verifyFile t path paths) h (.ok b) ∧ (b = true ↔ l.SignedBy keys F) := by
  obtain ⟨md, sig, data, tail, hs⟩ := Layout.splits_of_ofContent hl
  obtain ⟨region, hregion, hplace⟩ := hs.payloadSignatureRegion_eq_ok
  rw [Layout.SignedBy, hs.signedWith_iff hregion]
  cases region with
  | none => exact ⟨false, answers_verifyFile_of_open hr hl hregion nofun, by simp⟩
  | some r =>
    by_cases hstop : r.stop = l.fileSize
    · obtain ⟨b, hcheck, hb⟩ := answers_checkSignatures hchunk hblock hr hs hk
        (hs.inside_payloadSignature hregion)
      refine ⟨b, answers_verifyFile_of_closed hr hl hregion hstop hcheck, ?_⟩
      rw [hs.fileSize_eq] at hstop
      simp [hb, hstop]
    · refine ⟨false, answers_verifyFile_of_open hr hl hregion (by simpa using hstop), ?_⟩
      rw [hs.fileSize_eq] at hstop
      simp [hstop]

theorem answers_verifyFile_error {e : PayloadFault} (hr : h.Holds path F)
    (hl : Layout.ofContent path.text F = .error e) :
    Answers (verifyFile t path paths) h (.error (.payload e)) := by
  have hlayout := PayloadFile.answers_readLayout hr
  rw [hl] at hlayout
  exact hlayout.bind_error

theorem verifyPayload_error {e : Failure} (hv : Answers (verifyFile t path paths) h (.error e)) :
    ∃ log, runOn ((verifyPayload t path paths).run sink) h = (.error e, { h with log }) := by
  obtain ⟨log, hrun⟩ := hv.runOn
  exact ⟨log, by rw [verifyPayload, runOn_lift_bind, hrun]⟩

theorem verifyPayload_returns {b : Bool} (hv : Answers (verifyFile t path paths) h (.ok b))
    (hs : sink.CanRecord ((path :: paths).map Path.spelling) h) :
    ∃ sink' h', runOn ((verifyPayload t path paths).run sink) h = (.ok (b, sink'), h') := by
  obtain ⟨log, hrun⟩ := hv.runOn
  have hs : sink.CanRecord ((path :: paths).map Path.spelling ++ []) { h with log } := by
    rwa [List.append_nil]
  obtain ⟨e, sink', h', hlog, -⟩ := Sink.log_returns "verify_payload"
    (path.spelling :: paths.map Path.spelling) [] [("verified", .bool b)] hs
  refine ⟨sink', h', ?_⟩
  rw [verifyPayload, runOn_lift_bind, hrun]
  simp only
  rw [Sink.runOn_log_bind, hlog]

/-- Verifying returns what it found, if the operation can be recorded. -/
theorem exists_verifyPayload_iff {a b : Bool} (hv : Answers (verifyFile t path paths) h (.ok b)) :
    (∃ sink' h', runOn ((verifyPayload t path paths).run sink) h = (.ok (a, sink'), h')) ↔
      b = a ∧ sink.CanRecord ((path :: paths).map Path.spelling) h := by
  constructor
  · intro hr
    obtain ⟨sink', h', hr⟩ := hr
    rw [verifyPayload, runOn_recorded_eq_ok (f := fun verified => verified)] at hr
    obtain ⟨c, h₁, e, hverify, hlog, rfl⟩ := hr
    obtain ⟨log, hrun⟩ := hv.runOn
    cases hrun.symm.trans hverify
    have hrecord := Sink.canRecord_of_log hlog
    rw [List.append_nil] at hrecord
    exact ⟨rfl, hrecord⟩
  · intro hfound
    obtain ⟨rfl, hrecord⟩ := hfound
    exact verifyPayload_returns hv hrecord

/-- A payload is verified exactly if it has a layout and is signed by the keys, and the operation
can be recorded. -/
theorem verifyPayload_eq_true_iff {app : Application} (ha : app.Started) (hr : h.Holds path F)
    (hk : List.Forall₂ (app.toolkit.keySizes.PublicAt h) paths keys) :
    (∃ sink' h', runOn ((verifyPayload app.toolkit path paths).run sink) h =
        (.ok (true, sink'), h')) ↔
      (∃ l, Layout.ofContent path.text F = .ok l ∧ l.SignedBy keys F) ∧
        sink.CanRecord ((path :: paths).map Path.spelling) h := by
  cases hl : Layout.ofContent path.text F with
  | error e =>
    obtain ⟨log, hrun⟩ : ∃ log, runOn ((verifyPayload app.toolkit path paths).run sink) h =
        (.error (.payload e), { h with log }) :=
      verifyPayload_error (answers_verifyFile_error hr hl)
    constructor
    · intro hv
      obtain ⟨_, _, hv⟩ := hv
      cases hrun.symm.trans hv
    · intro hsigned
      obtain ⟨⟨_, ⟨⟩, -⟩, -⟩ := hsigned
  | ok l =>
    obtain ⟨b, hverify, hb⟩ := answers_verifyFile ha.chunk_pos ha.room_for_block hr hl hk
    rw [exists_verifyPayload_iff hverify, hb]
    simp

theorem sample_verifyPayload_eq_true_iff :
    (∃ sink' h', runOn ((verifyPayload Sample.app.toolkit ⟨false, ["payload"]⟩
        [⟨false, ["public"]⟩]).run .silent) (Sample.host (Layout.smallPayload 0)) =
          (.ok (true, sink'), h')) ↔
      (∃ l, Layout.ofContent "payload" (Layout.smallPayload 0) = .ok l ∧
        l.SignedBy [Sample.privateKey.publicHalf] (Layout.smallPayload 0)) ∧
      Sink.CanRecord .silent ["payload", "public"] (Sample.host (Layout.smallPayload 0)) :=
  verifyPayload_eq_true_iff Sample.app_started rfl (.cons (Sample.publicAt _) .nil)

end Sign

end UpdateSeal
