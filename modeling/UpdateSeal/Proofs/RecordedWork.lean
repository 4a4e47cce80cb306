import UpdateSeal.Proofs.AnyKey
import UpdateSeal.Proofs.Appending
import UpdateSeal.Proofs.Operations
import UpdateSeal.Proofs.Places

/-!
# Work and its record

Signing, embedding and verifying do their work first and are recorded once it is done. The work of
verifying only looks. That of the others writes the output and nothing else, and writes no file where
it fails.
-/

namespace UpdateSeal

open UpdateSeal.Action

/-- Work of which a record is made once it is done. -/
structure Operation (α β : Type) where
  work : Action α
  name : String
  inputs : List LooseText
  outputs : α → List LooseText
  args : α → Json.Members
  result : α → β

namespace Operation

variable {α β : Type} {o : Operation α β} {l : Ledger} {h h' : Host}

def run (o : Operation α β) : Auditing β := do
  let c ← (o.work : Action α)
  let _ ← Sink.log o.name o.inputs (o.outputs c) (o.args c)
  return o.result c

/-- What running an operation with a ledger comes to: its work fails, or what was done cannot be
recorded, or it is recorded. -/
theorem cases {r : Except Failure (β × Sink)} (hr : runOn (o.run.run (.audit l)) h = (r, h')) :
    (∃ e, r = .error e ∧ runOn o.work h = (.error e, h')) ∨
    ∃ c h₁, runOn o.work h = (.ok c, h₁) ∧
      ((∃ e, r = .error e ∧ ¬ (Sink.audit l).CanRecord (o.inputs ++ o.outputs c) h₁ ∧
          l.GivesUp h₁ h') ∨
        ∃ is os l' e, r = .ok (o.result c, .audit l') ∧ o.inputs = is.map .string ∧
          o.outputs c = os.map .string ∧
          runOn (l.log o.name is os (o.args c)) h₁ = (.ok (l', e), h')) := by
  rw [run, runOn_lift_bind] at hr
  cases hwork : runOn o.work h with
  | mk r' h₁ =>
    rw [hwork] at hr
    cases r' with
    | error e =>
      obtain ⟨rfl, rfl⟩ := Prod.mk.inj hr
      exact .inl ⟨e, rfl, rfl⟩
    | ok c =>
      refine .inr ⟨c, h₁, rfl, ?_⟩
      simp only [Sink.runOn_log_bind, Sink.runOn_log_audit] at hr
      by_cases hcan : (Sink.audit l).CanRecord (o.inputs ++ o.outputs c) h₁
      · obtain ⟨l', e, content, t, now, hlog, -⟩ := Sink.log_audit_returns o.name o.inputs
          (o.outputs c) (o.args c) hcan
        rw [hlog] at hr
        obtain ⟨rfl, rfl⟩ := Prod.mk.inj hr
        obtain ⟨_, is, os, ⟨⟩, his, hos, hlog⟩ := Ledger.log_of_logTexts hlog
        exact .inr ⟨is, os, l', e, rfl, his, hos, hlog⟩
      · obtain ⟨e, h₂, hlog, hgives⟩ := Sink.log_audit_fails o.name o.inputs (o.outputs c) (o.args c)
          hcan
        rw [hlog] at hr
        obtain ⟨rfl, rfl⟩ := Prod.mk.inj hr
        exact .inl ⟨e, rfl, hcan, hgives⟩

theorem recorded {c : α} {h₁ : Host} {l' : Ledger} {e : Entry} (hwork : runOn o.work h = (.ok c, h₁))
    (hlog : runOn (l.logTexts o.name o.inputs (o.outputs c) (o.args c)) h₁ = (.ok (l', e), h')) :
    runOn (o.run.run (.audit l)) h = (.ok (o.result c, .audit l'), h') := by
  rw [run, runOn_lift_bind, hwork]
  simp only [Sink.runOn_log_bind, Sink.runOn_log_audit, hlog]

theorem unrecorded {c : α} {h₁ : Host} (hwork : runOn o.work h = (.ok c, h₁))
    (hcan : ¬ (Sink.audit l).CanRecord (o.inputs ++ o.outputs c) h₁) :
    ∃ e h', runOn (o.run.run (.audit l)) h = (.error e, h') ∧ l.GivesUp h₁ h' := by
  obtain ⟨e, h', hlog, hgives⟩ := Sink.log_audit_fails o.name o.inputs (o.outputs c) (o.args c) hcan
  refine ⟨e, h', ?_, hgives⟩
  rw [run, runOn_lift_bind, hwork]
  simp only [Sink.runOn_log_bind, Sink.runOn_log_audit, hlog]

end Operation

/-! ### Verifying only looks -/

theorem Action.observes_record (level : LogLevel) (text : String) : Observes (record level text) :=
  fun h => ⟨_, answers_record level text h⟩

theorem KeySizes.observes_recover (s : KeySizes) (handle : KeyHandle) (signature : Bytes) :
    Observes (s.recover handle signature) := by
  unfold recover
  split
  · exact observes_throw _
  · refine (observes_liftExcept _ _).bind fun _ => ?_
    split
    · exact (observes_record _ _).bind fun _ => observes_pure none
    · split
      · exact observes_pure none
      · exact (observes_liftExcept _ _).bind fun _ => observes_pure _
  · exact observes_throw _

namespace Verify

variable (t : Toolkit) (sizes : KeySizes) (key : LoadedKey) (block digest blob : Bytes)

theorem observes_readContainer : Observes (readContainer blob) :=
  fun h => ⟨_, answers_readContainer blob h⟩

theorem observes_matchFrom (index : Nat) (entries : List Signature) :
    Observes (matchFrom sizes key block index entries) := by
  induction entries generalizing index with
  | nil => exact observes_pure false
  | cons s entries ih =>
    rw [matchFrom]
    split
    · exact (observes_record _ _).bind fun _ => ih (index + 1)
    · refine ((sizes.observes_recover _ _).bind fun _ => observes_pure _).bind fun b => ?_
      cases b with
      | false => exact ih (index + 1)
      | true => exact (observes_record _ _).bind fun _ => observes_pure true

theorem observes_matchKeys (entries : List Signature) (keys : List LoadedKey) :
    Observes (matchKeys sizes digest entries keys) := by
  induction keys with
  | nil => exact observes_pure false
  | cons key keys ih =>
    refine (observes_liftExcept _ _).bind fun block =>
      (observes_matchFrom sizes key block 0 entries).bind fun b => ?_
    cases b with
    | false => exact ih
    | true => exact observes_pure true

theorem observes_verifyDigest (paths : List Path) :
    Observes (verifyDigest t blob paths digest) := by
  refine (Observes.mapM (observes_loadPublic t.keySizes) paths).bind fun keys =>
    (observes_readContainer blob).bind fun entries => ?_
  split
  · exact observes_pure false
  · refine (observes_matchKeys t.keySizes digest entries keys).bind fun b => ?_
    cases b with
    | false => exact (observes_record _ _).bind fun _ => observes_pure false
    | true => exact observes_pure true

end Verify

theorem PayloadFile.observes_readRegion (path : Path) (r : Region) : Observes (readRegion path r) :=
  (observes_readContent path).bind fun _ => observes_liftExcept _ _

namespace Sign

open PayloadFile

variable {t : Toolkit} {path : Path} {keys : List Path}

theorem observes_hashSigned : Observes (Plan.hashSigned t path) :=
  (observes_readLayout path).bind fun _ => (observes_liftExcept _ _).bind fun _ =>
    (observes_readRegion path _).bind fun _ => Plan.observes_hashRegions _ _ _ _

theorem observes_checkSignatures {l : Layout} {region : Region} :
    Observes (checkSignatures t path l region keys) := by
  refine observes_hashSigned.bind fun _ => (observes_readRegion path _).bind fun _ =>
    (Verify.observes_verifyDigest t _ _ keys).bind fun b => ?_
  cases b with
  | false => exact observes_pure false
  | true =>
    refine (observes_liftExcept _ _).bind fun region => ?_
    cases region with
    | none => exact observes_pure true
    | some region =>
      exact (observes_readRegion path region).bind fun _ => Verify.observes_verifyDigest t _ _ keys

theorem observes_verifyFile : Observes (verifyFile t path keys) := by
  refine (observes_readLayout path).bind fun l => (observes_liftExcept _ _).bind fun region => ?_
  cases region with
  | none => exact (observes_record _ _).bind fun _ => observes_pure false
  | some region =>
    simp only
    split
    · exact (observes_record _ _).bind fun _ => observes_pure false
    · exact observes_checkSignatures

end Sign

/-! ### What work touches -/

section Touching

variable {α β : Type} {base : Place} {files dirs : Place → Prop} {x : Action α} {f : α → Action β}
  {h h' : Host} {path out : Path} {S M : Option Bytes} {l : Layout} {manifest : Manifest}
  {major : Int} {sig data tail : Bytes} {e : Failure}

theorem Action.touches_of_observes (hx : Observes x) : Touches base files dirs x := by
  refine touches_of_unchanged fun h => ?_
  obtain ⟨r, hr⟩ := hx h
  obtain ⟨log, hlog⟩ := hr.runOn
  exact ⟨r, log, hlog⟩

/-- If `x` fails on `h`, it has written no file, and has made directories at these places at most. -/
def Action.FailsClean (dirs : Place → Prop) (h : Host) (x : Action α) : Prop :=
  ∀ e h', runOn x h = (.error e, h') → Host.Changes (fun _ => False) dirs h h'

theorem Action.failsClean_of_observes (hx : Observes x) (h : Host) : FailsClean dirs h x := by
  intro e h' hr
  exact (touches_of_observes hx).changes hr

theorem Action.FailsClean.bind (hx : Observes x)
    (hf : ∀ a log, Answers x h (.ok a) → FailsClean dirs { h with log } (f a)) :
    FailsClean dirs h (x >>= f) := by
  intro e h' hr
  obtain hrun | ⟨a, h₁, hrun, hr⟩ := runOn_bind_eq_error.1 hr
  · exact failsClean_of_observes hx h e h' hrun
  · obtain ⟨ha, log, rfl⟩ := hx.answers hrun
    have hsame : Host.Changes (fun _ => False) dirs h { h with log } :=
      .of_files_eq rfl rfl rfl rfl
    exact hsame.trans (hf a log ha e h' hr)

theorem Action.FailsClean.bind_of_returns (hx : FailsClean dirs h x)
    (hf : ∀ a h, ∃ b h', runOn (f a) h = (.ok b, h')) : FailsClean dirs h (x >>= f) := by
  intro e h' hr
  obtain hrun | ⟨a, h₁, -, hr⟩ := runOn_bind_eq_error.1 hr
  · exact hx e h' hrun
  · obtain ⟨b, h₂, hb⟩ := hf a h₁
    cases hb.symm.trans hr

namespace PayloadFile

theorem touches_writeParts :
    Touches base (· = out.placeFrom base) (out.LeadsThrough base)
      (writeParts out major manifest sig data tail) :=
  (touches_liftExcept _ _).bind fun _ => (touches_writeAtomically out _).bind fun _ =>
    (touches_record _ _).bind fun _ => (touches_liftExcept _ _).bind fun _ => touches_pure _

theorem failsClean_writeParts
    (hm : ∀ metadata, buildMetadata major manifest sig.length = .ok metadata → manifest.Valid) :
    FailsClean (out.LeadsThrough h.workingDirectory) h
      (writeParts out major manifest sig data tail) := by
  intro e h' hw
  cases hb : buildMetadata major manifest sig.length with
  | error fault =>
    rw [writeParts, hb] at hw
    obtain ⟨-, rfl⟩ := Prod.mk.inj hw
    exact .refl _ _ _
  | ok metadata =>
    cases hwrite : runOn (writeAtomically out (metadata ++ sig ++ data ++ tail)) h with
    | mk r h₁ =>
      cases r with
      | error e' =>
        rw [writeParts, hb] at hw
        obtain ⟨-, rfl⟩ := Prod.mk.inj ((runOn_bind_error hwrite).symm.trans hw)
        exact changes_of_writeAtomically_error hwrite
      | ok _ =>
        -- what was built is read back, so nothing fails behind the write
        obtain ⟨l, hreturns⟩ := writeParts_returns (hm metadata hb) hb hwrite
        obtain ⟨log, hrun⟩ := hreturns.runOn
        cases hrun.symm.trans hw

theorem touches_embedSignatures :
    Touches base (· = out.placeFrom base) (out.LeadsThrough base)
      (embedSignatures path S M out) := by
  refine (touches_of_observes (observes_readLayout path)).bind fun l => ?_
  refine (touches_liftExcept _ _).bind fun _ => (touches_liftExcept _ _).bind fun _ =>
    (touches_liftExcept _ _).bind fun _ => (touches_liftExcept _ _).bind fun _ =>
    (touches_liftExcept _ _).bind fun _ => (touches_liftExcept _ _).bind fun _ =>
    (touches_liftExcept _ _).bind fun _ =>
    (touches_of_observes (observes_readRegion path _)).bind fun _ => ?_
  cases S with
  | none => exact touches_throw _
  | some s => exact touches_writeParts

theorem signedManifest_valid_of_read {n : Int} {s : Bytes} {size : Int} {metadata : Bytes}
    (hl : Answers (readLayout path) h (.ok l)) (hn : l.dataLength = .ok n)
    (hb : buildMetadata major (signedManifest l.manifest n s.length) size = .ok metadata) :
    (signedManifest l.manifest n s.length).Valid := by
  obtain ⟨F, -, hl⟩ := exists_of_readLayout hl
  obtain ⟨md, sig, data, tail, hs⟩ := Layout.splits_of_ofContent hl
  obtain rfl := Except.ok.inj (hs.dataLength_eq.symm.trans hn)
  have hd : (signedManifest l.manifest data.length s.length).Describes data s := .signed rfl rfl
  exact hd.valid (isWritable_of_buildMetadata hb) hs.manifest_valid.pos
    hs.manifest_valid.minorVersion.1

theorem failsClean_embedSignatures :
    FailsClean (out.LeadsThrough h.workingDirectory) h (embedSignatures path S M out) := by
  refine .bind (observes_readLayout path) fun l log hl => ?_
  refine .bind (observes_liftExcept _ _) fun _ log _ => .bind (observes_liftExcept _ _)
    fun _ log _ => .bind (observes_liftExcept _ _) fun _ log _ => .bind (observes_liftExcept _ _)
    fun _ log _ => .bind (observes_liftExcept _ _) fun _ log _ => .bind (observes_liftExcept _ _)
    fun _ log _ => .bind (observes_liftExcept _ _) fun n log hn =>
    .bind (observes_readRegion path _) fun _ log _ => ?_
  have hn := mapError_eq_ok_iff.1 ((answers_liftExcept _ _ _).unique hn)
  cases S with
  | none => exact failsClean_of_observes (observes_throw _) _
  | some s => exact failsClean_writeParts fun metadata hb => signedManifest_valid_of_read hl hn hb

end PayloadFile

namespace Sign

variable {t : Toolkit} {keys : List Path}

theorem touches_signFile :
    Touches base (· = out.placeFrom base) (out.LeadsThrough base) (signFile t path keys out) := by
  rw [signFile_eq]
  exact (touches_of_observes (observes_makeContainers t path keys)).bind fun _ =>
    PayloadFile.touches_embedSignatures.bind fun _ => (touches_record _ _).bind fun _ =>
      touches_pure _

theorem failsClean_signFile :
    FailsClean (out.LeadsThrough h.workingDirectory) h (signFile t path keys out) := by
  rw [signFile_eq]
  refine .bind (observes_makeContainers t path keys) fun _ log _ => ?_
  exact PayloadFile.failsClean_embedSignatures.bind_of_returns fun _ _ => ⟨_, _, rfl⟩

theorem touches_embedContainers :
    Touches base (· = out.placeFrom base) (out.LeadsThrough base)
      (embedContainers path S M out) :=
  (touches_liftExcept _ _).bind fun _ => (touches_liftExcept _ _).bind fun _ =>
    PayloadFile.touches_embedSignatures

theorem failsClean_embedContainers :
    FailsClean (out.LeadsThrough h.workingDirectory) h (embedContainers path S M out) :=
  .bind (observes_liftExcept _ _) fun _ _ _ => .bind (observes_liftExcept _ _) fun _ _ _ =>
    PayloadFile.failsClean_embedSignatures

end Sign

end Touching

/-! ### What is recorded is read back -/

theorem Container.length_le_encode (entries : List Signature) :
    entries.length ≤ (encode entries).length := by
  induction entries with
  | nil => exact Nat.zero_le _
  | cons s entries ih =>
    have hpos := List.length_pos_iff.2
      (Wire.Field.encode_ne_nil ⟨entriesField, .delimited (encodeEntry s)⟩)
    rw [encode, List.flatMap_cons, List.length_append, List.length_cons, ← encode]
    omega

theorem Header.Valid.bounded_signatureSize {header : Header} (hv : header.Valid) :
    Json.Bounded header.metadataSignatureSize := by
  cases hv with
  | first hm => exact (Manifest.natural_of_small (n := 0) (by decide)).2
  | second hm hs => exact (Manifest.natural_of_nat (Nat.lt_of_lt_of_le hs (by decide +kernel))).2

theorem PayloadFile.bounded_of_embedSignatures {h h' : Host} {path out : Path} {s : Bytes}
    {M : Option Bytes} {l' : Layout}
    (hw : runOn (embedSignatures path (some s) M out) h = (.ok l', h')) :
    Json.Bounded s.length ∧ Json.Bounded (M.getD []).length := by
  obtain ⟨F, l, md, sig, data, tail, hr, -, hs⟩ := exists_of_embedSignatures hw
  obtain ⟨metadata, he, -⟩ := exists_embeds hr hs hw
  have hsize : l'.manifest.signaturesSize = some s.length := by
    rw [he.manifest_eq]
    rfl
  constructor
  · exact (he.splits.manifest_valid.signaturesSize _ hsize).2
  · rw [← he.splits.signature_length]
    exact he.splits.header_valid.bounded_signatureSize

theorem Json.storable_sizes {name name' : String} {n n' : Nat} (hname : name ≠ name')
    (hn : Bounded n) (hn' : Bounded n') :
    (Value.obj [(name, .int n), (name', .int n')]).Storable 199 := by
  refine .obj nofun (by simpa using hname) ?_
  simp only [List.forall_mem_cons, List.not_mem_nil, false_implies, implies_true, and_true]
  exact ⟨.int 198 hn, .int 198 hn'⟩

/-- What is recorded of work that was done is read back. -/
def Operation.Readable {α β : Type} (o : Operation α β) : Prop :=
  ∀ {h c h'}, runOn o.work h = (.ok c, h') → (Json.Value.obj (o.args c)).Storable 199

/-! ### The three operations -/

namespace Sign

variable (t : Toolkit) (path : Path) (keys : List Path) (out : Path) (S M : Option Bytes)

def signing : Operation (HashSet × Bytes) HashSet where
  work := signFile t path keys out
  name := "sign_payload"
  inputs := path.spelling :: keys.map Path.spelling
  outputs := fun c => [out.spelling, c.1.payload.hex, c.1.metadata.hex]
  args := fun c =>
    [("key_count", .int keys.length), ("signature_blob_length", .int c.2.length)]
  result := Prod.fst

def embedding : Operation Layout Layout where
  work := embedContainers path S M out
  name := "embed_signatures"
  inputs := [path.spelling]
  outputs := fun _ => [out.spelling]
  args := fun _ =>
    [("payload_signature_size", .int (S.getD []).length),
      ("metadata_signature_size", .int (M.getD []).length)]
  result := id

def verifying : Operation Bool Bool where
  work := verifyFile t path keys
  name := "verify_payload"
  inputs := path.spelling :: keys.map Path.spelling
  outputs := fun _ => []
  args := fun c => [("verified", .bool c)]
  result := id

theorem signPayload_eq : signPayload t path keys out = (signing t path keys out).run := rfl

theorem addSignatures_eq : addSignatures path S M out = (embedding path out S M).run := rfl

theorem verifyPayload_eq : verifyPayload t path keys = (verifying t path keys).run := rfl

theorem readable_signing : (signing t path keys out).Readable := by
  intro h c h' hr
  obtain ⟨hashes, s⟩ := c
  obtain ⟨M, l', h₁, log, hmade, hembed, -⟩ := exists_of_signFile hr
  obtain ⟨hs, -⟩ := PayloadFile.bounded_of_embedSignatures hembed
  -- there is a byte of the container for every key
  have hkeys : keys.length ≤ s.length := by
    obtain ⟨entries, rfl, -, hmade⟩ := made_of_signDigest hmade.payload
    rw [hmade.length_eq]
    exact Container.length_le_encode entries
  have hlength := Json.bounded_natCast.1 hs
  exact Json.storable_sizes (by decide) (Json.bounded_natCast.2 (Nat.lt_of_le_of_lt hkeys hlength)) hs

theorem readable_embedding : (embedding path out S M).Readable := by
  intro h l h' hr
  obtain ⟨-, -, hembed⟩ := runOn_embedContainers_eq_ok.1 hr
  obtain ⟨s, rfl⟩ := PayloadFile.some_of_embedSignatures hembed
  obtain ⟨hs, hM⟩ := PayloadFile.bounded_of_embedSignatures hembed
  exact Json.storable_sizes (by decide) hs hM

theorem readable_verifying : (verifying t path keys).Readable := by
  intro h b h' hr
  exact .obj nofun (List.nodup_singleton _) (List.forall_mem_singleton.2 (.bool 198 b))

end Sign

end UpdateSeal
