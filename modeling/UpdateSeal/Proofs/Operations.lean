import UpdateSeal.Proofs.Observations
import UpdateSeal.Proofs.Recording

/-!
# What signing operations do

Signing makes containers over the hashes of a payload, embeds them, and records the operation; an
offline signer's containers are embedded and recorded likewise. What is made and embedded is the
same whatever was logged before.
-/

namespace UpdateSeal

open UpdateSeal.Action PayloadFile

namespace Sign

variable {t : Toolkit} {path out : Path} {keys : List Path} {sink sink' : Sink} {h h' : Host}
variable {l l' : Layout} {hashes : HashSet} {s : Bytes} {M : Option Bytes}

def signMetadata (t : Toolkit) (major : Int) (digest : Bytes) (keys : List Path) :
    Action (Option Bytes) :=
  if major = 2 then some <$> signDigest t digest keys else pure none

/-- The hashes of a payload, and the containers over them that signing embeds. -/
def makeContainers (t : Toolkit) (path : Path) (keys : List Path) :
    Action (HashSet × Bytes × Option Bytes) := do
  let layout ← readLayout path
  let sizes ← Plan.signatureSizes t keys
  let hashes ← Plan.hashForSigning t path sizes
  let payloadSignature ← signDigest t hashes.payload keys
  let metadataSignature ← signMetadata t layout.header.major hashes.metadata keys
  return (hashes, payloadSignature, metadataSignature)

theorem signFile_eq (t : Toolkit) (path : Path) (keys : List Path) (out : Path) :
    signFile t path keys out = do
      let (hashes, payloadSignature, metadataSignature) ← makeContainers t path keys
      let _ ← embedSignatures path (some payloadSignature) metadataSignature out
      Action.record .info s!"Signed payload {path} with {keys.length} key(s) -> {out}"
      return (hashes, payloadSignature) := by
  simp only [signFile, makeContainers, signMetadata, bind_assoc, pure_bind]
  refine bind_congr fun layout => bind_congr fun sizes => bind_congr fun hashes =>
    bind_congr fun payloadSignature => ?_
  split
  · rfl
  · rw [pure_bind]

theorem observes_signMetadata (t : Toolkit) (major : Int) (digest : Bytes) (keys : List Path) :
    Observes (signMetadata t major digest keys) := by
  unfold signMetadata
  split
  · exact (observes_signDigest t digest keys).bind fun _ => observes_pure _
  · exact observes_pure none

theorem observes_makeContainers (t : Toolkit) (path : Path) (keys : List Path) :
    Observes (makeContainers t path keys) :=
  (observes_readLayout path).bind fun _ => (Plan.observes_signatureSizes t keys).bind fun _ =>
    (Plan.observes_hashForSigning t path _).bind fun _ => (observes_signDigest t _ keys).bind
      fun _ => (observes_signMetadata t _ _ keys).bind fun _ => observes_pure _

/-- The steps by which containers are made. -/
structure Made (t : Toolkit) (h : Host) (path : Path) (keys : List Path) (hashes : HashSet)
    (s : Bytes) (M : Option Bytes) : Prop where
  hashed : ∃ sizes, Answers (Plan.signatureSizes t keys) h (.ok sizes) ∧
    Answers (Plan.hashForSigning t path sizes) h (.ok hashes)
  payload : Answers (signDigest t hashes.payload keys) h (.ok s)
  metadata : ∃ l, Answers (readLayout path) h (.ok l) ∧
    Answers (signMetadata t l.header.major hashes.metadata keys) h (.ok M)

theorem answers_makeContainers_iff :
    Answers (makeContainers t path keys) h (.ok (hashes, s, M)) ↔ Made t h path keys hashes s M := by
  constructor
  · intro hmade
    obtain ⟨log, hmade⟩ := hmade.runOn
    obtain ⟨l, log, hl, hmade⟩ := (observes_readLayout path).runOn_bind hmade
    obtain ⟨sizes, log, hsizes, hmade⟩ := (Plan.observes_signatureSizes t keys).runOn_bind hmade
    obtain ⟨hashes, log, hhashes, hmade⟩ :=
      (Plan.observes_hashForSigning t path sizes).runOn_bind hmade
    obtain ⟨s, log, hs, hmade⟩ := (observes_signDigest t hashes.payload keys).runOn_bind hmade
    obtain ⟨M, log, hM, hmade⟩ := (observes_signMetadata t _ _ keys).runOn_bind hmade
    cases hmade
    exact ⟨⟨sizes, hsizes, hhashes⟩, hs, l, hl, hM⟩
  · intro hmade
    obtain ⟨⟨sizes, hsizes, hhashes⟩, hs, l, hl, hM⟩ := hmade
    exact hl.bind (hsizes.bind (hhashes.bind (hs.bind (hM.bind (answers_pure _ h)))))

/-! ### What is embedded -/

theorem exists_of_signFile (hr : runOn (signFile t path keys out) h = (.ok (hashes, s), h')) :
    ∃ M l' h₁ log, Made t h path keys hashes s M ∧
      runOn (embedSignatures path (some s) M out) h = (.ok l', h₁) ∧ h' = { h₁ with log } := by
  rw [signFile_eq] at hr
  obtain ⟨⟨hashes, s, M⟩, log, hmade, hr⟩ := (observes_makeContainers t path keys).runOn_bind hr
  obtain ⟨l', h₁, hembed, hr⟩ := runOn_bind_eq_ok.1 hr
  obtain ⟨log', hembed⟩ := returns_of_embedSignatures hembed h.log
  cases hr
  exact ⟨M, l', _, _, answers_makeContainers_iff.1 hmade, hembed, rfl⟩

theorem returns_signFile_of_made {h₁ : Host} (hmade : Made t h path keys hashes s M)
    (hembed : runOn (embedSignatures path (some s) M out) h = (.ok l', h₁)) :
    Returns (signFile t path keys out) h (hashes, s) h₁ := by
  rw [signFile_eq]
  refine (answers_makeContainers_iff.2 hmade).returns.bind ?_
  refine (returns_of_embedSignatures hembed).bind ?_
  exact Answers.returns ((answers_record _ _ h₁).bind (answers_pure _ h₁))

theorem runOn_embedContainers_eq_ok {S : Option Bytes} :
    runOn (embedContainers path S M out) h = (.ok l', h') ↔
      checkContainer "payload" S = .ok () ∧ checkContainer "metadata" M = .ok () ∧
        runOn (embedSignatures path S M out) h = (.ok l', h') := by
  rw [embedContainers]
  simp only [runOn_liftExcept_bind_eq_ok]
  constructor
  · intro hr
    obtain ⟨_, hs, _, hM, hr⟩ := hr
    exact ⟨hs, hM, hr⟩
  · intro hr
    obtain ⟨hs, hM, hr⟩ := hr
    exact ⟨(), hs, (), hM, hr⟩

/-! ### What is recorded -/

variable {operation : String} {texts : List LooseText} {args : Json.Members} {b : Bytes}

/-- The operation was recorded on `h` with these texts of its inputs and outputs, whatever had been
logged there, and this left `h'`. -/
def Records (operation : String) (texts : List LooseText) (args : Json.Members) (sink : Sink)
    (h : Host) (sink' : Sink) (h' : Host) : Prop :=
  ∃ inputs outputs log e, inputs ++ outputs = texts ∧
    runOn ((Sink.log operation inputs outputs args).run sink) { h with log } = (.ok (e, sink'), h')

theorem Records.canRecord (hr : Records operation texts args sink h sink' h') :
    sink.CanRecord texts h := by
  obtain ⟨_, _, log, e, rfl, hlog⟩ := hr
  have hrecord := Sink.canRecord_of_log hlog
  exact hrecord

theorem Records.spares_iff (hr : Records operation texts args sink h sink' h') (hb : h.Holds out b) :
    sink'.Spares h' out ↔ sink.Spares h out := by
  obtain ⟨_, _, log, e, -, hlog⟩ := hr
  have hb : ({ h with log } : Host).Holds out b := hb
  have hiff := Sink.spares_log_iff hlog hb
  exact hiff

theorem Records.holds (hr : Records operation texts args sink h sink' h') (hb : h.Holds out b)
    (hspare : sink.Spares h out) : h'.Holds out b := by
  obtain ⟨_, _, log, e, -, hlog⟩ := hr
  have hb : ({ h with log } : Host).Holds out b := hb
  exact Sink.holds_of_log hlog hb hspare

theorem Records.holds_of_spares (hr : Records operation texts args sink h sink' h')
    (hb : h.Holds out b) (hspare : sink'.Spares h' out) : h'.Holds out b :=
  hr.holds hb ((hr.spares_iff hb).1 hspare)

/-- The texts that the record of a signing operation holds. -/
def signingTexts (path : Path) (keys : List Path) (out : Path) (hashes : HashSet) : List LooseText :=
  (path :: keys).map Path.spelling ++ [out.spelling, hashes.payload.hex, hashes.metadata.hex]

/-- Digests can always be written, so what counts are the names of the files. -/
theorem canRecord_signingTexts_iff :
    sink.CanRecord (signingTexts path keys out hashes) h ↔
      sink.CanRecord ((path :: out :: keys).map Path.spelling) h := by
  simp only [Sink.CanRecord, signingTexts, List.map_cons, List.cons_append, List.forall_mem_cons,
    List.forall_mem_append, LooseText.isString_string, List.not_mem_nil, false_implies, implies_true,
    and_true]
  refine forall₂_congr fun l _ => ?_
  tauto

theorem runOn_signPayload_eq_ok :
    runOn ((signPayload t path keys out).run sink) h = (.ok (hashes, sink'), h') ↔
      ∃ s h₁ e, runOn (signFile t path keys out) h = (.ok (hashes, s), h₁) ∧
        runOn ((Sink.log "sign_payload" (path.spelling :: keys.map Path.spelling)
          [out.spelling, hashes.payload.hex, hashes.metadata.hex]
          [("key_count", .int keys.length), ("signature_blob_length", .int s.length)]).run sink)
            h₁ = (.ok (e, sink'), h') := by
  rw [signPayload, runOn_recorded_eq_ok (f := Prod.fst)]
  constructor
  · intro hr
    obtain ⟨⟨hashes, s⟩, h₁, e, hsign, hlog, rfl⟩ := hr
    exact ⟨s, h₁, e, hsign, hlog⟩
  · intro hr
    obtain ⟨s, h₁, e, hsign, hlog⟩ := hr
    exact ⟨⟨hashes, s⟩, h₁, e, hsign, hlog, rfl⟩

theorem exists_of_signPayload
    (hr : runOn ((signPayload t path keys out).run sink) h = (.ok (hashes, sink'), h')) :
    ∃ s M l' h₁, Made t h path keys hashes s M ∧
      runOn (embedSignatures path (some s) M out) h = (.ok l', h₁) ∧
      Records "sign_payload" (signingTexts path keys out hashes) [("key_count", .int keys.length),
        ("signature_blob_length", .int s.length)] sink h₁ sink' h' := by
  obtain ⟨s, _, e, hsign, hlog⟩ := runOn_signPayload_eq_ok.1 hr
  obtain ⟨M, l', h₁, log, hmade, hembed, rfl⟩ := exists_of_signFile hsign
  exact ⟨s, M, l', h₁, hmade, hembed, _, _, log, e, rfl, hlog⟩

/-- What is signed has names that can be recorded. -/
theorem spells_of_signPayload
    (hr : runOn ((signPayload t path keys out).run sink) h = (.ok (hashes, sink'), h')) :
    sink.Spells (path :: out :: keys) := by
  obtain ⟨s, M, l', h₁, -, -, hrecord⟩ := exists_of_signPayload hr
  exact (canRecord_signingTexts_iff.1 hrecord.canRecord).spells

theorem signPayload_of_made {h₁ : Host} (hmade : Made t h path keys hashes s M)
    (hembed : runOn (embedSignatures path (some s) M out) h = (.ok l', h₁))
    (hrecord : sink.CanRecord ((path :: out :: keys).map Path.spelling) h₁) :
    ∃ sink' h', runOn ((signPayload t path keys out).run sink) h = (.ok (hashes, sink'), h') ∧
      Records "sign_payload" (signingTexts path keys out hashes) [("key_count", .int keys.length),
        ("signature_blob_length", .int s.length)] sink h₁ sink' h' := by
  obtain ⟨log, hsign⟩ := (returns_signFile_of_made hmade hembed).runOn
  have hrecord : sink.CanRecord (signingTexts path keys out hashes) { h₁ with log } :=
    canRecord_signingTexts_iff.2 hrecord
  obtain ⟨e, sink', h', hlog, -⟩ := Sink.log_returns "sign_payload"
    (path.spelling :: keys.map Path.spelling)
    [out.spelling, hashes.payload.hex, hashes.metadata.hex] [("key_count", .int keys.length),
      ("signature_blob_length", .int s.length)] hrecord
  exact ⟨sink', h', runOn_signPayload_eq_ok.2 ⟨s, _, e, hsign, hlog⟩, _, _, log, e, rfl, hlog⟩

theorem runOn_addSignatures_eq_ok {S : Option Bytes} :
    runOn ((addSignatures path S M out).run sink) h = (.ok (l', sink'), h') ↔
      ∃ h₁ e, runOn (embedContainers path S M out) h = (.ok l', h₁) ∧
        runOn ((Sink.log "embed_signatures" [path.spelling] [out.spelling]
          [("payload_signature_size", .int (S.getD []).length),
            ("metadata_signature_size", .int (M.getD []).length)]).run sink) h₁ =
              (.ok (e, sink'), h') := by
  rw [addSignatures, runOn_recorded_eq_ok (f := fun l => l)]
  constructor
  · intro hr
    obtain ⟨l, h₁, e, hembed, hlog, rfl⟩ := hr
    exact ⟨h₁, e, hembed, hlog⟩
  · intro hr
    obtain ⟨h₁, e, hembed, hlog⟩ := hr
    exact ⟨l', h₁, e, hembed, hlog, rfl⟩

end Sign

end UpdateSeal
