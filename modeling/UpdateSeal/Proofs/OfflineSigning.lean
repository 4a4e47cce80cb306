import UpdateSeal.Proofs.Appending
import UpdateSeal.Proofs.HashSets
import UpdateSeal.Proofs.RecordedWork
import UpdateSeal.Proofs.Signings

/-!
# Signing offline

The hashes of a payload can be carried to a signer as a document, and the containers that come back
be embedded. This succeeds exactly if signing in one step does, and leaves the same file, unless
that file is the ledger: there the two operations are recorded by different entries. Only the record of
signing in one step names the keys, so only it fails where their names cannot be written.
-/

namespace UpdateSeal

open UpdateSeal.Action PayloadFile

namespace Sign

variable {t : Toolkit} {path out : Path} {keys : List Path} {sink sink' : Sink} {h h' : Host}
variable {l' : Layout} {hashes : HashSet} {digest s b : Bytes} {M : Option Bytes}

/-- The containers of an offline signer, who is given the hashes of a payload as a document. -/
def offlineContainers (t : Toolkit) (path : Path) (keys : List Path) :
    Action (Bytes × Option Bytes) := do
  let sizes ← Plan.signatureSizes t keys
  let planned ← Plan.hashForSigning t path sizes
  let hashes ← Action.liftExcept .hashSet (HashSet.ofJson planned.toJson)
  let payloadSignature ← signDigest t hashes.payload keys
  let layout ← readLayout path
  let metadataSignature ← signMetadata t layout.header.major hashes.metadata keys
  return (payloadSignature, metadataSignature)

def signOffline (t : Toolkit) (path : Path) (keys : List Path) (out : Path) : Auditing Layout := do
  let containers ← (offlineContainers t path keys : Action _)
  addSignatures path (some containers.1) containers.2 out

theorem observes_offlineContainers (t : Toolkit) (path : Path) (keys : List Path) :
    Observes (offlineContainers t path keys) :=
  (Plan.observes_signatureSizes t keys).bind fun _ => (Plan.observes_hashForSigning t path _).bind
    fun _ => (observes_liftExcept _ _).bind fun _ => (observes_signDigest t _ keys).bind fun _ =>
      (observes_readLayout path).bind fun _ => (observes_signMetadata t _ _ keys).bind fun _ =>
        observes_pure _

/-- The document gives the signer the hashes that were planned, so the containers are those that
signing makes. -/
theorem answers_offlineContainers_iff :
    Answers (offlineContainers t path keys) h (.ok (s, M)) ↔
      ∃ hashes, Made t h path keys hashes s M := by
  constructor
  · intro hmade
    obtain ⟨log, hmade⟩ := hmade.runOn
    obtain ⟨sizes, log, hsizes, hmade⟩ := (Plan.observes_signatureSizes t keys).runOn_bind hmade
    obtain ⟨planned, log, hplanned, hmade⟩ :=
      (Plan.observes_hashForSigning t path sizes).runOn_bind hmade
    obtain ⟨hashes, hread, hmade⟩ := runOn_liftExcept_bind_eq_ok.1 hmade
    obtain rfl := Except.ok.inj (planned.ofJson_toJson.symm.trans hread)
    obtain ⟨s, log, hs, hmade⟩ := (observes_signDigest t planned.payload keys).runOn_bind hmade
    obtain ⟨l, log, hl, hmade⟩ := (observes_readLayout path).runOn_bind hmade
    obtain ⟨M, log, hM, hmade⟩ := (observes_signMetadata t _ _ keys).runOn_bind hmade
    cases hmade
    exact ⟨planned, ⟨sizes, hsizes, hplanned⟩, hs, l, hl, hM⟩
  · intro hmade
    obtain ⟨hashes, ⟨sizes, hsizes, hhashes⟩, hs, l, hl, hM⟩ := hmade
    exact hsizes.bind (hhashes.bind ((answers_liftExcept_ok hashes.ofJson_toJson h).bind
      (hs.bind (hl.bind (hM.bind (answers_pure _ h))))))

/-! ### Containers that may be embedded -/

theorem checkContainer_of_made (hs : Answers (signDigest t digest keys) h (.ok s)) (name : String) :
    checkContainer name (some s) = .ok () := by
  obtain ⟨entries, rfl, hne, hmade⟩ := made_of_signDigest hs
  simp only [checkContainer, decode_encode_signatures hmade, ok_bind]
  rw [List.isEmpty_eq_false_iff.2 hne]
  rfl

theorem checkContainer_of_signMetadata {major : Int}
    (hM : Answers (signMetadata t major digest keys) h (.ok M)) (name : String) :
    checkContainer name M = .ok () := by
  unfold signMetadata at hM
  split at hM
  · obtain ⟨log, hM⟩ := hM.runOn
    obtain ⟨m, log, hm, hM⟩ := (observes_signDigest t digest keys).runOn_bind hM
    cases hM
    exact checkContainer_of_made hm name
  · obtain rfl : none = M := Except.ok.inj ((answers_pure none h).unique hM)
    rfl

/-! ### The two flows -/

/-- The containers that signing makes were embedded, and this left `h'`. -/
structure Embedded (t : Toolkit) (path : Path) (keys : List Path) (out : Path) (h : Host) (s : Bytes)
    (M : Option Bytes) (h' : Host) : Prop where
  made : ∃ hashes, Made t h path keys hashes s M
  embedded : ∃ l, runOn (embedSignatures path (some s) M out) h = (.ok l, h')

def signArgs (keys : List Path) (s : Bytes) : Json.Members :=
  [("key_count", .int keys.length), ("signature_blob_length", .int s.length)]

def embedArgs (s : Bytes) (M : Option Bytes) : Json.Members :=
  [("payload_signature_size", .int s.length), ("metadata_signature_size", .int (M.getD []).length)]

variable {operation : String} {args : Json.Members} {h₁ h₂ : Host}

theorem Embedded.unique {s' : Bytes} {M' : Option Bytes}
    (he : Embedded t path keys out h s M h₁) (he' : Embedded t path keys out h s' M' h₂) :
    s = s' ∧ M = M' ∧ h₁ = h₂ := by
  obtain ⟨⟨hashes, hmade⟩, l, hembed⟩ := he
  obtain ⟨⟨hashes', hmade'⟩, l', hembed'⟩ := he'
  have hsame :=
    (answers_makeContainers_iff.2 hmade).unique (answers_makeContainers_iff.2 hmade')
  cases hsame
  exact ⟨rfl, rfl, (Prod.mk.inj (hembed.symm.trans hembed')).2⟩

theorem Embedded.exists_holds (he : Embedded t path keys out h s M h₁) : ∃ b, h₁.Holds out b := by
  obtain ⟨-, l, hembed⟩ := he
  exact holds_of_embedSignatures hembed

theorem embedded_of_signPayload
    (hr : runOn ((signPayload t path keys out).run sink) h = (.ok (hashes, sink'), h')) :
    ∃ s M h₁, Embedded t path keys out h s M h₁ ∧
      sink.CanRecord ((path :: out :: keys).map Path.spelling) h₁ ∧
      ∃ texts, Records "sign_payload" texts (signArgs keys s) sink h₁ sink' h' := by
  obtain ⟨s, M, l', h₁, hmade, hembed, hrecord⟩ := exists_of_signPayload hr
  exact ⟨s, M, h₁, ⟨⟨hashes, hmade⟩, l', hembed⟩, canRecord_signingTexts_iff.1 hrecord.canRecord,
    _, hrecord⟩

theorem signPayload_of_embedded (he : Embedded t path keys out h s M h₁)
    (hrecord : sink.CanRecord ((path :: out :: keys).map Path.spelling) h₁) :
    ∃ r h', runOn ((signPayload t path keys out).run sink) h = (.ok r, h') := by
  obtain ⟨⟨hashes, hmade⟩, l', hembed⟩ := he
  obtain ⟨sink', h', hr, -⟩ := signPayload_of_made hmade hembed hrecord
  exact ⟨_, h', hr⟩

theorem embedded_of_signOffline
    (hr : runOn ((signOffline t path keys out).run sink) h = (.ok (l', sink'), h')) :
    ∃ s M h₁, Embedded t path keys out h s M h₁ ∧
      Records "embed_signatures" [path.spelling, out.spelling] (embedArgs s M) sink h₁ sink' h' := by
  rw [signOffline, runOn_lift_bind] at hr
  cases hcontainers : runOn (offlineContainers t path keys) h with
  | mk r h₀ =>
    rw [hcontainers] at hr
    cases r with
    | error fault => cases hr
    | ok containers =>
      obtain ⟨s, M⟩ := containers
      obtain ⟨hanswers, log, rfl⟩ := (observes_offlineContainers t path keys).answers hcontainers
      obtain ⟨hashes, hmade⟩ := answers_offlineContainers_iff.1 hanswers
      obtain ⟨h₁, e, hadd, hlog⟩ := runOn_addSignatures_eq_ok.1 hr
      obtain ⟨-, -, hembed⟩ := runOn_embedContainers_eq_ok.1 hadd
      obtain ⟨log', hembed⟩ := returns_of_embedSignatures hembed h.log
      exact ⟨s, M, _, ⟨⟨hashes, hmade⟩, l', hembed⟩, _, _, h₁.log, e, rfl, hlog⟩

theorem signOffline_of_embedded (he : Embedded t path keys out h s M h₁)
    (hrecord : sink.CanRecord [path.spelling, out.spelling] h₁) :
    ∃ r h', runOn ((signOffline t path keys out).run sink) h = (.ok r, h') := by
  obtain ⟨⟨hashes, hmade⟩, l', hembed⟩ := he
  have hs := checkContainer_of_made hmade.payload "payload"
  obtain ⟨l, -, hM⟩ := hmade.metadata
  have hM := checkContainer_of_signMetadata hM "metadata"
  obtain ⟨log, hmade⟩ := (answers_offlineContainers_iff.2 ⟨hashes, hmade⟩).runOn
  obtain ⟨log', hembed⟩ := returns_of_embedSignatures hembed log
  have hcontainers := runOn_embedContainers_eq_ok.2 ⟨hs, hM, hembed⟩
  have hrecord : sink.CanRecord ([path.spelling] ++ [out.spelling]) { h₁ with log := log' } := hrecord
  obtain ⟨e, sink', h', hlog, -⟩ :=
    Sink.log_returns "embed_signatures" [path.spelling] [out.spelling] (embedArgs s M) hrecord
  refine ⟨(l', sink'), h', ?_⟩
  rw [signOffline, runOn_lift_bind, hmade]
  exact runOn_addSignatures_eq_ok.2 ⟨_, e, hcontainers, hlog⟩

/-- Signing in one step returns exactly if offline signing does and the names of the keys can be
recorded, and where the output is not the ledger both leave the same file. -/
theorem signOffline_agrees (t : Toolkit) (path : Path) (keys : List Path) (out : Path) (sink : Sink)
    (h : Host) :
    ((∃ r h', runOn ((signPayload t path keys out).run sink) h = (.ok r, h')) ↔
      (∃ r h', runOn ((signOffline t path keys out).run sink) h = (.ok r, h')) ∧
        sink.Spells keys) ∧
    ∀ l hashes sink₁ sink₂ h₁ h₂,
      runOn ((signOffline t path keys out).run sink) h = (.ok (l, sink₁), h₁) →
      runOn ((signPayload t path keys out).run sink) h = (.ok (hashes, sink₂), h₂) →
      sink₂.Spares h₂ out → ∃ b, h₁.Holds out b ∧ h₂.Holds out b := by
  refine ⟨⟨?_, ?_⟩, ?_⟩
  · intro hr
    obtain ⟨⟨hashes, sink'⟩, h', hr⟩ := hr
    obtain ⟨s, M, h₁, he, hrecord, -⟩ := embedded_of_signPayload hr
    have hboth : sink.CanRecord ([path.spelling, out.spelling] ++ keys.map Path.spelling) h₁ := hrecord
    obtain ⟨hrecord, hspells⟩ := Sink.canRecord_append_iff.1 hboth
    exact ⟨signOffline_of_embedded he hrecord, hspells⟩
  · intro hr
    obtain ⟨⟨⟨l, sink'⟩, h', hr⟩, hspells⟩ := hr
    obtain ⟨s, M, h₁, he, hrecord⟩ := embedded_of_signOffline hr
    exact signPayload_of_embedded he (Sink.canRecord_append_iff.2 ⟨hrecord.canRecord, hspells⟩)
  · intro l hashes sink₁ sink₂ h₁ h₂ hoffline honline hspare
    obtain ⟨s, M, h₀, he, hrecord⟩ := embedded_of_signOffline hoffline
    obtain ⟨s', M', h₀', he', -, _, hrecord'⟩ := embedded_of_signPayload honline
    obtain ⟨-, -, rfl⟩ := he.unique he'
    obtain ⟨b, hb⟩ := he.exists_holds
    have hspare := (hrecord'.spares_iff hb).1 hspare
    exact ⟨b, hrecord.holds hb hspare, hrecord'.holds hb hspare⟩

theorem Embedded.length_le {n : Nat}
    (hblock : ∀ modulus, t.keySizes.Supports modulus → 62 ≤ Rsa.byteLength modulus)
    (hn : Answers (Plan.blobLength t keys) h (.ok n)) (he : Embedded t path keys out h s M h₁) :
    s.length ≤ n ∧ (M.getD []).length ≤ n := by
  obtain ⟨⟨hashes, -, hs, l, -, hM⟩, -⟩ := he
  have hlength : ∀ {digest blob : Bytes}, digest.length = digestSize →
      Answers (signDigest t digest keys) h (.ok blob) → blob.length ≤ n := by
    intro digest blob hd hblob
    obtain ⟨entries, hsigned, rfl⟩ := signed_of_predicted hblock hn hd
    cases hsigned.blob.unique hblob
    exact Nat.le_refl _
  refine ⟨hlength hashes.length_payload hs, ?_⟩
  unfold signMetadata at hM
  split at hM
  · obtain ⟨log, hM⟩ := hM.runOn
    obtain ⟨m, log, hm, hM⟩ := (observes_signDigest t hashes.metadata keys).runOn_bind hM
    cases hM
    exact hlength hashes.length_metadata hm
  · obtain rfl : none = M := Except.ok.inj ((answers_pure none h).unique hM)
    exact Nat.zero_le n

end Sign

/-! ### Where the output is the ledger -/

theorem Entry.operation_eq_of_line_eq {e e' : Entry} (he : e.Recordable) (he' : e'.Recordable)
    (hline : e.line = e'.line) : e.operation = e'.operation := by
  have hread := ofLine_line he
  rw [hline, ofLine_line he'] at hread
  exact (congrArg Entry.operation (Except.ok.inj hread)).symm

namespace Ledger

theorem line_eq_of_append_eq {e e' : Entry} {b : Bytes}
    (h : b ++ Bytes.ofText (String.ofList (e.line ++ ['\n'])) =
      b ++ Bytes.ofText (String.ofList (e'.line ++ ['\n']))) : e.line = e'.line := by
  have htext := Bytes.ofText_injective (List.append_cancel_left h)
  have hlines := congrArg String.toList htext
  rw [String.toList_ofList, String.toList_ofList] at hlines
  exact List.append_cancel_right hlines

variable {l l' : Ledger} {h h₁ h₂ : Host} {e : Entry} {operation operation' : String}
variable {inputs outputs : List String} {texts texts' : List LooseText} {args args' : Json.Members}

theorem recordable_of_log (htail : l.tail = {}) (hargs : (Json.Value.obj args).Storable 199)
    (hlog : runOn (l.log operation inputs outputs args) h = (.ok (l', e), h₁)) :
    e.Recordable ∧ e.operation = operation := by
  obtain ⟨rfl, -⟩ := runOn_log_eq_ok hlog
  rw [htail]
  exact ⟨storable_nextEntry .nil (Nat.le_refl 0) (by decide +kernel) hargs _ _ _ _, rfl⟩

/-- Different operations that are recorded first leave different ledgers. -/
theorem not_holds_of_records {sink sink' : Sink} {b : Bytes} (htail : l.tail = {})
    (hb : h.Holds l.path b) (hne : operation ≠ operation')
    (hargs : (Json.Value.obj args).Storable 199) (hargs' : (Json.Value.obj args').Storable 199)
    (hr : Sign.Records operation texts args (.audit l) h sink h₁)
    (hr' : Sign.Records operation' texts' args' (.audit l) h sink' h₂) :
    ¬ ∃ c, h₁.Holds l.path c ∧ h₂.Holds l.path c := by
  intro hsame
  obtain ⟨c, hc, hc'⟩ := hsame
  obtain ⟨_, _, log, x, -, hlog⟩ := hr
  obtain ⟨_, _, log', x', -, hlog'⟩ := hr'
  obtain ⟨_, _, l₁, e, -, -, hlog⟩ := exists_of_log_audit hlog
  obtain ⟨_, _, l₂, e', -, -, hlog'⟩ := exists_of_log_audit hlog'
  have hb₁ : ({ h with log } : Host).Holds l.path b := hb
  have hb₂ : ({ h with log := log' } : Host).Holds l.path b := hb
  -- each ledger is the same file with one line behind it
  have hcontent := (holds_of_log hb₁ hlog).symm.trans
    (hc.trans (hc'.symm.trans (holds_of_log hb₂ hlog')))
  have hline := line_eq_of_append_eq (Except.ok.inj hcontent)
  obtain ⟨he, hop⟩ := recordable_of_log htail hargs hlog
  obtain ⟨he', hop'⟩ := recordable_of_log htail hargs' hlog'
  rw [← hop, ← hop'] at hne
  exact hne (Entry.operation_eq_of_line_eq he he' hline)

end Ledger

namespace Sample

theorem embedded {h : Host} {key : Path} (hk : app.toolkit.keySizes.PrivateAt h key privateKey)
    (hholds : h.Holds ⟨false, ["payload"]⟩ payload) (out : Path)
    (hw : ∀ content, ∃ h', runOn (writeAtomically out content) h = (.ok (), h')) :
    ∃ s M h₁, Sign.Embedded app.toolkit ⟨false, ["payload"]⟩ [key] out h s M h₁ := by
  obtain ⟨metadata, m, data, s, -, -, h', hsign, -⟩ := Sign.returns_signFile app_started.chunk_pos
    app_started.room_for_block hholds payload_addressable (payload_splits.ofContent_eq _)
    (answers_blobLength hk) (layout_hasRoom 149) (by decide) hw
  obtain ⟨log, hrun⟩ := hsign.runOn
  obtain ⟨M, l', h₁, log', hmade, hembed, -⟩ := Sign.exists_of_signFile hrun
  exact ⟨s, M, h₁, ⟨_, hmade⟩, l', hembed⟩

theorem payload_signOffline :
    ∃ l hashes sink₁ sink₂ h₁ h₂,
      runOn ((Sign.signOffline app.toolkit ⟨false, ["payload"]⟩ [⟨false, ["key"]⟩]
        ⟨false, ["signed"]⟩).run .silent) (host payload) = (.ok (l, sink₁), h₁) ∧
      runOn ((Sign.signPayload app.toolkit ⟨false, ["payload"]⟩ [⟨false, ["key"]⟩]
        ⟨false, ["signed"]⟩).run .silent) (host payload) = (.ok (hashes, sink₂), h₂) ∧
      ∃ b, h₁.Holds ⟨false, ["signed"]⟩ b ∧ h₂.Holds ⟨false, ["signed"]⟩ b := by
  obtain ⟨s, M, h₀, he⟩ := embedded (privateAt payload) rfl ⟨false, ["signed"]⟩ fun content => ⟨_, rfl⟩
  have hrecord := Sink.canRecord_silent ["payload", "signed", "key"] h₀
  obtain ⟨⟨hashes, sink₂⟩, h₂, honline⟩ := Sign.signPayload_of_embedded he hrecord
  obtain ⟨hiff, hsame⟩ := Sign.signOffline_agrees app.toolkit ⟨false, ["payload"]⟩
    [⟨false, ["key"]⟩] ⟨false, ["signed"]⟩ .silent (host payload)
  obtain ⟨⟨⟨l, sink₁⟩, h₁, hoffline⟩, -⟩ := hiff.1 ⟨_, _, honline⟩
  obtain ⟨_, _, _, -, -, _, hrecords⟩ := Sign.embedded_of_signPayload honline
  obtain ⟨_, _, log, e, -, hlog⟩ := hrecords
  have hspare : sink₂.Spares h₂ ⟨false, ["signed"]⟩ := by
    cases hlog
    exact nofun
  exact ⟨l, hashes, sink₁, sink₂, h₁, h₂, hoffline, honline,
    hsame l hashes sink₁ sink₂ h₁ h₂ hoffline honline hspare⟩

theorem storable_sizes {name name' : String} {n n' : Nat} (hname : name ≠ name') (hn : n ≤ 149)
    (hn' : n' ≤ 149) : (Json.Value.obj [(name, .int n), (name', .int n')]).Storable 199 := by
  have hbounded : ∀ {k : Nat}, k ≤ 149 → Json.Bounded k := fun hk =>
    (Manifest.natural_of_small (by omega)).2
  refine .obj nofun (by simpa using hname) ?_
  simp only [List.forall_mem_cons, List.not_mem_nil, false_implies, implies_true, and_true]
  exact ⟨.int 198 (hbounded hn), .int 198 (hbounded hn')⟩

/-- Signed into the ledger, a payload does not become the same file either way. -/
theorem ledger_signOffline_differs :
    ∃ l hashes sink₁ sink₂ h₁ h₂,
      runOn ((Sign.signOffline app.toolkit ⟨false, ["payload"]⟩ [⟨false, ["key"]⟩]
        Ledger.ledgerPath).run (.audit ⟨Ledger.ledgerPath, [7], {}⟩)) (host payload) =
          (.ok (l, sink₁), h₁) ∧
      runOn ((Sign.signPayload app.toolkit ⟨false, ["payload"]⟩ [⟨false, ["key"]⟩]
        Ledger.ledgerPath).run (.audit ⟨Ledger.ledgerPath, [7], {}⟩)) (host payload) =
          (.ok (hashes, sink₂), h₂) ∧
      ¬ ∃ b, h₁.Holds Ledger.ledgerPath b ∧ h₂.Holds Ledger.ledgerPath b := by
  obtain ⟨s, M, h₀, he⟩ := embedded (privateAt payload) rfl Ledger.ledgerPath fun content => ⟨_, rfl⟩
  obtain ⟨b, hb⟩ := he.exists_holds
  have hrecord : ∀ texts : List String,
      Sink.CanRecord (.audit ⟨Ledger.ledgerPath, [7], {}⟩) (texts.map .string) h₀ :=
    fun texts => Sink.canRecord_of_holds hb (by simp)
  obtain ⟨⟨l, sink₁⟩, h₁, hoffline⟩ := Sign.signOffline_of_embedded he (hrecord ["payload", "ledger"])
  obtain ⟨⟨hashes, sink₂⟩, h₂, honline⟩ :=
    Sign.signPayload_of_embedded he (hrecord ["payload", "ledger", "key"])
  refine ⟨l, hashes, sink₁, sink₂, h₁, h₂, hoffline, honline, ?_⟩
  obtain ⟨s₁, M₁, _, he₁, hrecords₁⟩ := Sign.embedded_of_signOffline hoffline
  obtain ⟨s₂, M₂, _, he₂, -, _, hrecords₂⟩ := Sign.embedded_of_signPayload honline
  obtain ⟨rfl, rfl, rfl⟩ := he.unique he₁
  obtain ⟨rfl, rfl, rfl⟩ := he.unique he₂
  obtain ⟨hs, hM⟩ := he.length_le app_started.room_for_block (answers_blobLength (privateAt payload))
  exact Ledger.not_holds_of_records (l := ⟨Ledger.ledgerPath, [7], {}⟩) rfl hb (by decide)
    (storable_sizes (by decide) hs hM) (storable_sizes (by decide) (by decide) hs) hrecords₁
    hrecords₂

/-- A name that ends in a byte 255. -/
def unspelledKey : Path := ⟨false, [.broken "key" (.ofByte 255) ""]⟩

def unspelledHost : Host :=
  { files := ⟨[(["payload"], .file payload FileTree.plainMode),
      (unspelledKey.parts, .file privateFile FileTree.plainMode)]⟩ }

theorem privateAt_unspelled :
    app.toolkit.keySizes.PrivateAt unspelledHost unspelledKey privateKey :=
  KeySizes.privateAt_iff.2 ⟨privateFile, rfl, privateKey?_privateFile, supports⟩

/-- With a ledger and a key whose name cannot be written, only offline signing returns. -/
theorem unspelled_signOffline :
    (∃ r h', runOn ((Sign.signOffline app.toolkit ⟨false, ["payload"]⟩ [unspelledKey]
        ⟨false, ["signed"]⟩).run (.audit ⟨Ledger.ledgerPath, [7], {}⟩)) unspelledHost = (.ok r, h')) ∧
      ¬ ∃ r h', runOn ((Sign.signPayload app.toolkit ⟨false, ["payload"]⟩ [unspelledKey]
        ⟨false, ["signed"]⟩).run (.audit ⟨Ledger.ledgerPath, [7], {}⟩)) unspelledHost =
          (.ok r, h') := by
  constructor
  · obtain ⟨s, M, h₁, he⟩ := embedded privateAt_unspelled rfl ⟨false, ["signed"]⟩
      fun content => ⟨_, rfl⟩
    refine Sign.signOffline_of_embedded he (Sink.canRecord_audit_iff.2 ⟨?_, by decide⟩)
    obtain ⟨-, layout, hembed⟩ := he
    have hc : Host.Changes _ _ unspelledHost h₁ := PayloadFile.touches_embedSignatures.changes hembed
    have hnone : unspelledHost.files.node? ["ledger"] = none := rfl
    have hadmits : unspelledHost.Admits Ledger.ledgerPath := ⟨["ledger"], rfl, by simp [hnone]⟩
    exact hc.admits hadmits (by decide) (by decide)
  · intro hr
    obtain ⟨⟨hashes, sink'⟩, h', hr⟩ := hr
    have hspells := Sign.spells_of_signPayload hr _ rfl unspelledKey (by simp)
    exact absurd hspells (show ¬ unspelledKey.spelling.isString by decide)

/-- The two flows differ where the output is the ledger, and where the name of a key cannot be
recorded. -/
theorem signOffline_not_agrees :
    (∃ l hashes sink₁ sink₂ h₁ h₂,
      runOn ((Sign.signOffline app.toolkit ⟨false, ["payload"]⟩ [⟨false, ["key"]⟩]
        Ledger.ledgerPath).run (.audit ⟨Ledger.ledgerPath, [7], {}⟩)) (host payload) =
          (.ok (l, sink₁), h₁) ∧
      runOn ((Sign.signPayload app.toolkit ⟨false, ["payload"]⟩ [⟨false, ["key"]⟩]
        Ledger.ledgerPath).run (.audit ⟨Ledger.ledgerPath, [7], {}⟩)) (host payload) =
          (.ok (hashes, sink₂), h₂) ∧
      ¬ ∃ b, h₁.Holds Ledger.ledgerPath b ∧ h₂.Holds Ledger.ledgerPath b) ∧
    (∃ r h', runOn ((Sign.signOffline app.toolkit ⟨false, ["payload"]⟩ [unspelledKey]
        ⟨false, ["signed"]⟩).run (.audit ⟨Ledger.ledgerPath, [7], {}⟩)) unspelledHost = (.ok r, h')) ∧
    ¬ ∃ r h', runOn ((Sign.signPayload app.toolkit ⟨false, ["payload"]⟩ [unspelledKey]
        ⟨false, ["signed"]⟩).run (.audit ⟨Ledger.ledgerPath, [7], {}⟩)) unspelledHost =
          (.ok r, h') :=
  ⟨ledger_signOffline_differs, unspelled_signOffline⟩

end Sample

end UpdateSeal
