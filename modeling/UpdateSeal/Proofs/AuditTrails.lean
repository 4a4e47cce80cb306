import UpdateSeal.Proofs.Sessions

/-!
# Ledgers of sessions

The ledger of a session is the history of the operations that returned in it, wherever a start keeps
its data. This takes a key that is not kept in the ledger file itself: otherwise the next start seals
with another one.
-/

namespace UpdateSeal

open UpdateSeal.Action Host

namespace Session

variable {s : Settings} {h h' : Host} {st : Session} {l : Ledger} {r : Request}
  {requests : List Request}

theorem perform_restart_of_start {app : Application}
    (hstart : runOn (Application.start s) h = (.ok app, h')) :
    runOn (perform s st .restart) h = (.ok { st with app := some app }, h') := by
  rw [perform, runOn_tryCatch, runOn_bind_ok hstart]
  rfl

theorem perform_restart_of_error {e : Failure}
    (hstart : runOn (Application.start s) h = (.error e, h')) :
    runOn (perform s st .restart) h = (.ok st, h') := by
  rw [perform, runOn_tryCatch, runOn_bind_error hstart]
  rfl

theorem advances_restart (haudit : s.auditEnabled) (ht : Tracks s st h) (hs : s.KeyApart h) :
    Advances s st h (perform s st .restart) := by
  cases hr : runOn (Application.start s) h with
  | mk r h' =>
    -- whether it succeeds or fails, a start writes no file but that of the key
    have hc := Application.changes_start haudit h
    rw [hr] at hc
    cases ht with
    | unopened hnone =>
      cases r with
      | error e =>
        refine ⟨{}, h', perform_restart_of_error hr, .unopened ?_, hc.anywhere, Nat.le_succ _⟩
        rw [s.ledgerPath_changes hc, hc.contentOf_eq hs.symm, hnone]
      | ok app =>
        obtain ⟨l, rfl, hl⟩ :=
          Application.resumable_of_start haudit hs hnone hr
        exact ⟨⟨some ⟨s, Application.toolkitOf s, .audit l⟩, []⟩, h', perform_restart_of_start hr,
          .opened rfl hl .nil, hc.anywhere, Nat.le_succ _⟩
    | opened hsink hl hdone =>
      rename_i app done l es
      obtain ⟨warnings, hagain, hl'⟩ | ⟨e, hagain⟩ := Application.start_again haudit hl
      · obtain ⟨rfl, rfl⟩ := Prod.mk.inj (hagain.symm.trans hr)
        exact ⟨⟨some ⟨s, Application.toolkitOf s, .audit l⟩, done⟩, _, perform_restart_of_start hr,
          .opened rfl hl' hdone, hc.anywhere, Nat.le_succ _⟩
      · obtain ⟨rfl, rfl⟩ := Prod.mk.inj (hagain.symm.trans hr)
        exact ⟨⟨some app, done⟩, h, perform_restart_of_error hr, .opened hsink hl hdone,
          hc.anywhere, Nat.le_succ _⟩

theorem advances_perform (haudit : s.auditEnabled) (ht : Tracks s st h) (hs : s.KeyApart h)
    (hr : r.Spares s h) (hcount : st.done.length + 1 < 10 ^ Json.maxDigits) :
    Advances s st h (perform s st r) := by
  obtain ⟨hledger, hkey⟩ := hr
  cases r with
  | restart => exact advances_restart haudit ht hs
  | sign path keys out =>
    refine advances_operate (fun t => Sign.signPayload_eq t path keys out) ?_ ht hs
      (fun _ => Sign.touches_signFile) (fun _ => Sign.readable_signing _ _ _ _)
      (Settings.spared_of_avoids hledger hkey) hcount
    intro t c e hname houtputs hargs
    have hhashes : [LooseText.string c.1.payload.hex, .string c.1.metadata.hex] ⊆
        e.outputs.map .string := houtputs ▸ List.subset_cons_self _ _
    simpa [Outcome.RecordedBy, hname, Sign.signing] using hhashes
  | embed path S M out =>
    refine advances_operate (fun _ => Sign.addSignatures_eq path out S M) ?_ ht hs
      (fun _ => Sign.touches_embedContainers) (fun _ => Sign.readable_embedding _ _ _ _)
      (Settings.spared_of_avoids hledger hkey) hcount
    intro t c e hname houtputs hargs
    exact hname
  | verify path keys =>
    refine advances_operate (fun t => Sign.verifyPayload_eq t path keys) ?_ ht hs
      (fun _ => touches_of_observes Sign.observes_verifyFile)
      (fun _ => Sign.readable_verifying _ _ _) (s.spared_nowhere h) hcount
    intro t c e hname houtputs hargs
    rw [Outcome.RecordedBy, hname, hargs]
    simp [Sign.verifying, Json.Value.stored]

theorem tracks_run (haudit : s.auditEnabled) (ht : Tracks s st h) (hs : s.KeyApart h)
    (hspares : ∀ r ∈ requests, r.Spares s h)
    (hcount : st.done.length + requests.length < 10 ^ Json.maxDigits) :
    ∃ st' h', runOn (requests.foldlM (perform s) st) h = (.ok st', h') ∧ Tracks s st' h' := by
  induction requests generalizing st h with
  | nil => exact ⟨st, h, rfl, ht⟩
  | cons r requests ih =>
    obtain ⟨hr, hspares⟩ := List.forall_mem_cons.1 hspares
    rw [List.length_cons] at hcount
    obtain ⟨st₁, h₁, hperform, ht₁, hc, hlength⟩ :=
      advances_perform haudit ht hs hr (by omega)
    -- no request moves the ledger or its key, so the others still spare them
    obtain ⟨st', h', hrun, ht'⟩ := ih ht₁ (hs.changes hc)
      (fun r hmem => (hspares r hmem).changes hc) (by omega)
    exact ⟨st', h', by rw [List.foldlM_cons, runOn_bind_ok hperform, hrun], ht'⟩

/-- The ledger is the history of what was done. From a host without a ledger, every session with
the same settings, however often it starts again and whatever it signs, embeds and verifies, ends
with a valid ledger that has one entry for every operation that returned, in order, as long as no
output is the ledger or its key or lies below one of them. -/
theorem run_faithful (s : Settings) (h : Host) (requests : List Request)
    (haudit : s.auditEnabled) (hs : s.KeyApart h) (hnone : h.contentOf (s.ledgerPath h) = none)
    (hspares : ∀ r ∈ requests, r.Spares s h) (hcount : requests.length < 10 ^ Json.maxDigits) :
    ∃ st h', runOn (run s requests) h = (.ok st, h') ∧ st.Faithful h' := by
  have hcount : ({} : Session).done.length + requests.length < 10 ^ Json.maxDigits := by
    rw [List.length_nil, Nat.zero_add]
    exact hcount
  obtain ⟨st, h', hrun, ht⟩ := tracks_run haudit (.unopened hnone) hs hspares hcount
  exact ⟨st, h', hrun, ht.faithful⟩

/-! ### Sessions with a small payload -/

def smallPath : Path := ⟨false, ["payload"]⟩

theorem perform_verify {t : Toolkit} {path : Path} {keys : List Path} {b : Bool}
    (hv : Answers (Sign.verifyFile t path keys) h (.ok b))
    (hcan : (Sink.audit l).CanRecord ((path :: keys).map Path.spelling) h) (done : List Outcome) :
    ∃ log l' e h', runOn (l.logTexts "verify_payload" (path.spelling :: keys.map Path.spelling) []
        [("verified", .bool b)]) { h with log } = (.ok (l', e), h') ∧
      runOn (perform s ⟨some ⟨s, t, .audit l⟩, done⟩ (.verify path keys)) h =
        (.ok ⟨some ⟨s, t, .audit l'⟩, done ++ [.verified b]⟩, h') := by
  obtain ⟨log, hwork⟩ := hv.runOn
  have hcan : (Sink.audit l).CanRecord ((path :: keys).map Path.spelling ++ []) { h with log } := by
    rwa [List.append_nil]
  obtain ⟨l', e, content, files, now, hlog, -⟩ := Sink.log_audit_returns "verify_payload"
    (path.spelling :: keys.map Path.spelling) [] [("verified", .bool b)] hcan
  refine ⟨log, l', e, _, hlog, ?_⟩
  have hverify : runOn ((Sign.verifyPayload t path keys).run (.audit l)) h =
      (.ok (b, .audit l'), { h with log, files, now }) :=
    Operation.recorded (o := Sign.verifying t path keys) hwork hlog
  rw [perform, operate, runOn_tryCatch, runOn_bind_ok hverify]
  rfl

theorem answers_verify_small (hs : s.Valid) (hr : h.Holds smallPath (Layout.smallPayload 0)) :
    Answers (Sign.verifyFile (Application.toolkitOf s) smallPath []) h (.ok false) := by
  have hchunk : 0 < (Application.toolkitOf s).chunk := by
    have hsize := hs.readChunkSize
    show 0 < s.readChunkSize
    omega
  have hblock : ∀ modulus, (Application.toolkitOf s).keySizes.Supports modulus →
      62 ≤ Rsa.byteLength modulus := by
    intro modulus hm
    have hlength := Application.byteLength_le_of_valid hs hm
    omega
  obtain ⟨b, hv, hb⟩ := Sign.answers_verifyFile hchunk hblock hr
    ((Layout.smallPayload_splits 0).ofContent_eq _) .nil
  cases b with
  | false => exact hv
  | true =>
    obtain ⟨r, content, -, -, -, -, entries, -, e, -, -, key, hkey, -⟩ := (hb.1 rfl).payload
    cases hkey

def smallSettings : Settings :=
  { dataDir := some ⟨false, ["data"]⟩, configDir := some ⟨false, ["config"]⟩ }

theorem smallSettings_valid : smallSettings.Valid := ⟨by decide, by decide⟩

def smallHost : Host := Plan.payloadHost (Layout.smallPayload 0)

/-- The host with a payload once the application has started. -/
def startedHost : Host :=
  { files := ⟨[(["payload"], .file (Layout.smallPayload 0) FileTree.plainMode),
      (["data"], .directory), (["config"], .directory),
      (["config", "audit-ledger.key"], .file (List.replicate 32 0) FileTree.secretMode)]⟩ }

def startedLedger : Ledger := ⟨⟨false, ["data", "audit.jsonl"]⟩, List.replicate 32 0, {}⟩

def startedSession : Session :=
  ⟨some ⟨smallSettings, Application.toolkitOf smallSettings, .audit startedLedger⟩, []⟩

theorem perform_restart :
    runOn (perform smallSettings {} .restart) smallHost = (.ok startedSession, startedHost) := rfl

theorem perform_restart_again :
    runOn (perform smallSettings startedSession .restart) startedHost =
      (.ok startedSession, startedHost) := rfl

theorem startedHost_admits : startedHost.Admits startedLedger.path := by
  have hnone : startedHost.files.node? ["data", "audit.jsonl"] = none := rfl
  exact ⟨["data", "audit.jsonl"], rfl, by simp [hnone]⟩

theorem startedHost_holds : startedHost.Holds smallPath (Layout.smallPayload 0) := rfl

theorem perform_embed_none {t : Toolkit} {sink : Sink} {done : List Outcome} {path out : Path}
    {M : Option Bytes} :
    ∃ h', runOn (perform s ⟨some ⟨s, t, sink⟩, done⟩ (.embed path none M out)) h =
        (.ok ⟨some ⟨s, t, sink⟩, done⟩, h') ∧
      Changes (fun _ => False) (out.LeadsThrough h.workingDirectory) h h' := by
  cases hwork : runOn (Sign.embedContainers path none M out) h with
  | mk r h' =>
    cases r with
    | ok layout =>
      obtain ⟨-, -, hembed⟩ := Sign.runOn_embedContainers_eq_ok.1 hwork
      obtain ⟨S, hS⟩ := PayloadFile.some_of_embedSignatures hembed
      cases hS
    | error e =>
      have hadd : runOn ((Sign.addSignatures path none M out).run sink) h = (.error e, h') := by
        rw [Sign.addSignatures_eq, Operation.run, runOn_lift_bind]
        simp only [Sign.embedding, hwork]
      refine ⟨h', ?_, Sign.failsClean_embedContainers e h' hwork⟩
      rw [perform, operate, runOn_tryCatch, runOn_bind_error hadd]
      rfl

def mixedRequests : List Request :=
  [.restart, .restart, .embed smallPath none none ⟨false, ["signed"]⟩, .verify smallPath []]

theorem mixedRequests_spare : ∀ r ∈ mixedRequests, r.Spares smallSettings smallHost := by
  have hledger : ¬ Path.LeadsThrough [] ⟨false, ["signed"]⟩ ["data", "audit.jsonl"] := by decide
  have hkey : ¬ Path.LeadsThrough [] ⟨false, ["signed"]⟩ ["config", "audit-ledger.key"] := by
    decide
  simp only [mixedRequests, List.forall_mem_cons]
  exact ⟨⟨trivial, trivial⟩, ⟨trivial, trivial⟩, ⟨hledger, hkey⟩, ⟨trivial, trivial⟩, nofun⟩

/-- The application is started twice, embedding fails, and a payload is verified: the ledger has the
one entry. -/
theorem small_run_faithful :
    ∃ app l e h', runOn (run smallSettings mixedRequests) smallHost =
        (.ok ⟨some app, [.verified false]⟩, h') ∧
      app.sink = .audit l ∧ runOn l.verify h' = (.ok .valid, h') ∧
      runOn l.readEntries h' = (.ok [e], h') ∧ (Outcome.verified false).RecordedBy e := by
  have hapart : smallHost.placeOf (smallSettings.keyPath smallHost) ≠
    smallHost.placeOf (smallSettings.ledgerPath smallHost) := by decide
  have hnone : smallHost.contentOf (smallSettings.ledgerPath smallHost) = none := rfl
  have hcount : mixedRequests.length < 10 ^ Json.maxDigits := by decide +kernel
  obtain ⟨st, h', hrun, hfaithful⟩ :=
    run_faithful smallSettings smallHost mixedRequests rfl hapart hnone mixedRequests_spare hcount
  obtain ⟨h₁, hembed, hc⟩ : ∃ h₁,
      runOn (perform smallSettings startedSession
        (.embed smallPath none none ⟨false, ["signed"]⟩)) startedHost = (.ok startedSession, h₁) ∧
      Changes (fun _ => False) (Path.LeadsThrough [] ⟨false, ["signed"]⟩) startedHost h₁ :=
    perform_embed_none
  have hholds : h₁.Holds smallPath (Layout.smallPayload 0) :=
    hc.holds startedHost_holds not_false
  have hadmits : h₁.Admits startedLedger.path := by
    have hspares : ¬ Path.LeadsThrough [] ⟨false, ["signed"]⟩ ["data", "audit.jsonl"] := by decide
    exact hc.admits startedHost_admits hspares not_false
  have hv := answers_verify_small smallSettings_valid hholds
  obtain ⟨l, h₂, hverify⟩ : ∃ l h₂,
      runOn (perform smallSettings startedSession (.verify smallPath [])) h₁ =
        (.ok ⟨some ⟨smallSettings, Application.toolkitOf smallSettings, .audit l⟩,
          [.verified false]⟩, h₂) := by
    obtain ⟨-, l, -, h₂, -, hverify⟩ :=
      perform_verify hv (Sink.canRecord_audit_iff.2 ⟨hadmits, by decide⟩) []
    exact ⟨l, h₂, hverify⟩
  have hrun' : runOn (run smallSettings mixedRequests) smallHost =
      (.ok ⟨some ⟨smallSettings, Application.toolkitOf smallSettings, .audit l⟩,
        [.verified false]⟩, h₂) := by
    rw [run, mixedRequests, List.foldlM_cons, runOn_bind_ok perform_restart, List.foldlM_cons,
      runOn_bind_ok perform_restart_again, List.foldlM_cons, runOn_bind_ok hembed,
      List.foldlM_cons, runOn_bind_ok hverify]
    rfl
  obtain ⟨hst, rfl⟩ := Prod.mk.inj (hrun.symm.trans hrun')
  obtain rfl := Except.ok.inj hst
  obtain ⟨l', es, hsink, hvalid, hentries, hdone⟩ := hfaithful
  cases hdone with
  | cons hrecorded hdone =>
    cases hdone
    exact ⟨_, l', _, h', hrun, hsink, hvalid, hentries, hrecorded⟩

/-! ### Where the ledger is lost -/

def reverifies : List Request := [.restart, .verify smallPath [], .restart]

theorem reverifies_spares (s : Settings) (h : Host) : ∀ r ∈ reverifies, r.Spares s h := by
  simp [reverifies, Request.Spares, Request.Avoids]

theorem run_reverifies {app app₁ app₂ : Application} {h₁ h₂ h₃ : Host} {done : List Outcome}
    (hfirst : runOn (perform s {} .restart) h = (.ok ⟨some app, []⟩, h₁))
    (hverify : runOn (perform s ⟨some app, []⟩ (.verify smallPath [])) h₁ =
      (.ok ⟨some app₁, done⟩, h₂))
    (hstart : runOn (Application.start s) h₂ = (.ok app₂, h₃)) :
    runOn (run s reverifies) h = (.ok ⟨some app₂, done⟩, h₃) := by
  rw [run, reverifies, List.foldlM_cons, runOn_bind_ok hfirst, List.foldlM_cons,
    runOn_bind_ok hverify, List.foldlM_cons, runOn_bind_ok (perform_restart_of_start hstart)]
  rfl

/-- Settings that keep the key in the file of the ledger. -/
def aliasedSettings : Settings :=
  { dataDir := some ⟨false, ["data"]⟩, auditKeyPath := some ⟨false, ["data", "audit.jsonl"]⟩ }

/-- A host that makes keys of blanks. -/
def blankHost : Host := { smallHost with random := fun _ => 32 }

def blankKey : Bytes := List.replicate 32 32

def aliasedLedger : Ledger := ⟨⟨false, ["data", "audit.jsonl"]⟩, blankKey, {}⟩

def aliasedHost : Host :=
  { blankHost with
    files := ⟨[(["payload"], .file (Layout.smallPayload 0) FileTree.plainMode),
      (["data"], .directory), (["data", "audit.jsonl"], .file blankKey FileTree.secretMode)]⟩ }

theorem aliasedSettings_valid : aliasedSettings.Valid := ⟨by decide, by decide⟩

theorem perform_restart_aliased : runOn (perform aliasedSettings {} .restart) blankHost =
    (.ok ⟨some ⟨aliasedSettings, Application.toolkitOf aliasedSettings, .audit aliasedLedger⟩, []⟩,
      aliasedHost) := rfl

theorem aliasedHost_holds : aliasedHost.Holds smallPath (Layout.smallPayload 0) := rfl

theorem aliasedHost_admits : aliasedHost.Admits aliasedLedger.path := by
  have hfile : aliasedHost.files.node? ["data", "audit.jsonl"] =
    some (.file blankKey FileTree.secretMode) := rfl
  exact ⟨["data", "audit.jsonl"], rfl, by simp [hfile]⟩

def verifyEntry : Entry where
  timestamp := "1970-01-01T00:00:00+00:00"
  operation := "verify_payload"
  inputs := ["payload"]
  args := [("verified", .bool false)]
  versions := Ledger.toolVersions
  sequence := some 1
  entryHash := some "2209dbc05961581d9a942ed550453968e0b9e8746a252f8226c4683212a19a85"
  signature := some "49067c59c48dd43ee9d9d47f487f89e1da0b0d61f389705d51ca6e323f1956c0"

def verifyLine : Bytes := Bytes.ofText (String.ofList (verifyEntry.line ++ ['\n']))

set_option maxRecDepth 100000 in
theorem contentHash_verifyEntry : verifyEntry.contentHash =
    "2209dbc05961581d9a942ed550453968e0b9e8746a252f8226c4683212a19a85" := by
  rw [Entry.contentHash, Bytes.ofText_ofList]
  decide +kernel

set_option maxRecDepth 100000 in
theorem sealOf_verifyEntry : Ledger.sealOf blankKey verifyEntry genesis =
    "49067c59c48dd43ee9d9d47f487f89e1da0b0d61f389705d51ca6e323f1956c0" := by decide +kernel

set_option maxRecDepth 100000 in
/-- What was the key is another one once the entry stands behind it. -/
theorem sealOf_verifyEntry_ne : Ledger.sealOf (blankKey ++ verifyLine) verifyEntry genesis ≠
    "49067c59c48dd43ee9d9d47f487f89e1da0b0d61f389705d51ca6e323f1956c0" := by
  rw [verifyLine, Bytes.ofText_ofList]
  decide +kernel

theorem nextEntry_verify : Ledger.nextEntry blankKey {} (Timestamp.text 0) "verify_payload"
    ["payload"] [] [("verified", .bool false)] = verifyEntry := by
  have htime : Timestamp.text 0 = "1970-01-01T00:00:00+00:00" := by decide +kernel
  have hhash : Entry.contentHash { verifyEntry with entryHash := none, signature := none } =
    "2209dbc05961581d9a942ed550453968e0b9e8746a252f8226c4683212a19a85" := contentHash_verifyEntry
  have hseal : Ledger.sealOf blankKey { verifyEntry with signature := none } genesis =
    "49067c59c48dd43ee9d9d47f487f89e1da0b0d61f389705d51ca6e323f1956c0" := sealOf_verifyEntry
  rw [htime]
  show { verifyEntry with
    entryHash := some (Entry.contentHash { verifyEntry with entryHash := none, signature := none })
    signature := some (Ledger.sealOf blankKey { verifyEntry with
      entryHash := some
        (Entry.contentHash { verifyEntry with entryHash := none, signature := none })
      signature := none } genesis) } = verifyEntry
  rw [hhash]
  exact congrArg (fun text => { verifyEntry with signature := some text }) hseal

theorem ended_blanks : Text.Ended (String.ofList (List.replicate 32 ' ')).toList := by
  refine ⟨[], List.replicate 32 ' ', String.toList_ofList, by simp, ?_, ?_⟩
  · simp [Text.Unbroken]
  · intro c hc
    rw [List.eq_of_mem_replicate hc]
    decide

theorem current_aliased {log : List (LogLevel × String)} {e : Entry}
    (hlog : runOn (aliasedLedger.log "verify_payload" ["payload"] [] [("verified", .bool false)])
      { aliasedHost with log } = (.ok (l, e), h)) :
    l.Current h [verifyEntry] ∧ l.path = aliasedLedger.path ∧
      h.Holds aliasedLedger.path (blankKey ++ verifyLine) := by
  have hcurrent : aliasedLedger.Current { aliasedHost with log } [] := ⟨rfl, rfl, .nil, rfl⟩
  have hblank : ({ aliasedHost with log } : Host).Holds aliasedLedger.path blankKey := rfl
  have hends : Ledger.EndsAt { aliasedHost with log } aliasedLedger.path := by
    intro text htext
    obtain rfl : text = String.ofList (List.replicate 32 ' ') :=
      Bytes.ofText_injective (Except.ok.inj (htext.symm.trans hblank))
    exact ended_blanks
  have hargs : (Json.Value.obj [("verified", .bool false)]).Storable 199 :=
    .obj nofun (List.nodup_singleton _) (List.forall_mem_singleton.2 (.bool 198 false))
  have hcount : 0 + 1 < 10 ^ Json.maxDigits := by decide +kernel
  have hcurrent' := hcurrent.log hends hargs hcount hlog
  have hholds := Ledger.holds_of_log hblank hlog
  obtain ⟨he, rfl, -⟩ := Ledger.runOn_log_eq_ok hlog
  obtain rfl : e = verifyEntry := he.trans nextEntry_verify
  exact ⟨hcurrent', rfl, hholds⟩

/-- The file of the ledger is the key of the next start, which finds the record sealed with another
one. -/
theorem start_aliased_again (hl : l.Current h [verifyEntry]) (hpath : l.path = aliasedLedger.path)
    (hholds : h.Holds aliasedLedger.path (blankKey ++ verifyLine)) :
    ∃ tail, runOn (Application.start aliasedSettings) h =
      (.ok ⟨aliasedSettings, Application.toolkitOf aliasedSettings,
        .audit ⟨aliasedLedger.path, blankKey ++ verifyLine, tail⟩⟩, h) := by
  have hparents := hl.parents
  have hentries := hl.entries
  rw [hpath] at hparents hentries
  have hmake : runOn (makeDirectories ⟨false, ["data"]⟩) h = (.ok (), h) :=
    runOn_makeDirectories (isDirectoryAt_of_makeDirectories hparents)
  have hdir : runOn aliasedSettings.chooseDataDir h = (.ok ⟨false, ["data"]⟩, h) :=
    runOn_bind_ok hmake
  have hkey : runOn aliasedSettings.findKey h = (.ok aliasedLedger.path, h) := rfl
  have hopen : runOn (Ledger.openAt aliasedLedger.path (some (blankKey ++ verifyLine))) h =
      (.ok ⟨aliasedLedger.path, blankKey ++ verifyLine, Ledger.tailOf [verifyEntry]⟩, h) :=
    runOn_openAt_eq_ok_iff.2 ⟨hparents, _, hentries, rfl⟩
  refine ⟨Ledger.tailOf [verifyEntry], ?_⟩
  rw [Application.start_eq rfl, runOn_bind_ok hdir, runOn_bind_ok hkey,
    runOn_bind_ok (runOn_loadOrCreateKey hholds)]
  exact runOn_bind_ok hopen

theorem not_chain_verifyEntry : ¬ Ledger.Chain (blankKey ++ verifyLine) [verifyEntry] true := by
  intro hchain
  have hchain : Ledger.Chain (blankKey ++ verifyLine) ([] ++ [verifyEntry]) true := hchain
  obtain ⟨-, hcontinues⟩ := hchain.of_concat
  exact sealOf_verifyEntry_ne (Option.some.inj hcontinues.signature).symm

/-- The ledger is not always the history of what was done, as its key may be kept in its file: there
was no ledger before, no output is the ledger or the key, and a payload is verified between two
starts. -/
theorem run_not_faithful :
    aliasedSettings.auditEnabled ∧
      blankHost.contentOf (aliasedSettings.ledgerPath blankHost) = none ∧
      (∀ r ∈ reverifies, r.Spares aliasedSettings blankHost) ∧
      ∃ st h', runOn (run aliasedSettings reverifies) blankHost = (.ok st, h') ∧
        st.done = [.verified false] ∧ ¬ st.Faithful h' := by
  have hv := answers_verify_small aliasedSettings_valid aliasedHost_holds
  obtain ⟨log, l, e, h₁, hlog, hverify⟩ :=
    perform_verify hv (Sink.canRecord_audit_iff.2 ⟨aliasedHost_admits, by decide⟩) []
  rw [List.nil_append] at hverify
  obtain ⟨hl, hpath, hholds⟩ := current_aliased hlog
  obtain ⟨tail, hstart⟩ := start_aliased_again hl hpath hholds
  have hrun := run_reverifies perform_restart_aliased hverify hstart
  refine ⟨rfl, rfl, reverifies_spares _ _, _, _, hrun, rfl, fun hfaithful => ?_⟩
  obtain ⟨l', es, hsink, hvalid, -⟩ := hfaithful
  cases hsink
  rw [Ledger.runOn_verify] at hvalid
  obtain ⟨es, hes, hchain⟩ := Ledger.verdictOf_eq_valid_iff.1 (Prod.mk.inj hvalid).1
  have hentries := hl.entries
  rw [hpath] at hentries
  obtain rfl := Except.ok.inj (hes.symm.trans hentries)
  exact not_chain_verifyEntry hchain

end Session

end UpdateSeal
