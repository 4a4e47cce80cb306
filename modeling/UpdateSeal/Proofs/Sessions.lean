import UpdateSeal.Proofs.RecordedWork
import UpdateSeal.Proofs.Trails

/-!
# Sessions

In a session the application is started and started again, and signs, embeds and verifies with what
was started last. A request that fails leaves the session as it is. Throughout, the ledger is valid
and is the history of the operations that returned: it has one entry for each, in order, and none
for those that failed.
-/

namespace UpdateSeal

open UpdateSeal.Action Host

variable {α β : Type}

inductive Request where
  | restart
  | sign (path : Path) (keys : List Path) (out : Path)
  | embed (path : Path) (payloadSignature metadataSignature : Option Bytes) (out : Path)
  | verify (path : Path) (keys : List Path)

/-- What an operation returned. -/
inductive Outcome where
  | signed (hashes : HashSet)
  | embedded (layout : Layout)
  | verified (result : Bool)

structure Session where
  /-- What was started last. -/
  app : Option Application := none
  /-- What operations returned, oldest first. -/
  done : List Outcome := []

namespace Session

/-- Runs an operation with the application. -/
def operate (st : Session) (x : Toolkit → Auditing α) (outcome : α → Outcome) : Action Session :=
  match st.app with
  | none => return st
  | some app =>
    tryCatch (do
      let (a, sink) ← (x app.toolkit).run app.sink
      return ⟨some { app with sink }, st.done ++ [outcome a]⟩) fun _ => return st

def perform (s : Settings) (st : Session) : Request → Action Session
  | .restart =>
    tryCatch (do return { st with app := some (← Application.start s) }) fun _ => return st
  | .sign path keys out => st.operate (fun t => Sign.signPayload t path keys out) .signed
  | .embed path S M out => st.operate (fun _ => Sign.addSignatures path S M out) .embedded
  | .verify path keys => st.operate (fun t => Sign.verifyPayload t path keys) .verified

def run (s : Settings) (requests : List Request) : Action Session := requests.foldlM (perform s) {}

end Session

/-- The entry is the record of an operation that returned this. -/
def Outcome.RecordedBy (e : Entry) : Outcome → Prop
  | .signed hashes => e.operation = "sign_payload" ∧
      hashes.payload.hex ∈ e.outputs ∧ hashes.metadata.hex ∈ e.outputs
  | .embedded _ => e.operation = "embed_signatures"
  | .verified b => e.operation = "verify_payload" ∧ e.args = [("verified", .bool b)]

/-- The ledger that is open is found valid, and reading it gives one entry for every operation that
returned, in order. -/
def Session.Faithful (st : Session) (h : Host) : Prop :=
  match st.app with
  | none => st.done = []
  | some app => ∃ l es, app.sink = .audit l ∧ runOn l.verify h = (.ok .valid, h) ∧
      runOn l.readEntries h = (.ok es, h) ∧
      List.Forall₂ (fun outcome e => outcome.RecordedBy e) st.done es

/-- The output of a request is not `place`, and does not lie below it. -/
def Request.Avoids (base place : Place) : Request → Prop
  | .sign _ _ out => ¬ out.LeadsThrough base place
  | .embed _ _ _ out => ¬ out.LeadsThrough base place
  | _ => True

/-- The output of a request is neither the ledger nor its key, and lies below neither. -/
def Request.Spares (s : Settings) (h : Host) (r : Request) : Prop :=
  r.Avoids h.workingDirectory (h.placeOf (s.ledgerPath h)) ∧
    r.Avoids h.workingDirectory (h.placeOf (s.keyPath h))

theorem Settings.spared_of_avoids {s : Settings} {h : Host} {out : Path}
    (hledger : ¬ out.LeadsThrough h.workingDirectory (h.placeOf (s.ledgerPath h)))
    (hkey : ¬ out.LeadsThrough h.workingDirectory (h.placeOf (s.keyPath h))) :
    s.Spared h (· = out.placeFrom h.workingDirectory) (out.LeadsThrough h.workingDirectory) :=
  ⟨fun heq => hledger (heq ▸ out.leadsThrough_placeFrom _), hledger,
    fun heq => hkey (heq ▸ out.leadsThrough_placeFrom _)⟩

/-- The key of the ledger is not kept in the file of the ledger. -/
def Settings.KeyApart (s : Settings) (h : Host) : Prop :=
  h.placeOf (s.keyPath h) ≠ h.placeOf (s.ledgerPath h)

variable {s : Settings} {h h' : Host} {st : Session} {l : Ledger} {es : List Entry}
  {files dirs : Place → Prop} {r : Request} {requests : List Request}

section Changes

variable (hc : Changes files dirs h h')
include hc

theorem Host.Changes.placeOf_ledgerPath (s : Settings) :
    h'.placeOf (s.ledgerPath h') = h.placeOf (s.ledgerPath h) := by
  rw [s.ledgerPath_changes hc, placeOf, placeOf, hc.workingDirectory]

theorem Host.Changes.placeOf_keyPath (s : Settings) :
    h'.placeOf (s.keyPath h') = h.placeOf (s.keyPath h) := by
  rw [s.keyPath_changes hc, placeOf, placeOf, hc.workingDirectory]

theorem Settings.KeyApart.changes (hs : s.KeyApart h) : s.KeyApart h' := by
  rw [KeyApart, hc.placeOf_keyPath, hc.placeOf_ledgerPath]
  exact hs

theorem Request.Spares.changes (hr : r.Spares s h) : r.Spares s h' := by
  rw [Request.Spares, hc.placeOf_keyPath, hc.placeOf_ledgerPath, hc.workingDirectory]
  exact hr

end Changes

/-! ### Operations of a session -/

/-- An operation whose work spares the ledger and its key is recorded once if it returns, and not at
all if it fails. -/
theorem Operation.resumable {o : Operation α β} {r : Except Failure (β × Sink)}
    (hl : l.Resumable s h es) (hs : s.KeyApart h)
    (htouches : Touches h.workingDirectory files dirs o.work) (hreadable : o.Readable)
    (hspared : s.Spared h files dirs) (hcount : es.length + 1 < 10 ^ Json.maxDigits)
    (hr : runOn (o.run.run (.audit l)) h = (r, h')) :
    Changes (fun _ => True) (fun _ => True) h h' ∧
      ((∃ e, r = .error e ∧ l.Resumable s h' es) ∨
        ∃ c l' e, r = .ok (o.result c, .audit l') ∧ l'.Resumable s h' (es ++ [e]) ∧
          e.operation = o.name ∧ o.outputs c = e.outputs.map .string ∧
          e.args = (o.args c).map fun m => (m.1, m.2.stored Json.plain)) := by
  rcases Operation.cases hr with ⟨e, rfl, hwork⟩ | ⟨c, h₁, hwork, hrecord⟩
  · have hc := htouches.changes hwork
    exact ⟨hc.anywhere, .inl ⟨e, rfl, hl.changes hc hspared⟩⟩
  · have hc := htouches.changes hwork
    have hl₁ := hl.changes hc hspared
    rcases hrecord with ⟨e, rfl, -, hgives⟩ | ⟨is, os, l', e, rfl, -, hos, hlog⟩
    · exact ⟨hc.anywhere.trans hgives.changes.anywhere,
        .inl ⟨e, rfl, hl₁.givesUp (hs.changes hc) hgives⟩⟩
    · have hlogs : Changes (· = h₁.placeOf l.path) (fun _ => False) h₁ h' :=
        Ledger.touches_log.changes hlog
      have hl' := hl₁.log (hs.changes hc) (hreadable hwork) hcount hlog
      obtain ⟨rfl, -⟩ := Ledger.runOn_log_eq_ok hlog
      exact ⟨hc.anywhere.trans hlogs.anywhere,
        .inr ⟨c, l', _, rfl, hl', rfl, hos, rfl⟩⟩

namespace Session

/-- What the ledger of a session is: there is none yet, or it can be resumed and holds the record of
what was done. -/
inductive Tracks (s : Settings) : Session → Host → Prop
  | unopened {h : Host} (hnone : h.contentOf (s.ledgerPath h) = none) : Tracks s {} h
  | opened {app : Application} {done : List Outcome} {l : Ledger} {h : Host} {es : List Entry}
      (hsink : app.sink = .audit l) (hl : l.Resumable s h es)
      (hdone : List.Forall₂ (fun outcome e => outcome.RecordedBy e) done es) :
      Tracks s ⟨some app, done⟩ h

theorem Tracks.faithful (ht : Tracks s st h) : st.Faithful h := by
  cases ht with
  | unopened => rfl
  | opened hsink hl hdone =>
    exact ⟨_, _, hsink, hl.current.verify, hl.current.readEntries, hdone⟩

/-- A request was answered, and the session still tracks its ledger. -/
def Advances (s : Settings) (st : Session) (h : Host) (x : Action Session) : Prop :=
  ∃ st' h', runOn x h = (.ok st', h') ∧ Tracks s st' h' ∧
    Changes (fun _ => True) (fun _ => True) h h' ∧ st'.done.length ≤ st.done.length + 1

theorem advances_operate {x : Toolkit → Auditing β} {outcome : β → Outcome}
    {o : Toolkit → Operation α β} (hx : ∀ t, x t = (o t).run)
    (houtcome : ∀ t c e, e.operation = (o t).name → (o t).outputs c = e.outputs.map .string →
      e.args = ((o t).args c).map (fun m => (m.1, m.2.stored Json.plain)) →
      (outcome ((o t).result c)).RecordedBy e)
    (ht : Tracks s st h) (hs : s.KeyApart h)
    (htouches : ∀ t, Touches h.workingDirectory files dirs (o t).work)
    (hreadable : ∀ t, (o t).Readable) (hspared : s.Spared h files dirs)
    (hcount : st.done.length + 1 < 10 ^ Json.maxDigits) :
    Advances s st h (st.operate x outcome) := by
  cases ht with
  | unopened hnone =>
    exact ⟨{}, h, rfl, .unopened hnone, .refl _ _ _, Nat.le_succ _⟩
  | opened hsink hl hdone =>
    rename_i app done l es
    have hlength : done.length = es.length := hdone.length_eq
    rw [hlength] at hcount
    cases hr : runOn ((o app.toolkit).run.run (.audit l)) h with
    | mk r h' =>
      obtain ⟨hc, hcases⟩ :=
        Operation.resumable hl hs (htouches _) (hreadable _) hspared hcount hr
      rw [← hx, ← hsink] at hr
      rcases hcases with ⟨e, rfl, hl'⟩ | ⟨c, l', e, rfl, hl', hname, houtputs, hargs⟩
      · refine ⟨⟨some app, done⟩, h', ?_, .opened hsink hl' hdone, hc, Nat.le_succ _⟩
        rw [operate, runOn_tryCatch, runOn_bind_error hr]
        rfl
      · have hrecorded := houtcome app.toolkit c e hname houtputs hargs
        refine ⟨⟨some { app with sink := .audit l' }, done ++ [outcome ((o app.toolkit).result c)]⟩,
          h', ?_, .opened rfl hl' (List.rel_append hdone (.cons hrecorded .nil)), hc, ?_⟩
        · rw [operate, runOn_tryCatch, runOn_bind_ok hr]
          rfl
        · rw [List.length_append, List.length_singleton]

end Session

end UpdateSeal
