import UpdateSeal.Ledger.Basic
import UpdateSeal.Proofs.Storage

/-!
# Recording operations

An operation is recorded where its ledger file can be written, and nothing but the ledger changes.
Where it cannot be written the operation fails.
-/

namespace UpdateSeal

open UpdateSeal.Action

variable {α β : Type} {h h' : Host} {p : Path} {b : Bytes}

theorem runOn_lift_bind (x : Action α) (f : α → Auditing β) (sink : Sink) :
    runOn ((liftM x >>= f).run sink) h =
      match runOn x h with
      | (.ok a, h') => runOn ((f a).run sink) h'
      | (.error e, h') => (.error e, h') := by
  have hrun : (liftM x >>= f).run sink = (x >>= fun a => pure (a, sink)) >>= fun q => (f q.1).run q.2 :=
    rfl
  rw [hrun, runOn_bind, runOn_bind]
  rcases runOn x h with ⟨e | a, h'⟩ <;> rfl

theorem runOn_recorded_eq_ok {γ : Type} {x : Action α} {record : α → Auditing γ} {f : α → β}
    {sink sink' : Sink} {a : β} :
    runOn ((liftM x >>= fun c => record c >>= fun _ => pure (f c) : Auditing β).run sink) h =
        (.ok (a, sink'), h') ↔
      ∃ c h₁ e, runOn x h = (.ok c, h₁) ∧ runOn ((record c).run sink) h₁ = (.ok (e, sink'), h') ∧
        f c = a := by
  have hlast : ∀ c h₁, runOn ((record c >>= fun _ => pure (f c) : Auditing β).run sink) h₁ =
      runOn ((record c).run sink >>= fun q => pure (f c, q.2)) h₁ := fun _ _ => rfl
  rw [runOn_lift_bind]
  cases hx : runOn x h with
  | mk r h₁ =>
    cases r with
    | error fault => simp
    | ok c =>
      simp only [hlast, runOn_bind_eq_ok, runOn_pure, Prod.mk.injEq, Except.ok.injEq]
      constructor
      · intro hr
        obtain ⟨⟨e, _⟩, _, hrecord, ⟨rfl, rfl⟩, rfl⟩ := hr
        exact ⟨c, h₁, e, ⟨rfl, rfl⟩, hrecord, rfl⟩
      · intro hr
        obtain ⟨_, _, e, ⟨rfl, rfl⟩, hrecord, rfl⟩ := hr
        exact ⟨(e, sink'), h', hrecord, ⟨rfl, rfl⟩, rfl⟩

namespace Ledger

variable {l : Ledger} (operation : String) (inputs outputs : List String) (args : Json.Members)

theorem runOn_readClock : runOn readClock h = (.ok h.now, { h with now := h.now + h.clockStep }) := rfl

theorem log_eq :
    l.log operation inputs outputs args = readClock >>= fun now => do
      let e := nextEntry l.key l.tail (Timestamp.text now) operation inputs outputs args
      append l.path (Bytes.ofText (String.ofList (e.line ++ ['\n'])))
      return ({ l with tail := tailOf [e] }, e) := rfl

/-- A record changes the ledger file and the clock, and nothing else. -/
theorem log_returns (ha : h.Admits l.path) :
    ∃ l' e content t now, runOn (l.log operation inputs outputs args) h =
        (.ok (l', e), { h with files := t, now }) ∧
      h.files.Puts h.workingDirectory l.path content t ∧ l'.path = l.path := by
  have ha' : ({ h with now := h.now + h.clockStep } : Host).Admits l.path := ha
  rw [log_eq, runOn_bind_ok runOn_readClock]
  generalize nextEntry l.key l.tail (Timestamp.text h.now) operation inputs outputs args = e
  obtain ⟨content, t, hp, hr⟩ := append_returns ha' (Bytes.ofText (String.ofList (e.line ++ ['\n'])))
  refine ⟨{ l with tail := tailOf [e] }, e, content, t, h.now + h.clockStep, ?_, hp, rfl⟩
  rw [runOn_bind_ok hr]
  rfl

/-- A record that cannot be made takes up a time of the clock, and changes nothing else. -/
theorem log_fails (ha : ¬ h.Admits l.path) :
    ∃ e, runOn (l.log operation inputs outputs args) h =
      (.error e, { h with now := h.now + h.clockStep }) := by
  have ha' : ¬ ({ h with now := h.now + h.clockStep } : Host).Admits l.path := ha
  rw [log_eq, runOn_bind_ok runOn_readClock]
  generalize nextEntry l.key l.tail (Timestamp.text h.now) operation inputs outputs args = e
  obtain ⟨fault, hr⟩ := append_fails ha' (Bytes.ofText (String.ofList (e.line ++ ['\n'])))
  exact ⟨fault, by rw [runOn_bind_error hr]⟩

/-! ### Texts that are no strings -/

/-- What is left by a record that cannot be made: a time of the clock is taken up, and there may be
an empty file where the ledger is to be. -/
def GivesUp (l : Ledger) (h h' : Host) : Prop :=
  ∃ t, h.files.Opens h.workingDirectory l.path t ∧ (¬ h.Admits l.path → t = h.files) ∧
    h' = { h with now := h.now + h.clockStep, files := t }

section Texts

variable (operation : LooseText) (inputs outputs : List LooseText) (args : Json.Members)

@[simp] theorem logTexts_strings (operation : String) (inputs outputs : List String) :
    l.logTexts operation (inputs.map .string) (outputs.map .string) args =
      l.log operation inputs outputs args := by
  simp only [logTexts, LooseText.string?_string, LooseText.mapM_string?_strings]

/-- Texts that are all strings are logged as such. Otherwise the file is opened and no more. -/
theorem logTexts_cases :
    (∃ o is os, operation = .string o ∧ inputs = is.map .string ∧ outputs = os.map .string ∧
      l.logTexts operation inputs outputs args = l.log o is os args) ∨
    (¬ (operation.isString ∧ ∀ t ∈ inputs ++ outputs, t.isString) ∧
      l.logTexts operation inputs outputs args = readClock >>= fun _ => append l.path [] >>=
        fun _ => throw .surrogate) := by
  by_cases ho : operation.isString
  swap
  · refine .inr ⟨fun h => ho h.1, ?_⟩
    cases operation with
    | string s => exact absurd rfl ho
    | broken front u rest => rfl
  obtain ⟨o, rfl⟩ := LooseText.isString_iff.1 ho
  by_cases hi : ∃ is : List String, inputs = is.map .string
  swap
  · refine .inr ⟨fun h => hi (LooseText.exists_strings_iff.2 fun t ht => h.2 t (by simp [ht])), ?_⟩
    cases his : inputs.mapM LooseText.string? with
    | none => simp only [logTexts, his, LooseText.string?_string]
    | some is => exact absurd ⟨is, LooseText.mapM_string?_eq_some_iff.1 his⟩ hi
  obtain ⟨is, rfl⟩ := hi
  by_cases hos : ∃ os : List String, outputs = os.map .string
  swap
  · refine .inr ⟨fun h => hos (LooseText.exists_strings_iff.2 fun t ht => h.2 t (by simp [ht])), ?_⟩
    cases hos' : outputs.mapM LooseText.string? with
    | none => simp only [logTexts, hos', LooseText.string?_string, LooseText.mapM_string?_strings]
    | some os => exact absurd ⟨os, LooseText.mapM_string?_eq_some_iff.1 hos'⟩ hos
  obtain ⟨os, rfl⟩ := hos
  exact .inl ⟨o, is, os, rfl, rfl, rfl, logTexts_strings args o is os⟩

theorem logTexts_fails (hcan : ¬ (h.Admits l.path ∧ operation.isString ∧
      ∀ t ∈ inputs ++ outputs, t.isString)) :
    ∃ e h', runOn (l.logTexts operation inputs outputs args) h = (.error e, h') ∧
      l.GivesUp h h' := by
  rcases logTexts_cases (l := l) operation inputs outputs args with
    ⟨o, is, os, rfl, rfl, rfl, hlog⟩ | ⟨-, hlog⟩
  · rw [hlog]
    have ha : ¬ h.Admits l.path := fun ha => hcan ⟨ha, rfl, by simp [or_imp, forall_and]⟩
    obtain ⟨e, hr⟩ := log_fails o is os args ha
    exact ⟨e, _, hr, h.files, .inl rfl, fun _ => rfl, rfl⟩
  · rw [hlog, runOn_bind_ok runOn_readClock]
    obtain ⟨r, t, hr, hopens, hsame⟩ := append_nil l.path { h with now := h.now + h.clockStep }
    cases r with
    | error e => exact ⟨e, _, runOn_bind_error hr, t, hopens, hsame, rfl⟩
    | ok _ => exact ⟨.surrogate, _, runOn_bind_ok hr, t, hopens, hsame, rfl⟩

end Texts

variable {operation inputs outputs args} in
theorem log_of_logTexts {operation : LooseText} {inputs outputs : List LooseText}
    {r : Ledger × Entry} (hlog : runOn (l.logTexts operation inputs outputs args) h = (.ok r, h')) :
    ∃ o is os, operation = .string o ∧ inputs = is.map .string ∧ outputs = os.map .string ∧
      runOn (l.log o is os args) h = (.ok r, h') := by
  rcases logTexts_cases (l := l) operation inputs outputs args with
    ⟨o, is, os, ho, his, hos, heq⟩ | ⟨hno, -⟩
  · exact ⟨o, is, os, ho, his, hos, heq ▸ hlog⟩
  · obtain ⟨e, h', hfail, -⟩ := logTexts_fails (l := l) (h := h) operation inputs outputs args
      fun h => hno h.2
    cases hfail.symm.trans hlog

end Ledger

namespace Sink

variable {sink : Sink} {texts : List LooseText} (operation : String)
  (inputs outputs : List LooseText) (args : Json.Members)

/-- Where the ledger is kept, if there is one, a file can be written, and these texts can be written
to it. -/
def CanRecord (sink : Sink) (texts : List LooseText) (h : Host) : Prop :=
  ∀ l, sink = .audit l → h.Admits l.path ∧ ∀ t ∈ texts, t.isString

/-- Where operations are recorded, the names of these files can be. -/
def Spells (sink : Sink) (paths : List Path) : Prop :=
  ∀ l, sink = .audit l → ∀ p ∈ paths, p.spelling.isString

/-- The file at `p` is not the ledger. -/
def Spares (sink : Sink) (h : Host) (p : Path) : Prop :=
  ∀ l, sink = .audit l → h.locate p ≠ h.locate l.path

theorem canRecord_silent (texts : List LooseText) (h : Host) : Sink.silent.CanRecord texts h := nofun

theorem canRecord_audit_iff {l : Ledger} :
    (Sink.audit l).CanRecord texts h ↔ h.Admits l.path ∧ ∀ t ∈ texts, t.isString := by
  constructor
  · intro hs
    exact hs l rfl
  · intro hs l' hl'
    cases hl'
    exact hs

theorem canRecord_of_holds {l : Ledger} (hb : h.Holds l.path b) (htexts : ∀ t ∈ texts, t.isString) :
    (Sink.audit l).CanRecord texts h := by
  obtain ⟨place, mode, hl, hn⟩ := FileTree.read_eq_ok_iff.1 hb
  exact canRecord_audit_iff.2 ⟨⟨place, hl, by simp [hn]⟩, htexts⟩

theorem CanRecord.mono {texts' : List LooseText} (hs : sink.CanRecord texts h)
    (hsub : texts' ⊆ texts) : sink.CanRecord texts' h := by
  intro l hl
  obtain ⟨hadmits, hstrings⟩ := hs l hl
  exact ⟨hadmits, fun t ht => hstrings t (hsub ht)⟩

theorem CanRecord.spells {paths : List Path} (hs : sink.CanRecord (paths.map Path.spelling) h) :
    sink.Spells paths := by
  intro l hl p hp
  exact (hs l hl).2 _ (List.mem_map_of_mem hp)

theorem canRecord_append_iff {paths : List Path} :
    sink.CanRecord (texts ++ paths.map Path.spelling) h ↔ sink.CanRecord texts h ∧ sink.Spells paths := by
  simp only [CanRecord, Spells, List.forall_mem_append, List.forall_mem_map, ← forall₂_and, and_assoc]

theorem runOn_log_audit (l : Ledger) :
    runOn ((Sink.log operation inputs outputs args).run (.audit l)) h =
      match runOn (l.logTexts operation inputs outputs args) h with
      | (.ok (l', e), h') => (.ok (some e, .audit l'), h')
      | (.error e, h') => (.error e, h') := by
  have hrun : (Sink.log operation inputs outputs args).run (.audit l) =
      (liftM (l.logTexts operation inputs outputs args) >>= fun q : Ledger × Entry => do
        set (Sink.audit q.1)
        return some q.2 : Auditing (Option Entry)).run (.audit l) := rfl
  rw [hrun, runOn_lift_bind]
  rcases runOn (l.logTexts operation inputs outputs args) h with ⟨e | ⟨l', e⟩, h'⟩ <;> rfl

theorem runOn_log_bind (a : α) :
    runOn ((Sink.log operation inputs outputs args >>= fun _ => pure a : Auditing α).run sink) h =
      match runOn ((Sink.log operation inputs outputs args).run sink) h with
      | (.ok (_, sink'), h') => (.ok (a, sink'), h')
      | (.error e, h') => (.error e, h') := by
  have hrun : (Sink.log operation inputs outputs args >>= fun _ => pure a : Auditing α).run sink =
      (Sink.log operation inputs outputs args).run sink >>= fun q => pure (a, q.2) := rfl
  rw [hrun, runOn_bind]
  rcases runOn ((Sink.log operation inputs outputs args).run sink) h with ⟨e | ⟨_, _⟩, h'⟩ <;> rfl

theorem log_audit_returns {l : Ledger} (hs : (Sink.audit l).CanRecord (inputs ++ outputs) h) :
    ∃ l' e content t now, runOn (l.logTexts operation inputs outputs args) h =
        (.ok (l', e), { h with files := t, now }) ∧
      h.files.Puts h.workingDirectory l.path content t ∧ l'.path = l.path := by
  obtain ⟨hadmits, hstrings⟩ := canRecord_audit_iff.1 hs
  obtain ⟨is, rfl⟩ := LooseText.exists_strings_iff.2 fun t ht =>
    hstrings t (List.mem_append_left _ ht)
  obtain ⟨os, rfl⟩ := LooseText.exists_strings_iff.2 fun t ht =>
    hstrings t (List.mem_append_right _ ht)
  rw [Ledger.logTexts_strings]
  exact Ledger.log_returns operation is os args hadmits

/-- A record is made where the ledger can be written, and other files keep their content. -/
theorem log_returns (hs : sink.CanRecord (inputs ++ outputs) h) :
    ∃ e sink' h', runOn ((Sink.log operation inputs outputs args).run sink) h =
        (.ok (e, sink'), h') ∧
      (∀ texts, sink.CanRecord texts h → sink'.CanRecord texts h') ∧
      ∀ q b, h.Holds q b → sink.Spares h q → h'.Holds q b ∧ sink'.Spares h' q := by
  cases sink with
  | silent =>
    refine ⟨none, .silent, h, rfl, fun _ hs => hs, ?_⟩
    intro q b hq hspare
    exact ⟨hq, hspare⟩
  | audit l =>
    obtain ⟨hadmits, -⟩ := canRecord_audit_iff.1 hs
    obtain ⟨l', e, content, t, now, hr, hp, hpath⟩ :=
      log_audit_returns operation inputs outputs args hs
    refine ⟨some e, .audit l', { h with files := t, now }, ?_, ?_, ?_⟩
    · rw [runOn_log_audit, hr]
    · intro texts hs
      rw [canRecord_audit_iff] at hs ⊢
      rw [hpath]
      exact ⟨hp.node_ne_directory, hs.2⟩
    · intro q b hq hspare
      obtain ⟨place, -, hq', -⟩ := FileTree.read_eq_ok_iff.1 hq
      obtain ⟨place', hl', -⟩ := hadmits
      have hne : t.locate h.workingDirectory q ≠ t.locate h.workingDirectory l.path := by
        have hspare := hspare l rfl
        rw [Host.locate, hq', hl'] at hspare
        rw [hp.locate hq', hp.locate hl']
        exact hspare
      refine ⟨hp.read_of_ne hq hne, ?_⟩
      intro l₁ hl₁
      cases hl₁
      rw [hpath]
      exact hne

theorem log_audit_fails {l : Ledger} (hs : ¬ (Sink.audit l).CanRecord (inputs ++ outputs) h) :
    ∃ e h', runOn (l.logTexts operation inputs outputs args) h = (.error e, h') ∧ l.GivesUp h h' := by
  refine Ledger.logTexts_fails (.string operation) inputs outputs args ?_
  rintro ⟨hadmits, -, hstrings⟩
  exact hs (canRecord_audit_iff.2 ⟨hadmits, hstrings⟩)

theorem log_fails (hs : ¬ sink.CanRecord (inputs ++ outputs) h) :
    ∃ e h', runOn ((Sink.log operation inputs outputs args).run sink) h = (.error e, h') := by
  cases sink with
  | silent => exact absurd (canRecord_silent _ h) hs
  | audit l =>
    obtain ⟨e, h', hr, -⟩ := log_audit_fails operation inputs outputs args hs
    exact ⟨e, h', by rw [runOn_log_audit, hr]⟩

variable {operation inputs outputs args} {e : Option Entry} {sink' : Sink}

theorem canRecord_of_log
    (hlog : runOn ((Sink.log operation inputs outputs args).run sink) h = (.ok (e, sink'), h')) :
    sink.CanRecord (inputs ++ outputs) h := by
  by_contra hn
  obtain ⟨fault, h₁, hr⟩ := log_fails operation inputs outputs args hn
  rw [hr] at hlog
  cases hlog

theorem spares_log_iff
    (hlog : runOn ((Sink.log operation inputs outputs args).run sink) h = (.ok (e, sink'), h'))
    (hq : h.Holds p b) : sink'.Spares h' p ↔ sink.Spares h p := by
  have hcan := canRecord_of_log hlog
  cases sink with
  | silent =>
    cases hlog
    exact Iff.rfl
  | audit l =>
    obtain ⟨l', e', content, t, now, hr, hp, hpath⟩ :=
      log_audit_returns operation inputs outputs args hcan
    rw [runOn_log_audit, hr] at hlog
    cases hlog
    obtain ⟨place, -, hl, -⟩ := FileTree.read_eq_ok_iff.1 hq
    obtain ⟨⟨place', hl', -⟩, -⟩ := hcan l rfl
    have hsame : t.locate h.workingDirectory p ≠ t.locate h.workingDirectory l'.path ↔
        h.locate p ≠ h.locate l.path := by
      rw [hpath, hp.locate hl, hp.locate hl', Host.locate, hl, hl']
    constructor
    · intro hspare l₁ hl₁
      cases hl₁
      exact hsame.1 (hspare l' rfl)
    · intro hspare l₁ hl₁
      cases hl₁
      exact hsame.2 (hspare l rfl)

theorem holds_of_log
    (hlog : runOn ((Sink.log operation inputs outputs args).run sink) h = (.ok (e, sink'), h'))
    (hq : h.Holds p b) (hspare : sink.Spares h p) : h'.Holds p b := by
  obtain ⟨e', sink'', h'', hr, -, hkeep⟩ :=
    log_returns operation inputs outputs args (canRecord_of_log hlog)
  obtain ⟨hholds, -⟩ := hkeep p b hq hspare
  rw [hr] at hlog
  cases hlog
  exact hholds

end Sink

end UpdateSeal
