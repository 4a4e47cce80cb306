import UpdateSeal.Proofs.Appending

/-!
# Several ledgers on one file

Ledgers are opened on a file one after another and entries are logged through any of them. Each
ledger goes on from the end of the chain as it knows it. The file keeps an entry for each that was
logged, and checking it finds no fault if and only if every entry was logged through a ledger that
knew the end.
-/

namespace UpdateSeal

open UpdateSeal.Action

def Entry.call (e : Entry) : LooseText × List LooseText × List LooseText :=
  (e.operation, e.inputs.map .string, e.outputs.map .string)

namespace Ledger

/-- Opens one more ledger, or logs through the ledger that was opened with the given number. -/
inductive Step where
  | openNew
  | logThrough (i : ℕ) (operation : LooseText) (inputs outputs : List LooseText)
    (args : Json.Members)

/-- The texts can be written, and the arguments be read back: as a member of the line of an entry they
are within the 200 levels that the parser reads. -/
def Step.Storable : Step → Prop
  | .openNew => True
  | .logThrough _ operation inputs outputs args =>
    (operation.isString ∧ ∀ t ∈ inputs ++ outputs, t.isString) ∧ Readable args

variable (path : Path) (key : Bytes)

/-- A step with the ledgers that were opened. Nothing is logged through a ledger that is not
open. -/
def Step.perform (ledgers : List Ledger) : Step → Action (List Ledger)
  | .openNew => do
    let l ← openAt path (some key)
    return ledgers ++ [l]
  | .logThrough i operation inputs outputs args =>
    match ledgers[i]? with
    | none => return ledgers
    | some l => do
      let (l, _) ← l.logTexts operation inputs outputs args
      return ledgers.set i l

def run (steps : List Step) : Action (List Ledger) := steps.foldlM (Step.perform path key) []

/-! ### What was done -/

structure History where
  /-- For each ledger whether it is up to date: no other logged since it was opened or last
  logged. -/
  upToDate : List Bool := []
  logged : List (LooseText × List LooseText × List LooseText) := []
  /-- Every entry was logged through a ledger that was up to date. -/
  sound : Bool := true

namespace History

def after (past : History) : Step → History
  | .openNew => { past with upToDate := past.upToDate ++ [true] }
  | .logThrough i operation inputs outputs _ =>
    match past.upToDate[i]? with
    | none => past
    | some upToDate =>
      { upToDate := (List.replicate past.upToDate.length false).set i true
        logged := past.logged ++ [(operation, inputs, outputs)]
        sound := past.sound && upToDate }

theorem logged_after_le (past : History) (s : Step) :
    past.logged.length ≤ (past.after s).logged.length := by
  cases s with
  | openNew => exact Nat.le_refl _
  | logThrough i operation inputs outputs args =>
    rw [after]
    split
    · exact Nat.le_refl _
    · simp

theorem logged_foldl_le (steps : List Step) (past : History) :
    past.logged.length ≤ (steps.foldl after past).logged.length := by
  induction steps generalizing past with
  | nil => exact Nat.le_refl _
  | cons s steps ih => exact (logged_after_le past s).trans (ih _)

end History

/-- An open ledger goes on from the end of the chain, or from an end that it had before. -/
structure Follows (es : List Entry) (l : Ledger) (upToDate : Bool) : Prop where
  path : l.path = path
  key : l.key = key
  tail : ∃ n ≤ es.length, l.tail = tailOf (es.take n) ∧ (n == es.length) = upToDate

/-- The host and the open ledgers are as the past has it, and `es` are the entries of the file. -/
structure Tracks (past : History) (es : List Entry) (ledgers : List Ledger) (h : Host) : Prop where
  file : ∃ h', runOn (makeParents path) h = (.ok (), h') ∧ h'.HasLedger path es ∧
    (ledgers ≠ [] → h' = h)
  chain : Chain key es past.sound
  recordable : ∀ e ∈ es, e.Recordable
  logged : es.map Entry.call = past.logged
  follows : List.Forall₂ (Follows path key es) ledgers past.upToDate

variable {path key} {past : History} {es : List Entry} {ledgers : List Ledger} {l : Ledger}
  {h : Host} {e : Entry}

theorem Follows.of_stale {upToDate : Bool} (hl : Follows path key es l upToDate) :
    Follows path key (es ++ [e]) l false := by
  obtain ⟨n, hn, htail, -⟩ := hl.tail
  refine ⟨hl.path, hl.key, n, ?_, ?_, ?_⟩
  · rw [List.length_append]
    omega
  · rw [Chain.take_append_of_le e hn, htail]
  · rw [List.length_append, List.length_singleton, beq_eq_false_iff_ne]
    omega

theorem follows_end {tail : Tail} (htail : tail = tailOf es) :
    Follows path key es ⟨path, key, tail⟩ true :=
  ⟨rfl, rfl, es.length, Nat.le_refl _, by rw [htail, List.take_length], beq_self_eq_true _⟩

theorem exists_of_follows {flags : List Bool} (hf : List.Forall₂ (Follows path key es) ledgers flags)
    {i : ℕ} (hi : ledgers[i]? = some l) :
    ∃ upToDate, flags[i]? = some upToDate ∧ Follows path key es l upToDate := by
  induction hf generalizing i with
  | nil => cases hi
  | @cons l' upToDate ledgers flags hl _ ih =>
    cases i with
    | zero =>
      rw [List.getElem?_cons_zero, Option.some.injEq] at hi
      exact ⟨upToDate, rfl, hi ▸ hl⟩
    | succ i => exact ih hi

theorem follows_of_stale {flags : List Bool} (hf : List.Forall₂ (Follows path key es) ledgers flags)
    (e : Entry) :
    List.Forall₂ (Follows path key (es ++ [e])) ledgers (List.replicate flags.length false) := by
  induction hf with
  | nil => exact .nil
  | cons hl _ ih => exact .cons hl.of_stale ih

theorem follows_set {flags : List Bool} (hf : List.Forall₂ (Follows path key es) ledgers flags)
    (hl : Follows path key (es ++ [e]) l true) (i : ℕ) :
    List.Forall₂ (Follows path key (es ++ [e])) (ledgers.set i l)
      ((List.replicate flags.length false).set i true) := by
  induction hf generalizing i with
  | nil => exact .nil
  | cons hl' hf ih =>
    cases i with
    | zero => exact .cons hl (follows_of_stale hf e)
    | succ i => exact .cons hl'.of_stale (ih i)

theorem Tracks.openNew (ht : Tracks path key past es ledgers h) :
    ∃ ledgers' h', runOn (Step.perform path key ledgers .openNew) h = (.ok ledgers', h') ∧
      Tracks path key (past.after .openNew) es ledgers' h' := by
  obtain ⟨h', hmake, hl, -⟩ := ht.file
  refine ⟨ledgers ++ [⟨path, key, tailOf es⟩], h', ?_, ?_⟩
  · rw [Step.perform, runOn_bind_ok (hl.runOn_openAt hmake ht.recordable key)]
    rfl
  · exact ⟨⟨h', hl.makeParents, hl, fun _ => rfl⟩, ht.chain, ht.recordable, ht.logged,
      List.rel_append ht.follows (.cons (follows_end rfl) .nil)⟩

theorem Tracks.logThrough (ht : Tracks path key past es ledgers h) {i : ℕ} {operation : LooseText}
    {inputs outputs : List LooseText} {args : Json.Members}
    (htexts : operation.isString ∧ ∀ t ∈ inputs ++ outputs, t.isString)
    (hargs : (Json.Value.obj args).Storable 199)
    (hcount : (past.after (.logThrough i operation inputs outputs args)).logged.length <
      10 ^ Json.maxDigits) :
    ∃ es' ledgers' h',
      runOn (Step.perform path key ledgers (.logThrough i operation inputs outputs args)) h =
        (.ok ledgers', h') ∧
      Tracks path key (past.after (.logThrough i operation inputs outputs args)) es' ledgers'
        h' := by
  obtain ⟨hoperation, htexts⟩ := htexts
  obtain ⟨operation, rfl⟩ := LooseText.isString_iff.1 hoperation
  obtain ⟨inputs, rfl⟩ := LooseText.exists_strings_iff.2 fun t ht => htexts t (List.mem_append_left _ ht)
  obtain ⟨outputs, rfl⟩ :=
    LooseText.exists_strings_iff.2 fun t ht => htexts t (List.mem_append_right _ ht)
  rw [Step.perform]
  cases hledger : ledgers[i]? with
  | none =>
    have hpast : past.upToDate[i]? = none := by
      rw [List.getElem?_eq_none_iff] at hledger ⊢
      exact ht.follows.length_eq ▸ hledger
    refine ⟨es, ledgers, h, rfl, ?_⟩
    rw [History.after, hpast]
    exact ht
  | some l =>
    obtain ⟨upToDate, hpast, rfl, rfl, n, hn, htail, rfl⟩ := exists_of_follows ht.follows hledger
    obtain ⟨h', hmake, hl, hsame⟩ := ht.file
    -- where a ledger is open the directories are there, so none are made
    obtain rfl := hsame (List.ne_nil_of_mem (List.mem_of_getElem? hledger))
    simp only [History.after, hpast, List.length_append, List.length_singleton, ← ht.logged,
      List.length_map] at hcount ⊢
    obtain ⟨e, he⟩ : ∃ e, nextEntry l.key l.tail (Timestamp.text h'.now) operation inputs outputs
      args = e := ⟨_, rfl⟩
    obtain ⟨h'', hlog, hl'⟩ := hl.runOn_log operation inputs outputs args he
    have hcontinues := continues_nextEntry l.key l.tail (Timestamp.text h'.now) operation inputs
      outputs args
    have hrecordable := storable_nextEntry ht.chain hn hcount hargs (Timestamp.text h'.now)
      operation inputs outputs
    rw [← htail, he] at hrecordable
    rw [he, htail] at hcontinues
    have hend : tailOf [e] = tailOf (es ++ [e]) := by
      rw [hcontinues.tailOf es]
      exact hcontinues.tailOf []
    refine ⟨es ++ [e], ledgers.set i { l with tail := tailOf [e] }, h'', ?_, ?_⟩
    · simp only [logTexts_strings, runOn_bind_ok hlog]
      rfl
    · refine ⟨⟨h'', hl'.makeParents, hl', fun _ => rfl⟩, ht.chain.append hn hcontinues,
        List.forall_mem_append.2 ⟨ht.recordable, List.forall_mem_singleton.2 hrecordable⟩, ?_,
        follows_set ht.follows (follows_end hend) i⟩
      rw [List.map_append, List.map_singleton, ← he]
      rfl

theorem Tracks.step (ht : Tracks path key past es ledgers h) {s : Step} (hs : s.Storable)
    (hcount : (past.after s).logged.length < 10 ^ Json.maxDigits) :
    ∃ es' ledgers' h', runOn (s.perform path key ledgers) h = (.ok ledgers', h') ∧
      Tracks path key (past.after s) es' ledgers' h' := by
  cases s with
  | openNew =>
    obtain ⟨ledgers', h', hr, ht'⟩ := ht.openNew
    exact ⟨es, ledgers', h', hr, ht'⟩
  | logThrough i operation inputs outputs args =>
    obtain ⟨htexts, hargs⟩ := hs
    exact ht.logThrough htexts hargs.storable hcount

theorem Tracks.steps (ht : Tracks path key past es ledgers h) {steps : List Step}
    (hsteps : ∀ s ∈ steps, s.Storable)
    (hcount : (steps.foldl History.after past).logged.length < 10 ^ Json.maxDigits) :
    ∃ es' ledgers' h', runOn (steps.foldlM (Step.perform path key) ledgers) h = (.ok ledgers', h') ∧
      Tracks path key (steps.foldl History.after past) es' ledgers' h' := by
  induction steps generalizing past es ledgers h with
  | nil => exact ⟨es, ledgers, h, rfl, ht⟩
  | cons s steps ih =>
    obtain ⟨hs, hsteps⟩ := List.forall_mem_cons.1 hsteps
    rw [List.foldl_cons] at hcount ⊢
    -- entries only ever come to it, so the bound on the last number holds at every step
    obtain ⟨es₁, ledgers₁, h₁, hr, ht₁⟩ :=
      ht.step hs (Nat.lt_of_le_of_lt (History.logged_foldl_le steps _) hcount)
    obtain ⟨es₂, ledgers₂, h₂, hrest, ht₂⟩ := ih ht₁ hsteps hcount
    refine ⟨es₂, ledgers₂, h₂, ?_, ht₂⟩
    rw [List.foldlM_cons, runOn_bind_ok hr, hrest]

end Ledger

end UpdateSeal
