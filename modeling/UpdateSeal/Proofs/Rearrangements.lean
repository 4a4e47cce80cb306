import UpdateSeal.Proofs.Appending

/-!
# Lines that are dropped, repeated or moved

A ledger that is opened where nothing stands and logs through one handle leaves a line for each
call, and every line carries its number under its seal. So a file that is made of some of these
lines is found valid only if it holds the first ones in their order. What is cut off at the end is
not missed.
-/

namespace UpdateSeal

open UpdateSeal.Action

/-- The lines of the text in the file at `p`. -/
def Host.linesAt (h : Host) (p : Path) : List (List Char) :=
  match h.files.read h.workingDirectory p with
  | .ok b => ((Bytes.text? b).map fun s => Text.lines s.toList).getD []
  | .error _ => []

namespace Ledger

/-- What is given to one log call. -/
structure Call where
  operation : String
  inputs : List String := []
  outputs : List String := []
  args : Json.Members := []

def Call.perform (l : Ledger) (c : Call) : Action Ledger := do
  let (l, _) ← l.log c.operation c.inputs c.outputs c.args
  return l

/-- Opens a ledger and makes the calls through it. -/
def record (path : Path) (key : Bytes) (calls : List Call) : Action Ledger := do
  let l ← openAt path (some key)
  calls.foldlM Call.perform l

variable {path : Path} {key : Bytes} {es sel : List Entry} {e : Entry} {calls done : List Call}
  {l : Ledger} {h h' : Host}

/-! ### What every call preserves -/

/-- The entry holds all of the call if its arguments can be stored. -/
def Call.IsHeldBy (c : Call) (e : Entry) : Prop :=
  ((Json.Value.obj c.args).Named → e.Writable) ∧
    ∀ depth, (Json.Value.obj c.args).Storable depth → e.Storable depth

/-- `l` is the only ledger that wrote the file, an entry for each call. -/
structure Recorded (path : Path) (key : Bytes) (calls : List Call) (l : Ledger) (h : Host)
    (es : List Entry) : Prop where
  file : h.HasLedger path es
  chain : Chain key es true
  ledger : l = ⟨path, key, tailOf es⟩
  entries : List.Forall₂ Call.IsHeldBy calls es

theorem Recorded.perform (hl : Recorded path key done l h es)
    (hcount : es.length + 1 < 10 ^ Json.maxDigits) (c : Call) :
    ∃ l' h' es', runOn (c.perform l) h = (.ok l', h') ∧
      Recorded path key (done ++ [c]) l' h' es' := by
  obtain ⟨hfile, hchain, rfl, hentries⟩ := hl
  obtain ⟨e, he⟩ : ∃ e, nextEntry key (tailOf es) (Timestamp.text h.now) c.operation c.inputs
    c.outputs c.args = e := ⟨_, rfl⟩
  obtain ⟨h', hlog, hfile'⟩ :=
    hfile.runOn_log (l := ⟨path, key, tailOf es⟩) c.operation c.inputs c.outputs c.args he
  have hcontinues : Continues key (tailOf es) e := he ▸ continues_nextEntry ..
  have htail : tailOf [e] = tailOf (es ++ [e]) := by
    rw [hcontinues.tailOf es]
    exact hcontinues.tailOf []
  refine ⟨_, h', es ++ [e], runOn_bind_ok hlog, hfile', hchain.snoc hcontinues, by rw [htail], ?_⟩
  refine List.rel_append hentries (.cons ⟨fun hargs => ?_, fun depth hargs => ?_⟩ .nil)
  · have hnext := writable_nextEntry hchain (Nat.le_refl es.length) hargs
      (Timestamp.text h.now) c.operation c.inputs c.outputs
    rwa [List.take_length, he] at hnext
  · have hnext := storable_nextEntry hchain (Nat.le_refl es.length) hcount hargs
      (Timestamp.text h.now) c.operation c.inputs c.outputs
    rwa [List.take_length, he] at hnext

theorem Recorded.performAll (hl : Recorded path key done l h es)
    (hcount : done.length + calls.length < 10 ^ Json.maxDigits) :
    ∃ l' h' es', runOn (calls.foldlM Call.perform l) h = (.ok l', h') ∧
      Recorded path key (done ++ calls) l' h' es' := by
  induction calls generalizing done l h es with
  | nil => exact ⟨l, h, es, rfl, by rwa [List.append_nil]⟩
  | cons c calls ih =>
    rw [List.length_cons] at hcount
    have hlength := hl.entries.length_eq
    obtain ⟨l₁, h₁, es₁, hcall, hl₁⟩ := hl.perform (by omega) c
    have hcount₁ : (done ++ [c]).length + calls.length < 10 ^ Json.maxDigits := by
      rw [List.length_append, List.length_singleton]
      omega
    obtain ⟨l₂, h₂, es₂, hcalls, hl₂⟩ := ih hl₁ hcount₁
    rw [List.append_assoc, List.singleton_append] at hl₂
    exact ⟨l₂, h₂, es₂, by rw [List.foldlM_cons, runOn_bind_ok hcall, hcalls], hl₂⟩

theorem recorded_of_unused (hunused : h.Unused path) (key : Bytes)
    (hcount : calls.length < 10 ^ Json.maxDigits) :
    ∃ l h' es, runOn (record path key calls) h = (.ok l, h') ∧ Recorded path key calls l h' es := by
  obtain ⟨h₁, hmake, hnone⟩ := hunused
  have hfile := Host.hasLedger_of_unused hmake hnone
  have hopen := hfile.runOn_openAt hmake (List.forall_mem_nil _) key
  have hstart : Recorded path key [] ⟨path, key, tailOf []⟩ h₁ [] := ⟨hfile, .nil, rfl, .nil⟩
  have hcount' : ([] : List Call).length + calls.length < 10 ^ Json.maxDigits := by
    rwa [List.length_nil, Nat.zero_add]
  obtain ⟨l, h', es, hcalls, hl⟩ := hstart.performAll hcount'
  exact ⟨l, h', es, by rw [record, runOn_bind_ok hopen, hcalls], hl⟩

theorem Recorded.forall_entries (hl : Recorded path key calls l h es) {P : Entry → Prop}
    (hcalls : ∀ c ∈ calls, ∀ e, c.IsHeldBy e → P e) : ∀ e ∈ es, P e := by
  have hentries := hl.entries
  clear hl
  induction hentries with
  | nil => exact List.forall_mem_nil _
  | cons hce _ ih =>
    obtain ⟨hP, hcalls⟩ := List.forall_mem_cons.1 hcalls
    exact List.forall_mem_cons.2 ⟨hP _ hce, ih hcalls⟩

/-- The arguments name each member of an object once. -/
def Call.Storable (c : Call) : Prop := (Json.Value.obj c.args).Named

theorem Recorded.writable (hl : Recorded path key calls l h es) (hcalls : ∀ c ∈ calls, c.Storable) :
    ∀ e ∈ es, e.Writable :=
  hl.forall_entries fun c hc _ he => he.1 (hcalls c hc)

theorem Recorded.recordable (hl : Recorded path key calls l h es)
    (hcalls : ∀ c ∈ calls, Readable c.args) : ∀ e ∈ es, e.Recordable :=
  hl.forall_entries fun c hc _ he => he.2 199 (hcalls c hc).storable

/-! ### The lines of the file -/

theorem unbroken_lines (es : List Entry) : ∀ line ∈ es.map Entry.line, Text.Unbroken line :=
  List.forall_mem_map.2 fun e _ => e.unbroken_line

theorem linesAt_of_hasLedger (hfile : h.HasLedger path es) :
    h.linesAt path = es.map Entry.line := by
  obtain ⟨place, hl, hc⟩ := hfile.content
  have hl : h.files.locate h.workingDirectory path = .ok place := hl
  have hlines : Text.lines (Text.joinLines (es.map Entry.line)) = es.map Entry.line :=
    Text.lines_joinLines (unbroken_lines es)
  rcases hc with ⟨hn, hempty⟩ | ⟨mode, hn⟩
  · have hjoin : String.ofList (Text.joinLines (es.map Entry.line)) = "" :=
      Bytes.ofText_injective hempty
    have hnil : Text.joinLines (es.map Entry.line) = [] := String.ofList_injective hjoin
    rw [hnil] at hlines
    rw [← hlines, Host.linesAt, FileTree.read, hl, ok_bind, hn]
    rfl
  · have hread : h.files.read h.workingDirectory path = .ok (contentOf es) :=
      FileTree.read_eq_ok_iff.2 ⟨place, mode, hl, hn⟩
    simp only [Host.linesAt, hread, contentOf, Bytes.text?_ofText, Option.map_some,
      Option.getD_some, String.toList_ofList, hlines]

theorem ledgerEntries_of_lines {p : Path} {ls : List (List Char)}
    (hls : ∀ line ∈ ls, Text.Unbroken line)
    (hholds : h.Holds p (Bytes.ofText (String.ofList (Text.joinLines ls)))) :
    h.ledgerEntries p = entriesOfLines p 1 ls := by
  rw [Host.ledgerEntries_of_holds hholds, entriesOf_ofText, String.toList_ofList,
    Text.lines_joinLines hls]

/-- A line of a ledger is read as the entry that it was made of, or not read at all. -/
theorem entriesOfLines_writable (hes : ∀ e ∈ es, e.Writable) (p : Path) (number : ℕ) :
    entriesOfLines p number (es.map Entry.line) = .ok (es.map Entry.stored) ∨
      ∃ number' issues, entriesOfLines p number (es.map Entry.line) =
        .error (.value (.ledgerEntry number' p issues)) := by
  induction es generalizing number with
  | nil => exact .inl rfl
  | cons e es ih =>
    obtain ⟨he, hes⟩ := List.forall_mem_cons.1 hes
    rw [List.map_cons, ← List.singleton_append, entriesOfLines_append,
      entriesOfLines_singleton (trim_line e) (line_ne_nil e)]
    cases hread : Entry.ofLine e.line with
    | error issues => exact .inr ⟨number, issues, rfl⟩
    | ok e' =>
      obtain rfl := Entry.eq_stored_of_ofLine he hread
      rcases ih hes (number + 1) with hrest | ⟨number', issues, hrest⟩
      · exact .inl (by simp only [ok_bind, List.length_singleton, hrest]; rfl)
      · exact .inr ⟨number', issues, by simp only [ok_bind, List.length_singleton, hrest]; rfl⟩

/-! ### Which lines are found valid -/

theorem exists_map_of_subset_map {α β : Type} {f : α → β} {as : List α} {bs : List β}
    (h : bs ⊆ as.map f) : ∃ as' ⊆ as, as'.map f = bs := by
  induction bs with
  | nil => exact ⟨[], List.nil_subset _, rfl⟩
  | cons b bs ih =>
    obtain ⟨hb, hbs⟩ := List.cons_subset.1 h
    obtain ⟨a, ha, rfl⟩ := List.mem_map.1 hb
    obtain ⟨as', has', rfl⟩ := ih hbs
    exact ⟨a :: as', List.cons_subset.2 ⟨ha, has'⟩, rfl⟩

/-- Each entry carries its number, so entries of a chain form a chain only in their places. -/
theorem eq_take_of_chain (hes : Chain key es true) (hsel : Chain key sel true) (hsub : sel ⊆ es) :
    sel = es.take sel.length := by
  apply List.ext_getElem?
  intro i
  rw [List.getElem?_take]
  split_ifs with hi
  · obtain ⟨f, hf⟩ : ∃ f, sel[i]? = some f := ⟨_, List.getElem?_eq_getElem hi⟩
    obtain ⟨j, hj⟩ := List.getElem?_of_mem (hsub (List.mem_of_getElem? hf))
    have hjlt := (List.getElem?_eq_some_iff.1 hj).1
    have hnumber := (hsel.continues hf).sequence.symm.trans (hes.continues hj).sequence
    rw [hsel.sequence_eq rfl hi.le, hes.sequence_eq rfl hjlt.le] at hnumber
    obtain rfl : i = j := by simpa using hnumber
    rw [hf, hj]
  · exact List.getElem?_eq_none (not_lt.1 hi)

theorem exists_verdict_of_lines (hsel : ∀ e ∈ sel, e.Writable)
    (hcontinues : ∀ e ∈ sel, ∃ tail, Continues key tail e) (p : Path) :
    ∃ v, verdictOf key (entriesOfLines p 1 (sel.map Entry.line)) = .ok v ∧
      (v = .valid → Chain key sel true) := by
  rcases entriesOfLines_writable hsel p 1 with hread | ⟨number, issues, hread⟩
  · obtain ⟨r, hr⟩ := exists_checkChain hcontinues 1 genesis genesis
    have hcheck := checkChain_stored sel key 1 genesis genesis
    rw [verdictOf, hread, ok_bind, hcheck, hr]
    cases r with
    | none => exact ⟨.valid, rfl, fun _ => checkChain_eq_none_iff.1 hr⟩
    | some fault => exact ⟨.broken fault, rfl, by simp⟩
  · exact ⟨.unreadable number p, by rw [hread]; rfl, by simp⟩

/-- Lines of a ledger file, taken in any order and any number, are found valid with its key only if
they are its first ones: else the verdict tells of a fault. The arguments that were logged may nest
too deep to be read back, and hold longer whole numbers than are read. -/
theorem verify_rearranged (hunused : h.Unused path) (key : Bytes) (hcalls : ∀ c ∈ calls, c.Storable)
    (hcount : calls.length < 10 ^ Json.maxDigits) :
    ∃ l h', runOn (record path key calls) h = (.ok l, h') ∧
      (h'.linesAt path).length = calls.length ∧
      ∀ (reader : Ledger) (h'' : Host) (ls : List (List Char)), reader.key = key →
        ls ⊆ h'.linesAt path → (∀ k, ls ≠ (h'.linesAt path).take k) →
        h''.Holds reader.path (Bytes.ofText (String.ofList (Text.joinLines ls))) →
        ∃ v text, runOn reader.verify h'' = (.ok v, h'') ∧ v.isValid = false ∧
          v.message = some text := by
  obtain ⟨l, h', es, hrun, hl⟩ := recorded_of_unused hunused key hcount
  have hwritable := hl.writable hcalls
  have hlines := linesAt_of_hasLedger hl.file
  refine ⟨l, h', hrun, ?_, ?_⟩
  · rw [hlines, List.length_map, hl.entries.length_eq]
  · rw [hlines]
    intro reader h'' ls hkey hsub hne hholds
    obtain ⟨sel, hsel, rfl⟩ := exists_map_of_subset_map hsub
    have hsel' : ∀ e ∈ sel, e.Writable := fun e he => hwritable e (hsel he)
    have hcontinues : ∀ e ∈ sel, ∃ tail, Continues key tail e := by
      intro e he
      obtain ⟨j, hj⟩ := List.getElem?_of_mem (hsel he)
      exact ⟨_, hl.chain.continues hj⟩
    obtain ⟨v, hv, hvalid⟩ := exists_verdict_of_lines hsel' hcontinues reader.path
    have hfault : v ≠ .valid := by
      intro hv
      have htake := eq_take_of_chain hl.chain (hvalid hv) hsel
      exact hne sel.length (by rw [← List.map_take, ← htake])
    obtain ⟨hinvalid, text, htext⟩ := Verdict.message_of_ne_valid hfault
    refine ⟨v, text, ?_, hinvalid, htext⟩
    rw [runOn_verify, hkey, ledgerEntries_of_lines (unbroken_lines sel) hholds, hv]

def signAndVerify : List Call :=
  [{ operation := "sign_payload", inputs := ["payload"], args := [("count", .int 2)] },
    { operation := "verify_payload", outputs := ["digest"] }]

theorem signAndVerify_readable : ∀ c ∈ signAndVerify, Readable c.args := by
  have hbounded : Json.Bounded 2 := Json.bounded_of_small (by decide)
  have hcount : (Json.Value.obj [("count", .int 2)]).Storable 199 :=
    .obj nofun (by decide) (List.forall_mem_singleton.2 (.int 198 hbounded))
  have hnone : (Json.Value.obj []).Storable 199 := Json.Value.storable_empty 199
  simp only [signAndVerify, List.forall_mem_cons]
  exact ⟨readable_of_storable hcount, readable_of_storable hnone, List.forall_mem_nil _⟩

theorem unused_empty : Host.Unused {} ledgerPath := ⟨{}, rfl, rfl⟩

theorem signAndVerify_count : signAndVerify.length < 10 ^ Json.maxDigits := by
  show 2 < _
  decide +kernel

/-- The lines of a file twice over are no first part of them. -/
theorem verify_doubled :
    (Host.Unused {} ledgerPath ∧ (∀ c ∈ signAndVerify, c.Storable) ∧
      signAndVerify.length < 10 ^ Json.maxDigits) ∧
    ∃ l h' ls, runOn (record ledgerPath [7] signAndVerify) {} = (.ok l, h') ∧
      (h'.linesAt ledgerPath).length = 2 ∧
      (ls ⊆ h'.linesAt ledgerPath ∧ (∀ k, ls ≠ (h'.linesAt ledgerPath).take k)) ∧
      ∃ v text, (runOn (⟨ledgerPath, [7], {}⟩ : Ledger).verify
          (ledgerHost (String.ofList (Text.joinLines ls)))).1 = .ok v ∧
        v.isValid = false ∧ v.message = some text := by
  have hcalls : ∀ c ∈ signAndVerify, c.Storable := fun c hc =>
    (signAndVerify_readable c hc).storable.named
  obtain ⟨l, h', hrun, hlength, hlines⟩ :=
    verify_rearranged unused_empty [7] hcalls signAndVerify_count
  have hlength : (h'.linesAt ledgerPath).length = 2 := hlength
  have hsub : h'.linesAt ledgerPath ++ h'.linesAt ledgerPath ⊆ h'.linesAt ledgerPath :=
    List.append_subset.2 ⟨List.Subset.refl _, List.Subset.refl _⟩
  have hne : ∀ k, h'.linesAt ledgerPath ++ h'.linesAt ledgerPath ≠
      (h'.linesAt ledgerPath).take k := by
    intro k htake
    have htake := congrArg List.length htake
    rw [List.length_append, List.length_take] at htake
    omega
  obtain ⟨v, text, hverify, hv⟩ :=
    hlines ⟨ledgerPath, [7], {}⟩ _ _ rfl hsub hne (ledgerHost_holds _)
  exact ⟨⟨unused_empty, hcalls, signAndVerify_count⟩, l, h', _, hrun, hlength, ⟨hsub, hne⟩, v, text,
    congrArg Prod.fst hverify, hv⟩

/-- The first lines of a ledger file are found valid, however many are cut off behind them, and also
by the ledger that wrote them all and remembers the end. -/
theorem verify_cut (hunused : h.Unused path) (key : Bytes) (hcalls : ∀ c ∈ calls, Readable c.args)
    (hcount : calls.length < 10 ^ Json.maxDigits) :
    ∃ l h', runOn (record path key calls) h = (.ok l, h') ∧
      (h'.linesAt path).length = calls.length ∧
      ∀ k h'', h''.Holds path
          (Bytes.ofText (String.ofList (Text.joinLines ((h'.linesAt path).take k)))) →
        runOn l.verify h'' = (.ok .valid, h'') := by
  obtain ⟨l, h', es, hrun, hl⟩ := recorded_of_unused hunused key hcount
  have hrecordable := hl.recordable hcalls
  have hlines := linesAt_of_hasLedger hl.file
  refine ⟨l, h', hrun, ?_, ?_⟩
  · rw [hlines, List.length_map, hl.entries.length_eq]
  · rw [hlines]
    intro k h'' hholds
    have hfirst : ∀ e ∈ es.take k, e.Recordable := fun e he =>
      hrecordable e (List.mem_of_mem_take he)
    have hvalid : verdictOf key (.ok ((es.take k).map Entry.stored)) = .ok .valid :=
      verdictOf_eq_valid_iff.2 ⟨_, rfl, chain_map_stored_iff.2 (hl.chain.take k)⟩
    rw [← List.map_take] at hholds
    obtain ⟨-, -, rfl, -⟩ := hl
    rw [runOn_verify, ledgerEntries_of_lines (unbroken_lines _) hholds,
      entriesOfLines_lines hfirst, hvalid]

/-- All is cut off. -/
theorem verify_emptied :
    (Host.Unused {} ledgerPath ∧ (∀ c ∈ signAndVerify, Readable c.args) ∧
      signAndVerify.length < 10 ^ Json.maxDigits) ∧
    ∃ l h', runOn (record ledgerPath [7] signAndVerify) {} = (.ok l, h') ∧
      (h'.linesAt ledgerPath).length = 2 ∧
      runOn l.verify (ledgerHost "") = (.ok .valid, ledgerHost "") := by
  obtain ⟨l, h', hrun, hlength, hcut⟩ :=
    verify_cut unused_empty [7] signAndVerify_readable signAndVerify_count
  exact ⟨⟨unused_empty, signAndVerify_readable, signAndVerify_count⟩, l, h', hrun, hlength,
    hcut 0 _ (ledgerHost_holds "")⟩

end Ledger

end UpdateSeal
