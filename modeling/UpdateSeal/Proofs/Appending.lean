import UpdateSeal.Proofs.Audits

/-!
# One more entry

Logging puts a line behind whatever the file of the ledger holds. Where the text of the file has
ended its last line, the entries are those that were there and the new one, and a ledger without
fault stays one without fault. A last line that is not ended takes the new line up into itself, and
no line is read whose arguments nest too deep.
-/

namespace UpdateSeal

namespace Json

end Json

open UpdateSeal.Action

namespace Ledger

variable {path : Path} {number : ℕ} {e e' : Entry} {es : List Entry} {blanks : List Char}

/-! ### Lines behind a text -/

theorem entriesOfLines_append (front back : List (List Char)) :
    entriesOfLines path number (front ++ back) =
      entriesOfLines path number front >>= fun es =>
        (entriesOfLines path (number + front.length) back).map (es ++ ·) := by
  induction front generalizing number with
  | nil =>
    rw [List.nil_append, entriesOfLines, ok_bind]
    cases entriesOfLines path number back <;> rfl
  | cons line front ih =>
    have hnumber : number + (line :: front).length = number + 1 + front.length := by
      rw [List.length_cons]
      omega
    rw [List.cons_append, entriesOfLines, entriesOfLines, hnumber, ih]
    split
    · rfl
    · split
      · rfl
      · cases entriesOfLines path (number + 1) front with
        | error fault => rfl
        | ok es => cases entriesOfLines path (number + 1 + front.length) back <;> rfl

theorem entriesOfLines_blank (hunbroken : Text.Unbroken blanks)
    (hblanks : ∀ c ∈ blanks, Text.isSpace c) :
    entriesOfLines path number (Text.lines blanks) = .ok [] := by
  have htrim : Text.trim Text.isSpace blanks = [] := by
    have hnil := Text.trim_append_of_blank hblanks []
    rwa [List.append_nil] at hnil
  rcases eq_or_ne blanks [] with rfl | hne
  · rfl
  · rw [Text.lines_of_unbroken hunbroken hne, entriesOfLines, htrim]
    rfl

theorem entriesOfLines_singleton {line cs : List Char} (htrim : Text.trim Text.isSpace line = cs)
    (hne : cs ≠ []) :
    entriesOfLines path number [line] =
      match Entry.ofLine cs with
      | .error issues => .error (.value (.ledgerEntry number path issues))
      | .ok e => .ok [e] := by
  obtain ⟨c, cs, rfl⟩ := List.exists_cons_of_ne_nil hne
  rw [entriesOfLines, htrim]
  simp only
  cases Entry.ofLine (c :: cs) <;> rfl

theorem trim_append_line (hblanks : ∀ c ∈ blanks, Text.isSpace c) (e : Entry) :
    Text.trim Text.isSpace (blanks ++ e.line) = e.line := by
  obtain ⟨cs, hline⟩ := e.line_ends
  rw [Text.trim_append_of_blank hblanks, hline, Text.trim_of_ends (by decide) (by decide)]

theorem line_ne_nil (e : Entry) : e.line ≠ [] := by
  obtain ⟨cs, hline⟩ := e.line_ends
  rw [hline]
  simp

theorem bytes_line_ne_nil (e : Entry) : Bytes.ofText (String.ofList (e.line ++ ['\n'])) ≠ [] := by
  intro hnil
  have hempty : Bytes.ofText "" = [] := rfl
  have hline := congrArg String.toList (Bytes.ofText_injective (hnil.trans hempty.symm))
  simp at hline

theorem entriesOf_ofText (path : Path) (s : String) :
    entriesOf path (Bytes.ofText s) = entriesOfLines path 1 (Text.lines s.toList) := by
  rw [entriesOf, Bytes.text?_ofText]

theorem entriesOf_append_blank {front : List Char}
    (hlast : ∀ c ∈ front.getLast?, c = '\n' ∨ c = '\r') (hunbroken : Text.Unbroken blanks)
    (hblanks : ∀ c ∈ blanks, Text.isSpace c) :
    entriesOf path (Bytes.ofText (String.ofList (front ++ blanks))) =
      entriesOfLines path 1 (Text.lines front) := by
  rw [entriesOf_ofText, String.toList_ofList, Text.lines_append_of_ended hlast hunbroken.head?_ne,
    entriesOfLines_append]
  cases entriesOfLines path 1 (Text.lines front) with
  | error fault => rfl
  | ok es => simp [entriesOfLines_blank hunbroken hblanks, ok_bind, Except.map]

theorem trim_line (e : Entry) : Text.trim Text.isSpace e.line = e.line :=
  trim_append_line (List.forall_mem_nil _) e

theorem entriesOfLines_line (he : e.Recordable) :
    entriesOfLines path number [e.line] = .ok [e.stored] := by
  rw [entriesOfLines_singleton (trim_line e) (line_ne_nil e), Entry.ofLine_line he]

theorem entriesOf_line (he : e.Recordable) :
    entriesOf path (Bytes.ofText (String.ofList e.line)) = .ok [e.stored] := by
  rw [entriesOf_ofText, String.toList_ofList,
    Text.lines_of_unbroken e.unbroken_line (line_ne_nil _)]
  exact entriesOfLines_line he

/-- Behind a text that has ended its last line, the line of an entry is a line of its own. -/
theorem entriesOf_append_line {s : String} (hes : entriesOf path (Bytes.ofText s) = .ok es)
    (hended : Text.Ended s.toList) (e : Entry) :
    ∃ number, entriesOf path (Bytes.ofText s ++ Bytes.ofText (String.ofList (e.line ++ ['\n']))) =
      match Entry.ofLine e.line with
      | .error issues => .error (.value (.ledgerEntry number path issues))
      | .ok e' => .ok (es ++ [e']) := by
  obtain ⟨front, blanks, hs, hlast, hunbroken, hblanks⟩ := hended
  obtain rfl : s = String.ofList (front ++ blanks) := by rw [← hs, String.ofList_toList]
  have hline : Text.Unbroken (blanks ++ e.line) := hunbroken.append e.unbroken_line
  have hlines : Text.lines (blanks ++ e.line ++ ['\n']) = [blanks ++ e.line] :=
    Text.linesFrom_append hline [] []
  have hhead : (blanks ++ e.line ++ ['\n']).head? ≠ some '\n' := by
    rw [List.head?_append_of_ne_nil _ (by simp [line_ne_nil])]
    exact hline.head?_ne
  rw [entriesOf_append_blank hlast hunbroken hblanks] at hes
  refine ⟨1 + (Text.lines front).length, ?_⟩
  rw [← Bytes.ofText_ofList_append, entriesOf_ofText, String.toList_ofList, List.append_assoc,
    ← List.append_assoc blanks, Text.lines_append_of_ended hlast hhead, hlines,
    entriesOfLines_append, hes, ok_bind,
    entriesOfLines_singleton (trim_append_line hblanks e) (line_ne_nil e)]
  cases Entry.ofLine e.line <;> rfl

variable {h₀ h h' : Host} {l l' : Ledger} {key : Bytes} {operation : String}
  {inputs outputs : List String} {args : Json.Members}

theorem runOn_log_eq_ok (hlog : runOn (l.log operation inputs outputs args) h = (.ok (l', e), h')) :
    e = nextEntry l.key l.tail (Timestamp.text h.now) operation inputs outputs args ∧
      l' = { l with tail := tailOf [e] } ∧
      ∃ place b t, h.locate l.path = .ok place ∧ h.files.ContentAt place b ∧
        h.files.Puts h.workingDirectory l.path
          (b ++ Bytes.ofText (String.ofList (e.line ++ ['\n']))) t ∧
        h' = { h with now := h.now + h.clockStep, files := t } := by
  rw [log_eq, runOn_bind_ok runOn_readClock] at hlog
  obtain ⟨_, h₁, happend, hreturn⟩ := runOn_bind_eq_ok.1 hlog
  rw [Action.append, runOn_update] at happend
  split at happend
  · next t hmodify =>
    obtain ⟨place, b, hl, hc, hputs⟩ := FileTree.contentAt_of_modify hmodify
    cases happend
    cases hreturn
    exact ⟨rfl, rfl, place, b, t, hl, hc, hputs, rfl⟩
  · cases happend

theorem holds_of_log {b : Bytes} (hb : h.Holds l.path b)
    (hlog : runOn (l.log operation inputs outputs args) h = (.ok (l', e), h')) :
    h'.Holds l.path (b ++ Bytes.ofText (String.ofList (e.line ++ ['\n']))) := by
  obtain ⟨-, -, place, b', t, hl, hc, hputs, rfl⟩ := runOn_log_eq_ok hlog
  obtain ⟨place', mode, hl', hn⟩ := FileTree.read_eq_ok_iff.1 hb
  obtain rfl := Except.ok.inj (hl.symm.trans hl')
  rw [FileTree.ContentAt, hn] at hc
  obtain rfl : b = b' := by simpa using hc
  exact hputs.read

theorem exists_of_log_audit {inputs outputs : List LooseText} {x : Option Entry} {sink : Sink}
    (hlog : runOn ((Sink.log operation inputs outputs args).run (.audit l)) h = (.ok (x, sink), h₁)) :
    ∃ is os l' e, inputs = is.map .string ∧ outputs = os.map .string ∧
      runOn (l.log operation is os args) h = (.ok (l', e), h₁) := by
  rw [Sink.runOn_log_audit] at hlog
  cases hr : runOn (l.logTexts operation inputs outputs args) h with
  | mk r h' =>
    rw [hr] at hlog
    cases r with
    | error fault => cases hlog
    | ok q =>
      cases hlog
      obtain ⟨o, is, os, ho, his, hos, hr⟩ := log_of_logTexts hr
      cases ho
      exact ⟨is, os, q.1, q.2, his, hos, hr⟩

/-- The file at `path`, if there is one, has ended its last line. -/
def EndsAt (h : Host) (path : Path) : Prop :=
  ∀ s, h.Holds path (Bytes.ofText s) → Text.Ended s.toList

theorem exists_text_of_entriesOf {b : Bytes} (h : entriesOf path b = .ok es) :
    ∃ s, b = Bytes.ofText s := by
  unfold entriesOf at h
  split at h
  · obtain ⟨_, -, h⟩ := bind_eq_ok_iff.1 h
    cases h
  · next s hs => exact ⟨s, Bytes.eq_ofText_of_text? hs⟩

theorem exists_text_of_log (hes : h.ledgerEntries l.path = .ok es) (hends : EndsAt h l.path)
    (hlog : runOn (l.log operation inputs outputs args) h = (.ok (l', e), h')) :
    ∃ s, entriesOf l.path (Bytes.ofText s) = .ok es ∧ Text.Ended s.toList ∧
      h'.Holds l.path (Bytes.ofText s ++ Bytes.ofText (String.ofList (e.line ++ ['\n']))) := by
  obtain ⟨-, -, place, b, t, hl, hc, hputs, rfl⟩ := runOn_log_eq_ok hlog
  rw [Host.ledgerEntries_of_contentAt hl hc] at hes
  obtain ⟨s, rfl⟩ := exists_text_of_entriesOf hes
  refine ⟨s, hes, ?_, hputs.read⟩
  rcases hc with ⟨-, hempty⟩ | ⟨mode, hn⟩
  · obtain rfl : s = "" := Bytes.ofText_injective hempty
    exact Text.ended_nil
  · exact hends s (FileTree.read_eq_ok_iff.2 ⟨place, mode, hl, hn⟩)

theorem ledgerEntries_of_log (hes : h.ledgerEntries l.path = .ok es) (hends : EndsAt h l.path)
    (hlog : runOn (l.log operation inputs outputs args) h = (.ok (l', e), h')) :
    ∃ number, h'.ledgerEntries l.path =
      match Entry.ofLine e.line with
      | .error issues => .error (.value (.ledgerEntry number l.path issues))
      | .ok e' => .ok (es ++ [e']) := by
  obtain ⟨s, hes, hended, hholds⟩ := exists_text_of_log hes hends hlog
  rw [Host.ledgerEntries_of_holds hholds]
  exact entriesOf_append_line hes hended e

theorem endsAt_of_log (hes : h.ledgerEntries l.path = .ok es) (hends : EndsAt h l.path)
    (hlog : runOn (l.log operation inputs outputs args) h = (.ok (l', e), h')) :
    EndsAt h' l.path := by
  obtain ⟨s, -, -, hholds⟩ := exists_text_of_log hes hends hlog
  intro s' hholds'
  have hcontent := Except.ok.inj (hholds'.symm.trans hholds)
  rw [← String.ofList_toList (s := s), ← Bytes.ofText_ofList_append] at hcontent
  obtain rfl := Bytes.ofText_injective hcontent
  rw [String.toList_ofList, ← List.append_assoc]
  exact Text.ended_of_getLast? (by simp)

/-- `l` is what opening its file gives, and the file holds these entries without fault. -/
structure Current (l : Ledger) (h : Host) (es : List Entry) : Prop where
  parents : runOn (makeParents l.path) h = (.ok (), h)
  entries : h.ledgerEntries l.path = .ok es
  chain : Chain l.key es true
  tail : l.tail = tailOf es

namespace Current

theorem verify (hl : Current l h es) : runOn l.verify h = (.ok .valid, h) := by
  rw [runOn_verify, verdictOf_eq_valid_iff.2 ⟨es, hl.entries, hl.chain⟩]

theorem readEntries (hl : Current l h es) : runOn l.readEntries h = (.ok es, h) := by
  rw [runOn_readEntries, hl.entries]

theorem openAt (hl : Current l h es) :
    runOn (Ledger.openAt l.path (some l.key)) h = (.ok l, h) := by
  refine Host.runOn_openAt_eq_ok_iff.2 ⟨hl.parents, es, hl.entries, ?_⟩
  rw [← hl.tail]

theorem storable_of_log (hl : Current l h es) {depth : ℕ}
    (hargs : (Json.Value.obj args).Storable depth) (hcount : es.length + 1 < 10 ^ Json.maxDigits)
    (hlog : runOn (l.log operation inputs outputs args) h = (.ok (l', e), h')) :
    e.Storable depth := by
  have hstorable := storable_nextEntry hl.chain (Nat.le_refl es.length) hcount hargs
    (Timestamp.text h.now) operation inputs outputs
  rw [List.take_length, ← hl.tail] at hstorable
  exact (runOn_log_eq_ok hlog).1 ▸ hstorable

/-- A log call leaves the ledger as it found it, with one entry more. -/
theorem log (hl : Current l h es) (hends : EndsAt h l.path)
    (hargs : (Json.Value.obj args).Storable 199) (hcount : es.length + 1 < 10 ^ Json.maxDigits)
    (hlog : runOn (l.log operation inputs outputs args) h = (.ok (l', e), h')) :
    Current l' h' (es ++ [e.stored]) := by
  obtain ⟨he, hl', place, b, t, -, -, hputs, hh'⟩ := runOn_log_eq_ok hlog
  have hrecordable : e.Recordable := hl.storable_of_log hargs hcount hlog
  have hcontinues : Continues l.key (tailOf es) e := by
    rw [he, ← hl.tail]
    exact continues_nextEntry ..
  have hstored := hcontinues.stored
  obtain ⟨number, hentries⟩ := ledgerEntries_of_log hl.entries hends hlog
  rw [Entry.ofLine_line hrecordable] at hentries
  subst hl'
  refine ⟨?_, hentries, hl.chain.snoc hstored, ?_⟩
  · have hparent := isDirectoryAt_of_makeDirectories hl.parents
    subst hh'
    exact runOn_makeDirectories (hputs.keepsDirectories.isDirectoryAt hparent)
  · rw [hstored.tailOf es, Entry.contentHash_stored]
    exact hcontinues.tailOf []

end Current

/-! ### A ledger with one entry -/

/-- A host with a ledger file of this text, and nothing else. -/
def ledgerHost (s : String) : Host :=
  { files := ⟨[(["ledger"], .file (Bytes.ofText s) FileTree.plainMode)]⟩ }

def ledgerPath : Path := ⟨false, ["ledger"]⟩

def firstEntry : Entry :=
  nextEntry [7] {} "1970-01-01T00:00:00+00:00" "sign_payload" ["payload"] ["digest"] []

theorem firstEntry_recordable : firstEntry.Recordable := by
  have hargs : (Json.Value.obj []).Storable 199 := Json.Value.storable_empty 199
  exact storable_nextEntry .nil (Nat.le_refl 0) (by decide +kernel) hargs _ _ _ _

theorem firstEntry_chain : Chain [7] [firstEntry.stored] true :=
  Chain.nil.snoc (continues_nextEntry ..).stored

theorem ledgerHost_holds (s : String) : (ledgerHost s).Holds ledgerPath (Bytes.ofText s) := rfl

theorem ledgerHost_admits (s : String) : (ledgerHost s).Admits ledgerPath :=
  ⟨["ledger"], rfl, by simp [ledgerHost, FileTree.node?]⟩

theorem current_ledgerHost {s : String} (hes : entriesOf ledgerPath (Bytes.ofText s) = .ok es)
    (hchain : Chain key es true) : Current ⟨ledgerPath, key, tailOf es⟩ (ledgerHost s) es :=
  ⟨runOn_makeDirectories rfl, (Host.ledgerEntries_of_holds (ledgerHost_holds s)).trans hes,
    hchain, rfl⟩

theorem endsAt_ledgerHost {s : String} (hs : Text.Ended s.toList) :
    EndsAt (ledgerHost s) ledgerPath := by
  intro s' hs'
  obtain rfl := Bytes.ofText_injective (Except.ok.inj (hs'.symm.trans (ledgerHost_holds s)))
  exact hs

theorem unbroken_blank : Text.Unbroken [' '] := by simp [Text.Unbroken]

theorem isSpace_blank : ∀ c ∈ [' '], Text.isSpace c :=
  List.forall_mem_singleton.2 (by decide)

theorem ended_line (e : Entry) : ∀ c ∈ (e.line ++ ['\n']).getLast?, c = '\n' ∨ c = '\r' := by simp

theorem entriesOf_firstEntry {blanks : List Char} (hunbroken : Text.Unbroken blanks)
    (hblanks : ∀ c ∈ blanks, Text.isSpace c) :
    entriesOf ledgerPath (Bytes.ofText (String.ofList (firstEntry.line ++ ['\n'] ++ blanks))) =
      .ok [firstEntry.stored] := by
  have hlines : Text.lines (firstEntry.line ++ ['\n']) = [firstEntry.line] :=
    Text.linesFrom_append (Entry.unbroken_line _) [] []
  rw [entriesOf_append_blank (ended_line firstEntry) hunbroken hblanks, hlines]
  exact entriesOfLines_line firstEntry_recordable

/-- Arguments that are read back: in the line of an entry they lie within the 200 levels that the
parser reads. -/
def Readable (args : Json.Members) : Prop := (Json.Value.obj [("args", .obj args)]).Storable 200

theorem Readable.storable (h : Readable args) : (Json.Value.obj args).Storable 199 :=
  (Json.Value.storable_obj_iff.1 h).2 _ (List.mem_singleton_self _)

theorem readable_of_storable (h : (Json.Value.obj args).Storable 199) : Readable args :=
  .obj nofun (by simp) (List.forall_mem_singleton.2 h)

/-- A whole number of as many digits as are read, and a sign. -/
def longNumber : Json.Value := .int (-(10 ^ Json.maxDigits - 1))

end Ledger

end UpdateSeal
