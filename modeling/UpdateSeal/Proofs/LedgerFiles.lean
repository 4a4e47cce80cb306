import UpdateSeal.Proofs.Chains
import UpdateSeal.Proofs.Recording

/-!
# Ledger files

The file of a ledger holds the lines of its entries, each with a line feed behind it. Reading it
gives the entries, opening it finds the end of their chain, and logging puts one more line at the
end.
-/

namespace UpdateSeal

namespace FileTree

variable {t t' : FileTree} {base place place' : Place} {p : Path} {b : Bytes}

theorem follow_append (front back : List LooseText) :
    t.follow place (front ++ back) =
      t.follow place front >>= fun place' => t.follow place' back := by
  induction front generalizing place with
  | nil => rfl
  | cons part front ih =>
    rw [List.cons_append, follow, follow]
    split
    · rfl
    · rfl
    · exact ih

theorem exists_locate_of_parent (hd : t.isDirectoryAt base p.parent) :
    ∃ place, t.locate base p = .ok place := by
  obtain ⟨place, hl, hn⟩ := isDirectoryAt_iff.1 hd
  rcases List.eq_nil_or_concat' p.parts with hparts | ⟨front, name, hparts⟩
  · have hparent : p.parent = p := by
      simp only [Path.parent, hparts, List.dropLast_nil]
      rw [← hparts]
    exact ⟨place, hparent ▸ hl⟩
  · have hl : t.follow (if p.absolute then [] else base) front = .ok place := by
      simpa [locate, Path.parent, hparts] using hl
    rw [locate, hparts, follow_append, hl, ok_bind, follow, hn]
    exact ⟨_, rfl⟩

/-- What a file at `place` holds, nothing where no file is. -/
def ContentAt (t : FileTree) (place : Place) (b : Bytes) : Prop :=
  (t.node? place = none ∧ b = []) ∨ ∃ mode, t.node? place = some (.file b mode)

theorem ContentAt.not_directory (hc : t.ContentAt place b) : t.node? place ≠ some .directory := by
  rcases hc with ⟨hn, -⟩ | ⟨mode, hn⟩ <;> simp [hn]

theorem ContentAt.modify (hc : t.ContentAt place b) (hl : t.locate base p = .ok place) (mode : Nat)
    (change : Bytes → Bytes) :
    ∃ mode', t.modify base p mode change = .ok (t.set place (.file (change b) mode')) := by
  rcases hc with ⟨hn, rfl⟩ | ⟨mode', hn⟩
  · refine ⟨mode, ?_⟩
    simp only [FileTree.modify, hl, ok_bind, hn]
    rfl
  · refine ⟨mode', ?_⟩
    simp only [FileTree.modify, hl, ok_bind, hn]
    rfl

theorem contentAt_of_modify {mode : Nat} {change : Bytes → Bytes}
    (h : t.modify base p mode change = .ok t') :
    ∃ place b, t.locate base p = .ok place ∧ t.ContentAt place b ∧ t.Puts base p (change b) t' := by
  unfold FileTree.modify at h
  obtain ⟨place, hl, h⟩ := bind_eq_ok_iff.1 h
  cases hn : t.node? place with
  | none =>
    simp only [hn, pure_eq_ok_iff] at h
    exact ⟨place, [], hl, .inl ⟨hn, rfl⟩, place, mode, hl, by simp [hn], h.symm⟩
  | some n =>
    cases n with
    | directory => simp [hn, throw, throwThe, MonadExceptOf.throw] at h
    | file b mode' =>
      simp only [hn, pure_eq_ok_iff] at h
      exact ⟨place, b, hl, .inr ⟨mode', hn⟩, place, mode', hl, by simp [hn], h.symm⟩

end FileTree

open UpdateSeal.Action

namespace Ledger

variable {path : Path} {es : List Entry}

def contentOf (es : List Entry) : Bytes :=
  Bytes.ofText (String.ofList (Text.joinLines (es.map Entry.line)))

theorem contentOf_append (es : List Entry) (e : Entry) :
    contentOf (es ++ [e]) = contentOf es ++ Bytes.ofText (String.ofList (e.line ++ ['\n'])) := by
  rw [contentOf, contentOf, List.map_append, List.map_singleton, Text.joinLines,
    List.flatMap_append, List.flatMap_singleton, Bytes.ofText_ofList_append]
  rfl

theorem entriesOfLines_lines (hes : ∀ e ∈ es, e.Recordable) (number : ℕ) :
    entriesOfLines path number (es.map Entry.line) = .ok (es.map Entry.stored) := by
  induction es generalizing number with
  | nil => rfl
  | cons e es ih =>
    obtain ⟨he, hes⟩ := List.forall_mem_cons.1 hes
    obtain ⟨cs, hline⟩ := e.line_ends
    have hread := Entry.ofLine_line he
    rw [hline, List.cons_append] at hread
    -- a brace stands at either end of a line, so nothing is trimmed
    rw [List.map_cons, entriesOfLines, hline, Text.trim_of_ends (by decide) (by decide),
      List.cons_append]
    simp only [hread, ih hes]
    rfl

theorem entriesOf_contentOf (hes : ∀ e ∈ es, e.Recordable) :
    entriesOf path (contentOf es) = .ok (es.map Entry.stored) := by
  have hlines : Text.lines (Text.joinLines (es.map Entry.line)) = es.map Entry.line := by
    apply Text.lines_joinLines
    rw [List.forall_mem_map]
    exact fun e _ => e.unbroken_line
  rw [entriesOf, contentOf, Bytes.text?_ofText]
  simp only [String.toList_ofList, hlines]
  exact entriesOfLines_lines hes 1

end Ledger

namespace Host

/-- What reading the ledger file at `path` gives. -/
def ledgerEntries (h : Host) (path : Path) : Except Failure (List Entry) :=
  if h.files.exists? h.workingDirectory path then
    match h.files.read h.workingDirectory path with
    | .ok b => Ledger.entriesOf path b
    | .error reason => .error (.storage ⟨reason, some path⟩)
  else .ok []

/-- The ledger at `path` holds these entries, and can be opened and written. -/
structure HasLedger (h : Host) (path : Path) (es : List Entry) : Prop where
  parent : h.files.isDirectoryAt h.workingDirectory path.parent
  content : ∃ place, h.locate path = .ok place ∧ h.files.ContentAt place (Ledger.contentOf es)

/-- A ledger can be made at `path`: its directories can, and then nothing stands there. -/
def Unused (h : Host) (path : Path) : Prop :=
  ∃ h', runOn (makeParents path) h = (.ok (), h') ∧
    h'.files.exists? h'.workingDirectory path = false

variable {h h' : Host} {path : Path} {es : List Entry} {key : Bytes}

theorem runOn_entriesAt (path : Path) (h : Host) :
    runOn (Ledger.entriesAt path) h = (h.ledgerEntries path, h) := by
  rw [Ledger.entriesAt, fileExists, runOn_bind, runOn_bind, runOn_get, ledgerEntries]
  simp only [runOn_pure]
  split
  · rw [runOn_bind, Action.read, query, runOn_bind, runOn_get]
    cases hread : h.files.read h.workingDirectory path with
    | error reason => simp only [hread, runOn_throw]
    | ok b =>
      simp only [hread, runOn_pure]
      cases Ledger.entriesOf path b <;> rfl
  · rfl

theorem ledgerEntries_of_contentAt {place : Place} {b : Bytes} (hl : h.locate path = .ok place)
    (hc : h.files.ContentAt place b) : h.ledgerEntries path = Ledger.entriesOf path b := by
  have hl : h.files.locate h.workingDirectory path = .ok place := hl
  rcases hc with ⟨hn, rfl⟩ | ⟨mode, hn⟩
  · -- an empty file has no lines
    simp only [ledgerEntries, FileTree.exists?, hl, hn, Option.isSome_none, Bool.false_eq_true,
      if_false]
    rfl
  · have hread : h.files.read h.workingDirectory path = .ok b :=
      FileTree.read_eq_ok_iff.2 ⟨place, mode, hl, hn⟩
    simp only [ledgerEntries, FileTree.exists?, hl, hn, Option.isSome_some, if_true, hread]

theorem ledgerEntries_of_holds {b : Bytes} (hb : h.Holds path b) :
    h.ledgerEntries path = Ledger.entriesOf path b := by
  obtain ⟨place, mode, hl, hn⟩ := FileTree.read_eq_ok_iff.1 hb
  exact ledgerEntries_of_contentAt hl (.inr ⟨mode, hn⟩)

theorem runOn_openAt_eq_ok_iff {l : Ledger} :
    runOn (Ledger.openAt path (some key)) h = (.ok l, h') ↔
      runOn (Action.makeParents path) h = (.ok (), h') ∧
        ∃ es, h'.ledgerEntries path = .ok es ∧ l = ⟨path, key, Ledger.tailOf es⟩ := by
  constructor
  · intro hopen
    obtain ⟨_, h₁, hmake, hopen⟩ := runOn_bind_eq_ok.1 hopen
    rw [runOn_bind_ok (runOn_pure key h₁), runOn_bind, runOn_entriesAt] at hopen
    cases hes : h₁.ledgerEntries path with
    | error fault =>
      rw [hes] at hopen
      cases hopen
    | ok es =>
      rw [hes] at hopen
      cases hopen
      exact ⟨hmake, es, hes, rfl⟩
  · rintro ⟨hmake, es, hes, rfl⟩
    rw [Ledger.openAt, runOn_bind_ok hmake, runOn_bind_ok (runOn_pure key h'), runOn_bind,
      runOn_entriesAt, hes]
    rfl

theorem hasLedger_of_unused (hmake : runOn (makeParents path) h = (.ok (), h'))
    (hnone : h'.files.exists? h'.workingDirectory path = false) : h'.HasLedger path [] := by
  have hparent := isDirectoryAt_of_makeDirectories hmake
  obtain ⟨place, hl⟩ := FileTree.exists_locate_of_parent hparent
  refine ⟨hparent, place, hl, .inl ⟨?_, rfl⟩⟩
  simpa [FileTree.exists?, hl] using hnone

namespace HasLedger

theorem makeParents (hl : h.HasLedger path es) : runOn (makeParents path) h = (.ok (), h) :=
  runOn_makeDirectories hl.parent

theorem ledgerEntries (hl : h.HasLedger path es) (hes : ∀ e ∈ es, e.Recordable) :
    h.ledgerEntries path = .ok (es.map Entry.stored) := by
  obtain ⟨place, hlocate, hc⟩ := hl.content
  rw [ledgerEntries_of_contentAt hlocate hc, Ledger.entriesOf_contentOf hes]

theorem runOn_entriesAt (hl : h.HasLedger path es) (hes : ∀ e ∈ es, e.Recordable) :
    runOn (Ledger.entriesAt path) h = (.ok (es.map Entry.stored), h) := by
  rw [Host.runOn_entriesAt, hl.ledgerEntries hes]

theorem runOn_openAt (hmake : runOn (Action.makeParents path) h = (.ok (), h'))
    (hl : h'.HasLedger path es) (hes : ∀ e ∈ es, e.Recordable) (key : Bytes) :
    runOn (Ledger.openAt path (some key)) h = (.ok ⟨path, key, Ledger.tailOf es⟩, h') := by
  refine Host.runOn_openAt_eq_ok_iff.2 ⟨hmake, _, hl.ledgerEntries hes, ?_⟩
  rw [Ledger.tailOf_stored]

theorem runOn_log {l : Ledger} (hl : h.HasLedger l.path es) (operation : String)
    (inputs outputs : List String) (args : Json.Members) {e : Entry}
    (he : Ledger.nextEntry l.key l.tail (Timestamp.text h.now) operation inputs outputs args = e) :
    ∃ h', runOn (l.log operation inputs outputs args) h =
        (.ok ({ l with tail := Ledger.tailOf [e] }, e), h') ∧ h'.HasLedger l.path (es ++ [e]) := by
  obtain ⟨place, hlocate, hc⟩ := hl.content
  obtain ⟨mode, hmodify⟩ := hc.modify hlocate FileTree.plainMode
    (· ++ Bytes.ofText (String.ofList (e.line ++ ['\n'])))
  have hputs : h.files.Puts h.workingDirectory l.path (Ledger.contentOf (es ++ [e]))
      (h.files.set place (.file (Ledger.contentOf (es ++ [e])) mode)) :=
    ⟨place, mode, hlocate, hc.not_directory, rfl⟩
  have hkeeps := hputs.keepsDirectories
  rw [← Ledger.contentOf_append] at hmodify
  have happend : runOn (Action.append l.path (Bytes.ofText (String.ofList (e.line ++ ['\n']))))
      { h with now := h.now + h.clockStep } = (.ok (), { h with
        now := h.now + h.clockStep
        files := h.files.set place (.file (Ledger.contentOf (es ++ [e])) mode) }) := by
    rw [Action.append, runOn_update]
    simp only [hmodify]
  rw [Ledger.log_eq, runOn_bind_ok Ledger.runOn_readClock, he]
  refine ⟨_, runOn_bind_ok happend, ?_⟩
  refine ⟨hkeeps.isDirectoryAt hl.parent, place,
    FileTree.locate_of_keepsDirectories hkeeps hlocate, .inr ⟨mode, ?_⟩⟩
  rw [FileTree.node?_set_of_not_directory hc.not_directory, if_pos rfl]

end HasLedger

end Host

end UpdateSeal
