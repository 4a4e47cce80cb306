import UpdateSeal.Proofs.Restarts

/-!
# The trail of a ledger

A ledger can be resumed as long as its file and the file of its key stay: a start then opens it with
the entries it has. Whatever is written elsewhere leaves it as it is, and logging adds an entry.
-/

namespace UpdateSeal

open UpdateSeal.Action

namespace FileTree

variable {t t' : FileTree} {base place : Place} {p : Path}

theorem read_congr (hl : t.locate base p = .ok place) (hl' : t'.locate base p = .ok place)
    (hn : t'.node? place = t.node? place) : t'.read base p = t.read base p := by
  rw [read, read, hl, hl', ok_bind, ok_bind, hn]

theorem exists?_congr (hl : t.locate base p = .ok place) (hl' : t'.locate base p = .ok place)
    (hn : t'.node? place = t.node? place) : t'.exists? base p = t.exists? base p := by
  rw [exists?, exists?, hl, hl']
  simp only [hn]

end FileTree

variable {files dirs : Place → Prop} {h h' : Host} {p : Path} {b : Bytes}

namespace Host

namespace Changes

theorem node?_eq_of_file (hc : Changes files dirs h h') {place : Place} {mode : Nat}
    (hn : h.files.node? place = some (.file b mode)) (hplace : ¬ files place) :
    h'.files.node? place = some (.file b mode) := by
  rcases hc.elsewhere place hplace with hsame | ⟨-, hnone, -⟩
  · rw [hsame, hn]
  · cases hn.symm.trans hnone

theorem holds (hc : Changes files dirs h h') (hb : h.Holds p b) (hp : ¬ files (h.placeOf p)) :
    h'.Holds p b := by
  obtain ⟨place, mode, hl, hn⟩ := FileTree.read_eq_ok_iff.1 hb
  rw [placeOf_of_locate hl] at hp
  exact FileTree.read_eq_ok_iff.2 ⟨place, mode, hc.locate hl, hc.node?_eq_of_file hn hp⟩

variable (hc : Changes files dirs h h') (hfiles : ¬ files (h.placeOf p))
  (hdirs : ¬ dirs (h.placeOf p))
include hc hfiles hdirs

theorem node?_eq : h'.files.node? (h.placeOf p) = h.files.node? (h.placeOf p) := by
  rcases hc.elsewhere _ hfiles with hsame | ⟨hd, -⟩
  · exact hsame
  · exact absurd hd hdirs

theorem read_eq {place : Place} (hl : h.locate p = .ok place) :
    h'.files.read h'.workingDirectory p = h.files.read h.workingDirectory p := by
  have hn := hc.node?_eq hfiles hdirs
  have hl' := hc.locate hl
  rw [placeOf_of_locate hl] at hn
  rw [Host.locate, hc.workingDirectory] at hl'
  rw [hc.workingDirectory]
  exact FileTree.read_congr hl hl' hn

theorem ledgerEntries_eq {place : Place} (hl : h.locate p = .ok place) :
    h'.ledgerEntries p = h.ledgerEntries p := by
  have hread := hc.read_eq hfiles hdirs hl
  have hn := hc.node?_eq hfiles hdirs
  have hl' := hc.locate hl
  rw [placeOf_of_locate hl] at hn
  rw [Host.locate, hc.workingDirectory] at hl'
  rw [ledgerEntries, ledgerEntries, hread, hc.workingDirectory, FileTree.exists?_congr hl hl' hn]

end Changes

theorem eq_nil_of_ledgerEntries {es : List Entry} (hnone : h.contentOf p = none)
    (hes : h.ledgerEntries p = .ok es) : es = [] := by
  rw [ledgerEntries] at hes
  split at hes
  · cases hread : h.files.read h.workingDirectory p with
    | error reason =>
      rw [hread] at hes
      cases hes
    | ok b =>
      have hb : h.Holds p b := hread
      cases (contentOf_of_holds hb).symm.trans hnone
  · exact (Except.ok.inj hes).symm

end Host

open Host

/-- The ledger and its key stay as they are where files are written and directories are made at these
places at most. -/
structure Settings.Spared (s : Settings) (h : Host) (files dirs : Place → Prop) : Prop where
  file : ¬ files (h.placeOf (s.ledgerPath h))
  directory : ¬ dirs (h.placeOf (s.ledgerPath h))
  key : ¬ files (h.placeOf (s.keyPath h))

theorem Settings.spared_nowhere (s : Settings) (h : Host) :
    s.Spared h (fun _ => False) (fun _ => False) :=
  ⟨not_false, not_false, not_false⟩

namespace Ledger

variable {s : Settings} {l l' : Ledger} {es : List Entry} {e : Entry} {operation : String}
  {inputs outputs : List String} {args : Json.Members} {app : Application} {path : Path} {key : Bytes}

theorem touches_entriesAt (path : Path) {base : Place} : Touches base files dirs (entriesAt path) :=
  touches_of_unchanged fun h => ⟨_, h.log, Host.runOn_entriesAt path h⟩

theorem touches_openAt (path : Path) (key : Bytes) {base : Place} :
    Touches base files (path.LeadsThrough base) (openAt path (some key)) :=
  (touches_makeParents path).bind fun _ => (touches_pure _).bind fun _ =>
    (touches_entriesAt path).bind fun _ => touches_pure _

theorem touches_log {base : Place} :
    Touches base (· = l.path.placeFrom base) dirs (l.log operation inputs outputs args) :=
  touches_readClock.bind fun _ => (touches_append _ _).bind fun _ => touches_pure _

theorem touches_logTexts (operation : LooseText) (inputs outputs : List LooseText) {base : Place} :
    Touches base (· = l.path.placeFrom base) dirs (l.logTexts operation inputs outputs args) := by
  rcases logTexts_cases (l := l) operation inputs outputs args with
    ⟨o, is, os, -, -, -, hlog⟩ | ⟨-, hlog⟩
  · rw [hlog]
    exact touches_log
  · rw [hlog]
    exact touches_readClock.bind fun _ => (touches_append _ _).bind fun _ => touches_throw _

theorem GivesUp.changes (hg : l.GivesUp h h') :
    Changes (· = h.placeOf l.path) (fun _ => False) h h' := by
  obtain ⟨t, hopens, -, rfl⟩ := hg
  rcases hopens.puts with rfl | hputs
  · exact .of_files_eq rfl rfl rfl rfl
  · exact ⟨rfl, rfl, rfl, hputs.keepsDirectories,
      fun place hplace => .inl (elsewhere_of_puts hputs place hplace),
      fun place _ hd => hputs.directories place hd⟩

/-- An empty file is a ledger without entries, as no file is. -/
theorem GivesUp.ledgerEntries (hg : l.GivesUp h h') (hes : h.ledgerEntries l.path = .ok es) :
    h'.ledgerEntries l.path = .ok es := by
  obtain ⟨t, hopens, -, rfl⟩ := hg
  rcases hopens with rfl | ⟨place, mode, hlocate, hn, rfl⟩
  · exact hes
  · have hnone : h.contentOf l.path = none := by
      rw [Host.contentOf, placeOf_of_locate hlocate, FileTree.contentAt, hn]
    obtain rfl := eq_nil_of_ledgerEntries hnone hes
    have hputs : h.files.Puts h.workingDirectory l.path [] (h.files.set place (.file [] mode)) :=
      ⟨place, mode, hlocate, by simp [hn], rfl⟩
    apply Host.ledgerEntries_of_holds (b := [])
    exact hputs.read

theorem GivesUp.endsAt (hg : l.GivesUp h h') (he : EndsAt h l.path) : EndsAt h' l.path := by
  obtain ⟨t, hopens, -, rfl⟩ := hg
  rcases hopens.puts with rfl | hputs
  · exact he
  · intro text hholds
    obtain rfl : text = "" := Bytes.ofText_injective (Except.ok.inj (hholds.symm.trans hputs.read))
    exact Text.ended_nil

theorem Current.changes (hl : l.Current h es) (hc : Changes files dirs h h')
    (hfiles : ¬ files (h.placeOf l.path)) (hdirs : ¬ dirs (h.placeOf l.path)) :
    l.Current h' es := by
  have hd := isDirectoryAt_of_makeDirectories hl.parents
  obtain ⟨place, hlocate⟩ := FileTree.exists_locate_of_parent hd
  refine ⟨runOn_makeDirectories (hc.isDirectoryAt hd), ?_, hl.chain, hl.tail⟩
  rw [hc.ledgerEntries_eq hfiles hdirs hlocate]
  exact hl.entries

theorem EndsAt.changes (he : EndsAt h path) (hc : Changes files dirs h h')
    (hfiles : ¬ files (h.placeOf path)) (hdirs : ¬ dirs (h.placeOf path)) {place : Place}
    (hl : h.locate path = .ok place) : EndsAt h' path := by
  intro text hholds
  rw [Host.Holds, hc.read_eq hfiles hdirs hl] at hholds
  exact he text hholds

/-- A start with `s` opens `l`, and its file holds these entries without fault. -/
structure Resumable (s : Settings) (l : Ledger) (h : Host) (es : List Entry) : Prop where
  current : l.Current h es
  ends : EndsAt h l.path
  path : l.path = s.ledgerPath h
  key : h.Holds (s.keyPath h) l.key
  chosen : s.Chosen h
  configured : s.Configured h

namespace Resumable

theorem changes (hl : l.Resumable s h es) (hc : Changes files dirs h h')
    (hspared : s.Spared h files dirs) : l.Resumable s h' es := by
  obtain ⟨hfiles, hdirs, hkey⟩ := hspared
  rw [← hl.path] at hfiles hdirs
  obtain ⟨place, hlocate⟩ :=
    FileTree.exists_locate_of_parent (isDirectoryAt_of_makeDirectories hl.current.parents)
  refine ⟨hl.current.changes hc hfiles hdirs, hl.ends.changes hc hfiles hdirs hlocate, ?_, ?_,
    hl.chosen.changes s hc, hl.configured.changes s hc⟩
  · rw [s.ledgerPath_changes hc, hl.path]
  · rw [s.keyPath_changes hc]
    exact hc.holds hl.key hkey

theorem givesUp (hl : l.Resumable s h es)
    (hapart : h.placeOf (s.keyPath h) ≠ h.placeOf (s.ledgerPath h)) (hg : l.GivesUp h h') :
    l.Resumable s h' es := by
  have hc := hg.changes
  have hd := hc.isDirectoryAt (isDirectoryAt_of_makeDirectories hl.current.parents)
  refine ⟨⟨runOn_makeDirectories hd, hg.ledgerEntries hl.current.entries, hl.current.chain,
    hl.current.tail⟩, hg.endsAt hl.ends, ?_, ?_, hl.chosen.changes s hc, hl.configured.changes s hc⟩
  · rw [s.ledgerPath_changes hc, hl.path]
  · rw [s.keyPath_changes hc]
    refine hc.holds hl.key ?_
    rw [hl.path]
    exact hapart

/-- The ledger that logged is resumed with its new entry, if its key is in another file. -/
theorem log (hl : l.Resumable s h es)
    (hapart : h.placeOf (s.keyPath h) ≠ h.placeOf (s.ledgerPath h))
    (hargs : (Json.Value.obj args).Storable 199) (hcount : es.length + 1 < 10 ^ Json.maxDigits)
    (hlog : runOn (l.log operation inputs outputs args) h = (.ok (l', e), h')) :
    l'.Resumable s h' (es ++ [e.stored]) := by
  have hc : Changes (· = h.placeOf l.path) (fun _ => False) h h' := touches_log.changes hlog
  have hcurrent := hl.current.log hl.ends hargs hcount hlog
  have hends := endsAt_of_log hl.current.entries hl.ends hlog
  obtain ⟨-, rfl, -⟩ := runOn_log_eq_ok hlog
  refine ⟨hcurrent, hends, ?_, ?_, hl.chosen.changes s hc, hl.configured.changes s hc⟩
  · rw [s.ledgerPath_changes hc, ← hl.path]
  · rw [s.keyPath_changes hc]
    refine hc.holds hl.key ?_
    rw [hl.path]
    exact hapart

end Resumable

end Ledger

/-- Where the ledger is kept, if there is one. -/
def Sink.KeptAt (sink : Sink) (h : Host) (place : Place) : Prop :=
  ∃ l, sink = .audit l ∧ place = h.placeOf l.path

theorem Sink.changes_log (sink : Sink) (operation : String) (inputs outputs : List LooseText)
    (args : Json.Members) (h : Host) :
    Host.Changes (sink.KeptAt h) (fun _ => False) h
      (runOn ((Sink.log operation inputs outputs args).run sink) h).2 := by
  cases sink with
  | silent => exact .refl _ _ h
  | audit l =>
    have hlog : Touches h.workingDirectory (· = l.path.placeFrom h.workingDirectory)
      (fun _ => False) (l.logTexts operation inputs outputs args) :=
        Ledger.touches_logTexts operation inputs outputs
    have hc := hlog h rfl
    rw [Sink.runOn_log_audit]
    have hkept := hc.mono (fun place hplace => (⟨l, rfl, hplace⟩ : Sink.KeptAt (.audit l) h place))
      fun _ hdirs => hdirs
    cases hr : runOn (l.logTexts operation inputs outputs args) h with
    | mk r h' =>
      rw [hr] at hkept
      cases r <;> exact hkept

/-! ### Starting -/

theorem Settings.getAuditPath_run (s : Settings) :
    s.getAuditPath.run none =
      s.chooseDataDir >>= fun dir => pure (dir.join "audit.jsonl", some dir) := by
  have hlift : (liftM s.chooseDataDir : StateT (Option Path) Action Path).run none =
      s.chooseDataDir >>= fun dir => pure (dir, none) := rfl
  simp only [getAuditPath, getDataDir, StateT.run_bind, StateT.run_get, StateT.run_set,
    StateT.run_pure, bind_assoc, pure_bind, hlift]

namespace Application

variable {s : Settings} {app : Application} {l : Ledger} {es : List Entry}

theorem start_eq (haudit : s.auditEnabled) :
    start s = do
      let dir ← s.chooseDataDir
      let p ← s.findKey
      let key ← loadOrCreateKey p 32
      let l ← Ledger.openAt (dir.join "audit.jsonl") (some key)
      return ⟨s, toolkitOf s, .audit l⟩ := by
  rw [start, openSink, if_pos haudit, Settings.getAuditKey_eq, Settings.getAuditPath_run]
  simp only [bind_assoc, pure_bind]

theorem changes_start (haudit : s.auditEnabled) (h : Host) :
    Changes (· = h.placeOf (s.keyPath h)) (fun _ => True) h (runOn (start s) h).2 := by
  rw [start_eq haudit]
  refine changes_bind (s.touches_chooseDataDir h rfl) fun dir h₁ hdir => ?_
  have hc₁ : Changes (· = h.placeOf (s.keyPath h)) (fun _ => True) h h₁ :=
    s.touches_chooseDataDir.changes hdir
  refine changes_bind (s.touches_findKey h₁ rfl) fun p h₂ hp => ?_
  have hc₂ : Changes (· = h.placeOf (s.keyPath h)) (fun _ => True) h h₂ :=
    hc₁.trans (s.touches_findKey.changes hp)
  obtain ⟨rfl, -⟩ := Settings.eq_of_findKey hp
  have hplace : h₂.placeOf (s.keyPath h₁) = h.placeOf (s.keyPath h) := by
    rw [s.keyPath_changes hc₁, placeOf, placeOf, hc₂.workingDirectory]
  rw [← hplace]
  refine changes_bind (((touches_loadOrCreateKey _ _).mono (fun _ hf => hf) fun _ _ => trivial)
    h₂ rfl) fun key h₃ hkey => ?_
  exact changes_bind (((Ledger.touches_openAt _ _).mono (fun _ hf => hf) fun _ _ => trivial)
    h₃ rfl) fun l h₄ _ => .refl _ _ _

/-- The first start opens an empty ledger, which can be resumed. -/
theorem resumable_of_start (haudit : s.auditEnabled)
    (hapart : h.placeOf (s.keyPath h) ≠ h.placeOf (s.ledgerPath h))
    (hnone : h.contentOf (s.ledgerPath h) = none) (hr : runOn (start s) h = (.ok app, h')) :
    ∃ l, app = ⟨s, toolkitOf s, .audit l⟩ ∧ l.Resumable s h' [] := by
  have hc := changes_start haudit h
  rw [hr] at hc
  have hnone' : h'.contentOf (s.ledgerPath h) = none := by rw [hc.contentOf_eq hapart.symm, hnone]
  rw [start_eq haudit] at hr
  obtain ⟨dir, h₁, hdir, hr⟩ := runOn_bind_eq_ok.1 hr
  obtain ⟨p, h₂, hp, hr⟩ := runOn_bind_eq_ok.1 hr
  obtain ⟨key, h₃, hkey, hr⟩ := runOn_bind_eq_ok.1 hr
  obtain ⟨l, h₄, hopen, hr⟩ := runOn_bind_eq_ok.1 hr
  cases hr
  obtain ⟨rfl, hchosen⟩ := Settings.eq_of_chooseDataDir hdir
  obtain ⟨rfl, hconfigured⟩ := Settings.eq_of_findKey hp
  have hc₁ : Changes (fun _ => False) (fun _ => True) h h₁ := s.touches_chooseDataDir.changes hdir
  have hc₂ : Changes (fun _ => False) (fun _ => True) h h₂ :=
    hc₁.trans (s.touches_findKey.changes hp)
  have hc₃ : Changes _ _ h₂ h₃ := (touches_loadOrCreateKey _ _).changes hkey
  have hc₄ : Changes (fun _ => False) _ h₃ h' := (Ledger.touches_openAt _ _).changes hopen
  obtain ⟨hparents, es, hes, rfl⟩ := runOn_openAt_eq_ok_iff.1 hopen
  obtain rfl := eq_nil_of_ledgerEntries hnone' hes
  have hd := isDirectoryAt_of_makeDirectories hparents
  refine ⟨_, rfl, ⟨runOn_makeDirectories hd, hes, .nil, rfl⟩, ?_, ?_, ?_, ?_, ?_⟩
  · intro text hholds
    cases (contentOf_of_holds hholds).symm.trans hnone'
  · exact (s.ledgerPath_changes hc).symm
  · rw [s.keyPath_changes hc, ← s.keyPath_changes hc₁]
    exact hc₄.holds (holds_of_loadOrCreateKey hkey) not_false
  · have hc₁₂ : Changes (fun _ => False) (fun _ => True) h₁ h₂ := s.touches_findKey.changes hp
    exact ((hchosen.changes s hc₁₂).changes s hc₃).changes s hc₄
  · exact (hconfigured.changes s hc₃).changes s hc₄

/-- A later start opens the same ledger or fails, and changes nothing. -/
theorem start_again (haudit : s.auditEnabled) (hl : l.Resumable s h es) :
    (∃ warnings, runOn (start s) h = (.ok ⟨s, toolkitOf s, .audit l⟩, { h with warnings }) ∧
      l.Resumable s { h with warnings } es) ∨ ∃ e, runOn (start s) h = (.error e, h) := by
  have hd := isDirectoryAt_of_makeDirectories hl.current.parents
  have hparent : l.path.parent = s.dataDirOn h := by
    rw [hl.path, Settings.ledgerPath, Path.parent, Path.join, List.dropLast_concat]
  rw [hparent] at hd
  obtain ⟨warnings, hdir⟩ | ⟨e, hdir⟩ := Settings.chooseDataDir_again hl.chosen hd
  swap
  · rw [start_eq haudit]
    exact .inr ⟨e, runOn_bind_error hdir⟩
  have hc : Changes (fun _ => False) (fun _ => False) h { h with warnings } :=
    .of_files_eq rfl rfl rfl rfl
  have hwarned := hl.changes hc (s.spared_nowhere h)
  have hopen := hwarned.current.openAt
  rw [hl.path] at hopen
  refine .inl ⟨warnings, ?_, hwarned⟩
  rw [start_eq haudit, runOn_bind_ok hdir, runOn_bind_ok hwarned.configured.findKey,
    runOn_bind_ok (runOn_loadOrCreateKey hwarned.key)]
  exact runOn_bind_ok hopen

end Application

end UpdateSeal
