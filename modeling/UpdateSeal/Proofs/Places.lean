import Mathlib.Data.List.Infix
import UpdateSeal.Proofs.LedgerFiles

/-!
# What an action touches

Where a path leads can be told from its names alone, as far as it leads anywhere. Making a directory
makes directories at the places that its path leads through, and writing a file touches the place of
the file besides; whatever stands elsewhere stays as it is, also where the action fails.
-/

namespace UpdateSeal

namespace Path

variable {base place : Place} {p : Path}

/-- The place that names lead to, if they lead to one. -/
def walk (place : Place) (parts : List LooseText) : Place :=
  parts.foldl (fun place part => if part = LooseText.string ".." then place.dropLast else place ++ [part])
    place

def placeFrom (base : Place) (p : Path) : Place := walk (if p.absolute then [] else base) p.parts

/-- `p` leads to `place`, or past it. -/
def LeadsThrough (base : Place) (p : Path) (place : Place) : Prop :=
  ∃ front, front <+: p.parts ∧ walk (if p.absolute then [] else base) front = place

/-- `p` leads past `place`, to somewhere below it. -/
def LeadsPast (base : Place) (p : Path) (place : Place) : Prop :=
  ∃ front part, front ++ [part] <+: p.parts ∧ walk (if p.absolute then [] else base) front = place

instance : Decidable (p.LeadsThrough base place) :=
  decidable_of_iff (∃ front ∈ p.parts.inits, walk (if p.absolute then [] else base) front = place) <| by
    simp only [LeadsThrough, List.mem_inits]

theorem leadsThrough_placeFrom (base : Place) (p : Path) : p.LeadsThrough base (p.placeFrom base) :=
  ⟨p.parts, List.prefix_rfl, rfl⟩

theorem LeadsThrough.of_parent (h : p.parent.LeadsThrough base place) :
    p.LeadsThrough base place := by
  obtain ⟨front, hfront, hplace⟩ := h
  exact ⟨front, hfront.trans (List.dropLast_prefix _), hplace⟩

end Path

namespace FileTree

variable {t t' : FileTree} {base place place' : Place} {p : Path}

theorem follow_eq {parts : List LooseText} (h : t.follow place parts = .ok place') :
    Path.walk place parts = place' := by
  induction parts generalizing place with
  | nil => exact Except.ok.inj h
  | cons part parts ih =>
    rw [follow] at h
    split at h
    · cases h
    · cases h
    · exact ih h

theorem locate_eq (h : t.locate base p = .ok place) : p.placeFrom base = place := follow_eq h

theorem isDirectory_of_follow {parts front : List LooseText} {part : LooseText}
    (h : t.follow place parts = .ok place') (hfront : front ++ [part] <+: parts) :
    t.node? (Path.walk place front) = some .directory := by
  induction front generalizing place parts with
  | nil =>
    obtain ⟨back, rfl⟩ := hfront
    rw [List.nil_append, List.singleton_append, follow] at h
    split at h
    · cases h
    · cases h
    · next hd => exact hd
  | cons name front ih =>
    obtain ⟨back, rfl⟩ := hfront
    rw [List.cons_append, List.cons_append, follow] at h
    split at h
    · cases h
    · cases h
    · exact ih h ⟨back, rfl⟩

theorem isDirectory_of_leadsPast (hl : t.locate base p = .ok place')
    (hp : p.LeadsPast base place) : t.node? place = some .directory := by
  obtain ⟨front, part, hfront, rfl⟩ := hp
  exact isDirectory_of_follow hl hfront

/-- The content of the file at a place, if there is one. -/
def contentAt (t : FileTree) (place : Place) : Option Bytes :=
  match t.node? place with
  | some (.file content _) => some content
  | _ => none

theorem contentAt_eq_some_iff {b : Bytes} :
    t.contentAt place = some b ↔ ∃ mode, t.node? place = some (.file b mode) := by
  unfold contentAt
  split <;> simp_all

theorem ContentAt.getD_contentAt {b : Bytes} (hc : t.ContentAt place b) :
    (t.contentAt place).getD [] = b := by
  rcases hc with ⟨hn, rfl⟩ | ⟨mode, hn⟩
  · rw [contentAt, hn]
    rfl
  · rw [contentAt_eq_some_iff.2 ⟨mode, hn⟩]
    rfl

theorem contentAt_of_isDirectory (h : t.node? place = some .directory) :
    t.contentAt place = none := by
  rw [contentAt, h]

end FileTree

namespace Host

variable {files dirs files' dirs' : Place → Prop} {h h₁ h' : Host} {place : Place} {p : Path}
  {b : Bytes}

def placeOf (h : Host) (p : Path) : Place := p.placeFrom h.workingDirectory

/-- The content of the file at the place that `p` leads to. -/
def contentOf (h : Host) (p : Path) : Option Bytes := h.files.contentAt (h.placeOf p)

/-- Files were written at the places `files` at most, directories were made at the places `dirs` at
most where nothing stood, and everything else is as it was. -/
structure Changes (files dirs : Place → Prop) (h h' : Host) : Prop where
  denied : h'.denied = h.denied
  workingDirectory : h'.workingDirectory = h.workingDirectory
  environment : h'.environment = h.environment
  directories : h.files.KeepsDirectories h'.files
  elsewhere : ∀ place, ¬ files place → h'.files.node? place = h.files.node? place ∨
    dirs place ∧ h.files.node? place = none ∧ h'.files.node? place = some .directory
  /-- No directory was made where none may be made. -/
  refused : ∀ place, h.denied place → h'.files.node? place = some .directory →
    h.files.node? place = some .directory

namespace Changes

theorem of_files_eq (hdenied : h'.denied = h.denied)
    (hbase : h'.workingDirectory = h.workingDirectory)
    (henvironment : h'.environment = h.environment) (hfiles : h'.files = h.files) :
    Changes files dirs h h' :=
  ⟨hdenied, hbase, henvironment, fun _ hd => by rwa [hfiles], fun _ _ => .inl (by rw [hfiles]),
    fun _ _ hd => by rwa [hfiles] at hd⟩

theorem refl (files dirs : Place → Prop) (h : Host) : Changes files dirs h h :=
  .of_files_eq rfl rfl rfl rfl

theorem trans (hc : Changes files dirs h h₁) (hc' : Changes files dirs h₁ h') :
    Changes files dirs h h' := by
  refine ⟨hc'.denied.trans hc.denied, hc'.workingDirectory.trans hc.workingDirectory,
    hc'.environment.trans hc.environment, fun place hd => hc'.directories place
      (hc.directories place hd), fun place hplace => ?_, fun place hplace hd =>
      hc.refused place hplace (hc'.refused place (hc.denied ▸ hplace) hd)⟩
  rcases hc'.elsewhere place hplace with hsame | ⟨hdirs, hnone, hmade⟩
  · rw [hsame]
    exact hc.elsewhere place hplace
  · rcases hc.elsewhere place hplace with hsame | ⟨-, -, hmade'⟩
    · exact .inr ⟨hdirs, hsame ▸ hnone, hmade⟩
    · rw [hnone] at hmade'
      cases hmade'

theorem mono (hc : Changes files dirs h h') (hfiles : ∀ place, files place → files' place)
    (hdirs : ∀ place, dirs place → dirs' place) : Changes files' dirs' h h' := by
  refine ⟨hc.denied, hc.workingDirectory, hc.environment, hc.directories, fun place hplace => ?_,
    hc.refused⟩
  rcases hc.elsewhere place fun hf => hplace (hfiles place hf) with hsame | ⟨hd, hmade⟩
  · exact .inl hsame
  · exact .inr ⟨hdirs place hd, hmade⟩

theorem anywhere (hc : Changes files dirs h h') : Changes (fun _ => True) (fun _ => True) h h' :=
  hc.mono (fun _ _ => trivial) fun _ _ => trivial

theorem contentAt_eq (hc : Changes files dirs h h') (hplace : ¬ files place) :
    h'.files.contentAt place = h.files.contentAt place := by
  rcases hc.elsewhere place hplace with hsame | ⟨-, hnone, hmade⟩
  · rw [FileTree.contentAt, hsame, ← FileTree.contentAt]
  · rw [FileTree.contentAt_of_isDirectory hmade, FileTree.contentAt, hnone]

theorem contentOf_eq (hc : Changes files dirs h h') (hp : ¬ files (h.placeOf p)) :
    h'.contentOf p = h.contentOf p := by
  rw [contentOf, placeOf, hc.workingDirectory]
  exact hc.contentAt_eq hp

theorem locate (hc : Changes files dirs h h') (hl : h.locate p = .ok place) :
    h'.locate p = .ok place := by
  rw [Host.locate, hc.workingDirectory]
  exact FileTree.locate_of_keepsDirectories hc.directories hl

theorem isDirectoryAt (hc : Changes files dirs h h')
    (hd : h.files.isDirectoryAt h.workingDirectory p) :
    h'.files.isDirectoryAt h'.workingDirectory p := by
  rw [hc.workingDirectory]
  exact hc.directories.isDirectoryAt hd

end Changes

theorem placeOf_of_locate (hl : h.locate p = .ok place) : h.placeOf p = place :=
  FileTree.locate_eq hl

theorem Changes.admits (hc : Changes files dirs h h') (ha : h.Admits p) (hdirs : ¬ dirs (h.placeOf p))
    (hfiles : ¬ files (h.placeOf p)) : h'.Admits p := by
  obtain ⟨place, hl, hn⟩ := ha
  rw [placeOf_of_locate hl] at hdirs hfiles
  refine ⟨place, hc.locate hl, fun hd => ?_⟩
  rcases hc.elsewhere place hfiles with hsame | ⟨hdir, -⟩
  · exact hn (hsame ▸ hd)
  · exact hdirs hdir

theorem locate_eq_iff {q : Path} {place' : Place} (hp : h.locate p = .ok place)
    (hq : h.locate q = .ok place') : h.locate p = h.locate q ↔ h.placeOf p = h.placeOf q := by
  rw [hp, hq, placeOf_of_locate hp, placeOf_of_locate hq, Except.ok.injEq]

theorem contentOf_of_holds (hb : h.Holds p b) : h.contentOf p = some b := by
  obtain ⟨place, mode, hl, hn⟩ := FileTree.read_eq_ok_iff.1 hb
  rw [contentOf, placeOf_of_locate hl]
  exact FileTree.contentAt_eq_some_iff.2 ⟨mode, hn⟩

end Host

open Host

namespace Action

variable {α β : Type} {base : Place} {files dirs files' dirs' : Place → Prop} {x : Action α}
  {f : α → Action β} {h h' : Host} {p : Path} {content : Bytes}

/-- Wherever it is run from `base`, and whether it succeeds or fails, `x` writes files and makes
directories at these places at most. -/
def Touches (base : Place) (files dirs : Place → Prop) (x : Action α) : Prop :=
  ∀ h, h.workingDirectory = base → Changes files dirs h (runOn x h).2

theorem Touches.changes (hx : Touches h.workingDirectory files dirs x) {r : Except Failure α}
    (hr : runOn x h = (r, h')) : Changes files dirs h h' := by
  have hc := hx h rfl
  rwa [hr] at hc

theorem Touches.mono (hx : Touches base files dirs x) (hfiles : ∀ place, files place → files' place)
    (hdirs : ∀ place, dirs place → dirs' place) : Touches base files' dirs' x :=
  fun h hb => (hx h hb).mono hfiles hdirs

theorem changes_bind (hx : Changes files dirs h (runOn x h).2)
    (hf : ∀ a h₁, runOn x h = (.ok a, h₁) → Changes files dirs h₁ (runOn (f a) h₁).2) :
    Changes files dirs h (runOn (x >>= f) h).2 := by
  rw [runOn_bind]
  cases hr : runOn x h with
  | mk r h₁ =>
    rw [hr] at hx
    cases r with
    | error e => exact hx
    | ok a => exact hx.trans (hf a h₁ hr)

theorem Touches.bind (hx : Touches base files dirs x) (hf : ∀ a, Touches base files dirs (f a)) :
    Touches base files dirs (x >>= f) := by
  intro h hb
  refine changes_bind (hx h hb) fun a h₁ hr => hf a h₁ ?_
  have hc := hx h hb
  rw [hr] at hc
  exact hc.workingDirectory.trans hb

theorem Touches.tryCatch {handle : Failure → Action α} (hx : Touches base files dirs x)
    (hhandle : ∀ e, Touches base files dirs (handle e)) :
    Touches base files dirs (tryCatch x handle) := by
  intro h hb
  have hc := hx h hb
  rw [runOn_tryCatch]
  cases hr : runOn x h with
  | mk r h₁ =>
    rw [hr] at hc
    cases r with
    | error e => exact hc.trans (hhandle e h₁ (hc.workingDirectory.trans hb))
    | ok a => exact hc

theorem touches_of_unchanged (hx : ∀ h, ∃ r log, runOn x h = (r, { h with log })) :
    Touches base files dirs x := by
  intro h hb
  obtain ⟨r, log, hr⟩ := hx h
  rw [hr]
  exact .of_files_eq rfl rfl rfl rfl

theorem touches_pure (a : α) : Touches base files dirs (pure a) :=
  touches_of_unchanged fun h => ⟨.ok a, h.log, rfl⟩

theorem touches_throw (e : Failure) : Touches base files dirs (throw e : Action α) :=
  touches_of_unchanged fun h => ⟨.error e, h.log, rfl⟩

theorem touches_record (level : LogLevel) (text : String) :
    Touches base files dirs (record level text) :=
  touches_of_unchanged fun _ => ⟨.ok (), _, rfl⟩

theorem touches_liftExcept {ε : Type} (wrap : ε → Failure) (r : Except ε α) :
    Touches base files dirs (liftExcept wrap r) := by
  cases r with
  | ok a => exact touches_pure a
  | error e => exact touches_throw (wrap e)

theorem touches_get : Touches base files dirs get :=
  touches_of_unchanged fun h => ⟨.ok h, h.log, rfl⟩

theorem touches_warn (text : String) : Touches base files dirs (warn text) :=
  fun _ _ => .of_files_eq rfl rfl rfl rfl

theorem touches_readClock : Touches base files dirs readClock :=
  fun _ _ => .of_files_eq rfl rfl rfl rfl

theorem touches_read (p : Path) : Touches base files dirs (read p) := by
  refine touches_of_unchanged fun h => ?_
  cases hr : h.files.read h.workingDirectory p with
  | ok b => exact ⟨.ok b, h.log, runOn_read hr⟩
  | error reason =>
    obtain ⟨log, hrun⟩ := (answers_read_error hr).runOn
    exact ⟨_, log, hrun⟩

theorem touches_update {change : FileTree → Place → Path → Except StorageReason FileTree}
    (hchange : ∀ {t t'}, change t base p = .ok t' → t.KeepsDirectories t' ∧ t'.KeepsDirectories t ∧
      ∀ place, ¬ files place → t'.node? place = t.node? place) :
    Touches base files dirs (update p change) := by
  intro h hb
  subst hb
  rw [runOn_update]
  split
  · next t' hr =>
    obtain ⟨hkeeps, hadds, helse⟩ := hchange hr
    exact ⟨rfl, rfl, rfl, hkeeps, fun place hplace => .inl (helse place hplace),
      fun place _ hd => hadds place hd⟩
  · exact .refl _ _ _

theorem elsewhere_of_puts {t t' : FileTree} (hp : t.Puts base p content t') (place : Place)
    (hplace : place ≠ p.placeFrom base) : t'.node? place = t.node? place := by
  obtain ⟨place', mode, hl, hd, rfl⟩ := hp
  rw [FileTree.locate_eq hl] at hplace
  rw [FileTree.node?_set_of_not_directory hd, if_neg hplace]

theorem touches_replace (p : Path) (mode : Nat) (content : Bytes) :
    Touches base (· = p.placeFrom base) dirs
      (update p fun t base p => t.replace base p mode content) :=
  touches_update fun hr => by
    have hputs := FileTree.puts_of_replace hr
    exact ⟨hputs.keepsDirectories, hputs.directories, elsewhere_of_puts hputs⟩

theorem touches_append (p : Path) (content : Bytes) :
    Touches base (· = p.placeFrom base) dirs (append p content) :=
  touches_update fun hr => by
    obtain ⟨_, _, -, -, hputs⟩ := FileTree.contentAt_of_modify hr
    exact ⟨hputs.keepsDirectories, hputs.directories, elsewhere_of_puts hputs⟩

/-! ### Making directories -/

theorem made_of_makeDirectory {t t' : FileTree} {denied : Place → Bool}
    (h : t.makeDirectory denied base p = .ok t') (place : Place) :
    t'.node? place = t.node? place ∨ place = p.placeFrom base ∧ denied place = false ∧
      t.node? place = none ∧ t'.node? place = some .directory := by
  obtain ⟨place', hl, hn, hallowed, rfl⟩ := FileTree.makeDirectory_eq_ok_iff.1 h
  rw [FileTree.node?_set_of_not_directory (by simp [hn]), FileTree.locate_eq hl]
  by_cases hplace : place = place'
  · rw [if_pos hplace, hplace]
    exact .inr ⟨rfl, hallowed, hn, rfl⟩
  · rw [if_neg hplace]
    exact .inl rfl

theorem touches_makeDirectory (hp : dirs (p.placeFrom base)) :
    Touches base files dirs (makeDirectory p) := by
  intro h hb
  subst hb
  rw [runOn_makeDirectory]
  split
  · next t' hr =>
    refine ⟨rfl, rfl, rfl, (FileTree.grows_makeDirectory hr).keepsDirectories, fun place _ => ?_,
      fun place hdenied hd => ?_⟩
    · rcases made_of_makeDirectory hr place with hsame | ⟨rfl, -, hmade⟩
      · exact .inl hsame
      · exact .inr ⟨hp, hmade⟩
    · rcases made_of_makeDirectory hr place with hsame | ⟨-, hallowed, -⟩
      · exact hsame ▸ hd
      · cases hallowed.symm.trans hdenied
  · exact .refl _ _ _

theorem touches_acceptDirectory (p : Path) (e : Failure) :
    Touches base files dirs (acceptDirectory p e) :=
  touches_of_unchanged fun h => ⟨_, h.log, runOn_acceptDirectory p e h⟩

theorem touches_makeDirectories_go (depth : Nat) {p : Path}
    (hp : ∀ place, p.LeadsThrough base place → dirs place) :
    Touches base files dirs (makeDirectories.go depth p) := by
  induction depth generalizing p with
  | zero =>
    have hmake : Touches base files dirs (makeDirectory p) :=
      touches_makeDirectory (hp _ (Path.leadsThrough_placeFrom base p))
    exact hmake.tryCatch fun e => touches_acceptDirectory p e
  | succ depth ih =>
    have hmake : Touches base files dirs (makeDirectory p) :=
      touches_makeDirectory (hp _ (Path.leadsThrough_placeFrom base p))
    refine hmake.tryCatch fun e => ?_
    split
    · exact (ih fun place hplace => hp place hplace.of_parent).bind fun _ =>
        hmake.tryCatch fun e => touches_acceptDirectory p e
    · exact touches_acceptDirectory p e

theorem touches_makeDirectories (p : Path) :
    Touches base files (p.LeadsThrough base) (makeDirectories p) :=
  touches_makeDirectories_go _ fun _ hplace => hplace

theorem touches_makeParents (p : Path) :
    Touches base files (p.LeadsThrough base) (makeParents p) :=
  (touches_makeDirectories p.parent).mono (fun _ hf => hf) fun _ hplace => hplace.of_parent

/-! ### Writing files -/

theorem touches_writeAtomically (p : Path) (content : Bytes) :
    Touches base (· = p.placeFrom base) (p.LeadsThrough base) (writeAtomically p content) :=
  (touches_makeParents p).bind fun _ => touches_replace p _ content

theorem touches_writeSecret (p : Path) (content : Bytes) :
    Touches base (· = p.placeFrom base) (p.LeadsThrough base) (writeSecret p content) :=
  (touches_makeParents p).bind fun _ => touches_update fun hr => by
    obtain ⟨t₁, hmodify, hrestrict⟩ := bind_eq_ok_iff.1 hr
    obtain ⟨_, _, -, -, hputs⟩ := FileTree.contentAt_of_modify hmodify
    obtain ⟨_, -, hputs'⟩ := FileTree.puts_of_restrict hrestrict
    refine ⟨fun place hd => hputs'.keepsDirectories place (hputs.keepsDirectories place hd),
      fun place hd => hputs.directories place (hputs'.directories place hd),
      fun place hplace => ?_⟩
    rw [elsewhere_of_puts hputs' place hplace, elsewhere_of_puts hputs place hplace]

theorem touches_drawBytes (length : Nat) : Touches base files dirs (drawBytes length) :=
  fun _ _ => .of_files_eq rfl rfl rfl rfl

theorem touches_loadOrCreateKey (p : Path) (length : Nat) :
    Touches base (· = p.placeFrom base) (p.LeadsThrough base) (loadOrCreateKey p length) :=
  (touches_read p).tryCatch fun e => by
    split
    · exact (touches_drawBytes length).bind fun _ => (touches_writeSecret p _).bind fun _ =>
        touches_pure _
    · exact touches_throw _

/-- A file that could not be written was not touched. -/
theorem changes_of_writeAtomically_error {e : Failure}
    (hw : runOn (writeAtomically p content) h = (.error e, h')) :
    Changes (fun _ => False) (p.LeadsThrough h.workingDirectory) h h' := by
  have hparents : Touches h.workingDirectory (fun _ => False) (p.LeadsThrough h.workingDirectory)
    (makeParents p) := touches_makeParents p
  rw [writeAtomically] at hw
  obtain hmake | ⟨_, h₁, hmake, hw⟩ := runOn_bind_eq_error.1 hw
  · exact hparents.changes hmake
  · have hc := hparents.changes hmake
    rw [runOn_update] at hw
    split at hw
    · cases hw
    · exact (Prod.mk.inj hw).2 ▸ hc

end Action

end UpdateSeal
