import UpdateSeal.Proofs.Actions
import UpdateSeal.Proofs.Numerals

/-!
# Files that are written and files that are left alone

A path leads to the same place as long as no directory goes away. So a file that is put in place is
read back, every file at another place keeps its content, and making directories disturbs no file.
-/

namespace UpdateSeal

namespace FileTree

variable {t t₁ t' : FileTree} {base place place' : Place} {p q : Path} {b content : Bytes}
  {denied : Place → Bool}

theorem lookup_setEntry (n : Node) (es : List (Place × Node)) :
    (setEntry place n es).lookup place' = if place' = place then some n else es.lookup place' := by
  induction es with
  | nil => by_cases h : place' = place <;> simp [setEntry, List.lookup_cons, h, beq_eq_false_iff_ne.2]
  | cons e es ih =>
    obtain ⟨k, m⟩ := e
    by_cases hk : k = place
    · subst hk
      by_cases h : place' = k <;> simp [setEntry, List.lookup_cons, h, beq_eq_false_iff_ne.2]
    · by_cases h : place' = k
      · subst h
        simp [setEntry, hk]
      · simp [setEntry, List.lookup_cons, hk, beq_eq_false_iff_ne.2 h, ih]

theorem node?_nil : t.node? [] = some .directory := rfl

theorem node?_set (hplace : place ≠ []) (n : Node) :
    (t.set place n).node? place' = if place' = place then some n else t.node? place' := by
  by_cases h : place' = []
  · subst h
    simp [node?, Ne.symm hplace]
  · simp [node?, h, set, lookup_setEntry]

/-- Every directory of `t` is one of `t'`. -/
def KeepsDirectories (t t' : FileTree) : Prop :=
  ∀ place, t.node? place = some .directory → t'.node? place = some .directory

/-- Whatever stands in `t` stands in `t'`. -/
def Grows (t t' : FileTree) : Prop := ∀ place n, t.node? place = some n → t'.node? place = some n

theorem Grows.refl (t : FileTree) : t.Grows t := fun _ _ hn => hn

theorem Grows.trans (h₁ : t.Grows t₁) (h₂ : t₁.Grows t') : t.Grows t' :=
  fun place n hn => h₂ place n (h₁ place n hn)

theorem Grows.keepsDirectories (h : t.Grows t') : t.KeepsDirectories t' := fun place hd => h place _ hd

theorem follow_of_keepsDirectories (hk : t.KeepsDirectories t') (parts : List LooseText)
    (hf : t.follow place parts = .ok place') : t'.follow place parts = .ok place' := by
  induction parts generalizing place with
  | nil => exact hf
  | cons part parts ih =>
    simp only [follow] at hf ⊢
    split at hf
    · cases hf
    · cases hf
    · next hd =>
      rw [hk place hd]
      exact ih hf

theorem locate_of_keepsDirectories (hk : t.KeepsDirectories t')
    (hl : t.locate base p = .ok place) : t'.locate base p = .ok place :=
  follow_of_keepsDirectories hk _ hl

theorem read_eq_ok_iff :
    t.read base p = .ok b ↔
      ∃ place mode, t.locate base p = .ok place ∧ t.node? place = some (.file b mode) := by
  unfold read
  cases t.locate base p with
  | error e => simp [bind, Except.bind]
  | ok place =>
    simp only [bind, Except.bind]
    split <;> simp_all [throw, throwThe, MonadExceptOf.throw, pure, Except.pure]

theorem Grows.read (hg : t.Grows t') (hr : t.read base q = .ok b) : t'.read base q = .ok b := by
  obtain ⟨place, mode, hl, hn⟩ := read_eq_ok_iff.1 hr
  exact read_eq_ok_iff.2
    ⟨place, mode, locate_of_keepsDirectories hg.keepsDirectories hl, hg place _ hn⟩

/-- `t'` is `t` with a file put at the place that `p` leads to. -/
def Puts (t : FileTree) (base : Place) (p : Path) (content : Bytes) (t' : FileTree) : Prop :=
  ∃ place mode, t.locate base p = .ok place ∧ t.node? place ≠ some .directory ∧
    t' = t.set place (.file content mode)

theorem node?_set_of_not_directory (hd : t.node? place ≠ some .directory) (n : Node) :
    (t.set place n).node? place' = if place' = place then some n else t.node? place' := by
  refine node?_set (fun h => hd ?_) n
  rw [h, node?_nil]

theorem Puts.keepsDirectories (h : t.Puts base p content t') : t.KeepsDirectories t' := by
  obtain ⟨place, mode, -, hd, rfl⟩ := h
  intro place' hd'
  rw [node?_set_of_not_directory hd, if_neg, hd']
  rintro rfl
  exact hd hd'

/-- No directory is new. -/
theorem Puts.directories (h : t.Puts base p content t') : t'.KeepsDirectories t := by
  obtain ⟨place, mode, -, hd, rfl⟩ := h
  intro place' hd'
  rw [node?_set_of_not_directory hd] at hd'
  split at hd'
  · cases hd'
  · exact hd'

theorem Puts.locate (h : t.Puts base p content t') (hl : t.locate base q = .ok place) :
    t'.locate base q = .ok place :=
  locate_of_keepsDirectories h.keepsDirectories hl

theorem Puts.read (h : t.Puts base p content t') : t'.read base p = .ok content := by
  have hk := h.keepsDirectories
  obtain ⟨place, mode, hl, hd, rfl⟩ := h
  refine read_eq_ok_iff.2 ⟨place, mode, locate_of_keepsDirectories hk hl, ?_⟩
  rw [node?_set_of_not_directory hd, if_pos rfl]

theorem Puts.node_ne_directory (h : t.Puts base p content t') :
    ∃ place, t'.locate base p = .ok place ∧ t'.node? place ≠ some .directory := by
  have hk := h.keepsDirectories
  obtain ⟨place, mode, hl, hd, rfl⟩ := h
  refine ⟨place, locate_of_keepsDirectories hk hl, ?_⟩
  rw [node?_set_of_not_directory hd, if_pos rfl]
  simp

theorem Puts.read_of_ne (h : t.Puts base p content t') (hr : t.read base q = .ok b)
    (hne : t'.locate base q ≠ t'.locate base p) : t'.read base q = .ok b := by
  have hk := h.keepsDirectories
  obtain ⟨place, mode, hl, hd, rfl⟩ := h
  obtain ⟨place', mode', hl', hn⟩ := read_eq_ok_iff.1 hr
  have hq := locate_of_keepsDirectories hk hl'
  have hp := locate_of_keepsDirectories hk hl
  refine read_eq_ok_iff.2 ⟨place', mode', hq, ?_⟩
  rw [node?_set_of_not_directory hd, if_neg, hn]
  rintro rfl
  exact hne (hq.trans hp.symm)

theorem isDirectory_eq_false_iff : t.isDirectory place = false ↔ t.node? place ≠ some .directory := by
  simp [isDirectory]

theorem target_eq_ok_iff :
    t.target base p = .ok place ↔
      t.locate base p = .ok place ∧ p.endsInName ∧ t.node? place ≠ some .directory := by
  unfold target
  cases hl : t.locate base p with
  | error e => simp [error_bind]
  | ok place' =>
    rw [ok_bind]
    cases hname : p.endsInName with
    | false => simp [throw, throwThe, MonadExceptOf.throw, bind, Except.bind]
    | true =>
      cases hd : t.isDirectory place' with
      | true =>
        have hn : t.node? place' = some .directory := by simpa [isDirectory] using hd
        simp only [Bool.not_true, Bool.false_eq_true, if_false, if_true]
        constructor
        · nofun
        · rintro ⟨heq, -, hne⟩
          obtain rfl := Except.ok.inj heq
          exact absurd hn hne
      | false =>
        have hn := isDirectory_eq_false_iff.1 hd
        simp only [Bool.not_true, Bool.false_eq_true, if_false]
        constructor
        · intro heq
          obtain rfl := Except.ok.inj heq
          exact ⟨rfl, trivial, hn⟩
        · rintro ⟨heq, -⟩
          exact heq

theorem puts_of_replace {mode : Nat} (h : t.replace base p mode content = .ok t') :
    t.Puts base p content t' := by
  obtain ⟨place, htarget, hset⟩ := bind_eq_ok_iff.1 h
  obtain ⟨hl, -, hd⟩ := target_eq_ok_iff.1 htarget
  exact ⟨place, mode, hl, hd, (Except.ok.inj hset).symm⟩

theorem puts_of_restrict {mode : Nat} (h : t.restrict base p mode = .ok t') :
    ∃ content, t.read base p = .ok content ∧ t.Puts base p content t' := by
  obtain ⟨place, hl, hset⟩ := bind_eq_ok_iff.1 h
  split at hset
  · cases hset
  · cases hset
  · next content mode' hn =>
    exact ⟨content, read_eq_ok_iff.2 ⟨place, mode', hl, hn⟩, place, mode, hl, by simp [hn],
      (Except.ok.inj hset).symm⟩

theorem puts_modify (hl : t.locate base p = .ok place) (hd : t.node? place ≠ some .directory)
    (mode : Nat) (change : Bytes → Bytes) :
    ∃ content t', t.modify base p mode change = .ok t' ∧ t.Puts base p content t' := by
  unfold modify
  simp only [hl, bind, Except.bind]
  split
  · exact ⟨_, _, rfl, place, mode, hl, hd, rfl⟩
  · next hn => exact absurd hn hd
  · next content mode _ => exact ⟨_, _, rfl, place, mode, hl, hd, rfl⟩

/-- A directory is made where a path leads, nothing stands, and it is not refused. -/
theorem makeDirectory_eq_ok_iff :
    t.makeDirectory denied base p = .ok t' ↔ ∃ place, t.locate base p = .ok place ∧
      t.node? place = none ∧ denied place = false ∧ t' = t.set place .directory := by
  unfold makeDirectory
  cases hl : t.locate base p with
  | error e => simp [error_bind]
  | ok place =>
    rw [ok_bind]
    cases hn : t.node? place with
    | some n => simp [hn, throw, throwThe, MonadExceptOf.throw, bind, Except.bind]
    | none =>
      cases hdenied : denied place with
      | true => simp [hdenied, throw, throwThe, MonadExceptOf.throw, bind, Except.bind]
      | false =>
        simp only [Option.isSome_none, Bool.false_eq_true, if_false]
        constructor
        · intro heq
          exact ⟨place, rfl, hn, hdenied, (Except.ok.inj heq).symm⟩
        · rintro ⟨place', heq, -, -, rfl⟩
          obtain rfl := Except.ok.inj heq
          rfl

/-! ### Opening a file to write nothing -/

theorem setEntry_of_lookup {n : Node} {es : List (Place × Node)} (hn : es.lookup place = some n) :
    setEntry place n es = es := by
  induction es with
  | nil => cases hn
  | cons e es ih =>
    obtain ⟨k, m⟩ := e
    rw [List.lookup_cons] at hn
    by_cases hk : k = place
    · subst hk
      simp only [beq_self_eq_true, Option.some.injEq] at hn
      rw [setEntry, if_pos rfl, hn]
    · rw [beq_eq_false_iff_ne.2 (Ne.symm hk)] at hn
      rw [setEntry, if_neg hk, ih hn]

/-- `t'` is `t`, but for an empty file where `p` leads if nothing stood there. -/
def Opens (t : FileTree) (base : Place) (p : Path) (t' : FileTree) : Prop :=
  t' = t ∨ ∃ place mode, t.locate base p = .ok place ∧ t.node? place = none ∧
    t' = t.set place (.file [] mode)

theorem opens_of_modify {mode : Nat} (h : t.modify base p mode (· ++ []) = .ok t') :
    t.Opens base p t' := by
  obtain ⟨place, hl, hset⟩ := bind_eq_ok_iff.1 h
  split at hset
  · next hn => exact .inr ⟨place, mode, hl, hn, (Except.ok.inj hset).symm⟩
  · cases hset
  · next content mode' hn =>
    left
    simp only [List.append_nil] at hset
    have hlookup : t.entries.lookup place = some (.file content mode') := by
      unfold node? at hn
      split at hn
      · cases hn
      · exact hn
    rw [← Except.ok.inj hset, set, setEntry_of_lookup hlookup]

theorem Opens.puts (h : t.Opens base p t') : t' = t ∨ t.Puts base p [] t' := by
  rcases h with rfl | ⟨place, mode, hl, hn, rfl⟩
  · exact .inl rfl
  · exact .inr ⟨place, mode, hl, by simp [hn], rfl⟩

/-! ### Directories that are made -/

theorem grows_makeDirectory (h : t.makeDirectory denied base p = .ok t') : t.Grows t' := by
  obtain ⟨place, -, hn, -, rfl⟩ := makeDirectory_eq_ok_iff.1 h
  intro place' n hn'
  rw [node?_set_of_not_directory (by simp [hn]), if_neg, hn']
  rintro rfl
  simp [hn] at hn'

/-! ### Directories that are there -/

theorem isDirectoryAt_iff :
    t.isDirectoryAt base p ↔
      ∃ place, t.locate base p = .ok place ∧ t.node? place = some .directory := by
  unfold isDirectoryAt
  cases t.locate base p with
  | error e => simp
  | ok place => simp [isDirectory]

theorem KeepsDirectories.isDirectoryAt (hk : t.KeepsDirectories t') (hd : t.isDirectoryAt base p) :
    t'.isDirectoryAt base p := by
  obtain ⟨place, hl, hn⟩ := isDirectoryAt_iff.1 hd
  exact isDirectoryAt_iff.2 ⟨place, locate_of_keepsDirectories hk hl, hk place hn⟩

theorem isDirectoryAt_of_makeDirectory (h : t.makeDirectory denied base p = .ok t') :
    t'.isDirectoryAt base p := by
  have hg := grows_makeDirectory h
  obtain ⟨place, hl, hn, -, rfl⟩ := makeDirectory_eq_ok_iff.1 h
  refine isDirectoryAt_iff.2 ⟨place, locate_of_keepsDirectories hg.keepsDirectories hl, ?_⟩
  rw [node?_set_of_not_directory (by simp [hn]), if_pos rfl]

theorem makeDirectory_of_isDirectoryAt (hd : t.isDirectoryAt base p) :
    t.makeDirectory denied base p = .error .alreadyExists := by
  obtain ⟨place, hl, hn⟩ := isDirectoryAt_iff.1 hd
  simp [makeDirectory, hl, hn, bind, Except.bind, throw, throwThe, MonadExceptOf.throw]

end FileTree

namespace Host

/-- The file at `p` holds `b`. -/
def Holds (h : Host) (p : Path) (b : Bytes) : Prop := h.files.read h.workingDirectory p = .ok b

def locate (h : Host) (p : Path) : Except StorageReason Place := h.files.locate h.workingDirectory p

/-- A file can be written at `p`: the path leads to a place where no directory stands. -/
def Admits (h : Host) (p : Path) : Prop :=
  ∃ place, h.locate p = .ok place ∧ h.files.node? place ≠ some .directory

end Host

namespace Action

variable {α β : Type} {h h' : Host} {p q : Path} {b content : Bytes}

theorem runOn_read (hr : h.Holds p b) : runOn (read p) h = (.ok b, h) := by
  have hr : h.files.read h.workingDirectory p = .ok b := hr
  simp only [read, query, runOn_bind, runOn_get, hr, runOn_pure]

theorem answers_read (hr : h.Holds p b) : Answers (read p) h (.ok b) :=
  fun log => ⟨log, runOn_read (h := { h with log }) hr⟩

theorem answers_read_error {reason : StorageReason}
    (hr : h.files.read h.workingDirectory p = .error reason) :
    Answers (read p) h (.error (.storage ⟨reason, some p⟩)) := by
  refine fun log => ⟨log, ?_⟩
  simp only [read, query, runOn_bind, runOn_get, hr, runOn_throw]

theorem runOn_update (change : FileTree → Place → Path → Except StorageReason FileTree) :
    runOn (update p change) h =
      match change h.files h.workingDirectory p with
      | .ok t => (.ok (), { h with files := t })
      | .error reason => (.error (.storage ⟨reason, some p⟩), h) := by
  simp only [update, query, runOn_bind, runOn_get]
  cases change h.files h.workingDirectory p <;> rfl

/-- An action that adds files or directories and disturbs none, whatever was logged before. -/
def Adds (x : Action α) : Prop :=
  ∀ h : Host, ∃ r t, h.files.Grows t ∧ ∀ log, runOn x { h with log } = (r, { h with log, files := t })

theorem adds_of_unchanged {x : Action α}
    (hx : ∀ h : Host, ∃ r, ∀ log, runOn x { h with log } = (r, { h with log })) : Adds x := by
  intro h
  obtain ⟨r, hr⟩ := hx h
  exact ⟨r, h.files, .refl _, hr⟩

theorem Adds.bind {x : Action α} {f : α → Action β} (hx : Adds x) (hf : ∀ a, Adds (f a)) :
    Adds (x >>= f) := by
  intro h
  obtain ⟨r, t, hg, hr⟩ := hx h
  cases r with
  | error e => exact ⟨.error e, t, hg, fun log => runOn_bind_error (hr log)⟩
  | ok a =>
    obtain ⟨r', t', hg', hr'⟩ := hf a { h with files := t }
    exact ⟨r', t', hg.trans hg', fun log => (runOn_bind_ok (hr log)).trans (hr' log)⟩

theorem Adds.tryCatch {x : Action α} {handle : Failure → Action α} (hx : Adds x)
    (hf : ∀ e, Adds (handle e)) : Adds (tryCatch x handle) := by
  intro h
  obtain ⟨r, t, hg, hr⟩ := hx h
  cases r with
  | error e =>
    obtain ⟨r', t', hg', hr'⟩ := hf e { h with files := t }
    refine ⟨r', t', hg.trans hg', fun log => ?_⟩
    rw [runOn_tryCatch, hr]
    exact hr' log
  | ok a =>
    refine ⟨.ok a, t, hg, fun log => ?_⟩
    rw [runOn_tryCatch, hr]

theorem runOn_makeDirectory (p : Path) (h : Host) :
    runOn (makeDirectory p) h =
      match h.files.makeDirectory h.denied h.workingDirectory p with
      | .ok t => (.ok (), { h with files := t })
      | .error reason => (.error (.storage ⟨reason, some p⟩), h) := by
  rw [makeDirectory, runOn_bind_ok (runOn_get h), runOn_update]

theorem adds_makeDirectory (p : Path) : Adds (makeDirectory p) := by
  intro h
  cases hm : h.files.makeDirectory h.denied h.workingDirectory p with
  | ok t =>
    refine ⟨.ok (), t, FileTree.grows_makeDirectory hm, fun log => ?_⟩
    rw [runOn_makeDirectory, hm]
  | error reason =>
    refine ⟨.error (.storage ⟨reason, some p⟩), h.files, .refl _, fun log => ?_⟩
    rw [runOn_makeDirectory, hm]

theorem runOn_acceptDirectory (p : Path) (e : Failure) (h : Host) :
    runOn (acceptDirectory p e) h =
      (if h.files.isDirectoryAt h.workingDirectory p then .ok () else .error e, h) := by
  simp only [acceptDirectory, isDirectory, runOn_bind, runOn_get, runOn_pure]
  split <;> rfl

theorem adds_acceptDirectory (p : Path) (e : Failure) : Adds (acceptDirectory p e) :=
  adds_of_unchanged fun h =>
    ⟨if h.files.isDirectoryAt h.workingDirectory p then .ok () else .error e,
      fun log => runOn_acceptDirectory p e { h with log }⟩

theorem adds_makeDirectories_go (depth : Nat) (p : Path) : Adds (makeDirectories.go depth p) := by
  induction depth generalizing p with
  | zero => exact (adds_makeDirectory p).tryCatch fun e => adds_acceptDirectory p e
  | succ depth ih =>
    refine (adds_makeDirectory p).tryCatch fun e => ?_
    split
    · exact (ih p.parent).bind fun _ =>
        (adds_makeDirectory p).tryCatch fun e => adds_acceptDirectory p e
    · exact adds_acceptDirectory p e

theorem adds_makeParents (p : Path) : Adds (makeParents p) := adds_makeDirectories_go _ _

/-- Writing a file whole makes directories at most, and then puts the file in place. What was logged
before makes no difference. -/
theorem writeAtomically_returns (hw : runOn (writeAtomically p content) h = (.ok (), h')) :
    ∃ t t', h.files.Grows t ∧ t.Puts h.workingDirectory p content t' ∧
      ∀ log, runOn (writeAtomically p content) { h with log } = (.ok (), { h with log, files := t' }) := by
  obtain ⟨r, t, hg, hr⟩ := adds_makeParents p h
  obtain ⟨_, h₁, hm, hu⟩ := runOn_bind_eq_ok.1 hw
  have hm' := hr h.log
  rw [hm] at hm'
  obtain ⟨rfl, rfl⟩ := Prod.mk.inj hm'
  rw [runOn_update] at hu
  split at hu
  · next t' hreplace =>
    refine ⟨t, t', hg, FileTree.puts_of_replace hreplace, fun log => ?_⟩
    rw [writeAtomically, runOn_bind_ok (hr log), runOn_update]
    simp only [hreplace]
  · cases hu

theorem returns_writeAtomically (hw : runOn (writeAtomically p content) h = (.ok (), h')) :
    Returns (writeAtomically p content) h () h' := by
  obtain ⟨t, t', -, -, hr⟩ := writeAtomically_returns hw
  have hh := hw.symm.trans (hr h.log)
  obtain rfl := (Prod.mk.inj hh).2
  exact fun log => ⟨log, hr log⟩

theorem holds_of_writeAtomically (hw : runOn (writeAtomically p content) h = (.ok (), h')) :
    h'.Holds p content := by
  obtain ⟨t, t', -, hp, hr⟩ := writeAtomically_returns hw
  have hh := hw.symm.trans (hr h.log)
  obtain rfl := (Prod.mk.inj hh).2
  exact hp.read

theorem append_returns (ha : h.Admits p) (line : Bytes) :
    ∃ content t, h.files.Puts h.workingDirectory p content t ∧
      runOn (append p line) h = (.ok (), { h with files := t }) := by
  obtain ⟨place, hl, hd⟩ := ha
  obtain ⟨content, t, hm, hp⟩ := FileTree.puts_modify hl hd FileTree.plainMode (· ++ line)
  refine ⟨content, t, hp, ?_⟩
  rw [append, runOn_update, hm]

theorem append_fails (ha : ¬ h.Admits p) (line : Bytes) :
    ∃ e, runOn (append p line) h = (.error e, h) := by
  rw [append, runOn_update]
  split
  · next t hm =>
    unfold FileTree.modify at hm
    obtain ⟨place, hl, hm⟩ := bind_eq_ok_iff.1 hm
    refine absurd ⟨place, hl, ?_⟩ ha
    intro hd
    rw [hd] at hm
    cases hm
  · exact ⟨_, rfl⟩

theorem append_nil (p : Path) (h : Host) :
    ∃ r t, runOn (append p []) h = (r, { h with files := t }) ∧
      h.files.Opens h.workingDirectory p t ∧ (¬ h.Admits p → t = h.files) := by
  by_cases ha : h.Admits p
  · rw [append, runOn_update]
    split
    · next t hm => exact ⟨_, t, rfl, FileTree.opens_of_modify hm, fun hn => absurd ha hn⟩
    · exact ⟨_, h.files, rfl, .inl rfl, fun _ => rfl⟩
  · obtain ⟨e, hr⟩ := append_fails ha []
    exact ⟨_, h.files, hr, .inl rfl, fun _ => rfl⟩

/-! ### Making directories that are there -/

theorem runOn_acceptDirectory_eq_ok {e : Failure} :
    runOn (acceptDirectory p e) h = (.ok (), h') ↔
      h.files.isDirectoryAt h.workingDirectory p ∧ h' = h := by
  rw [runOn_acceptDirectory, Prod.mk.injEq, eq_comm (b := h')]
  split <;> simp_all

theorem isDirectoryAt_of_makeDirectory (hr : runOn (makeDirectory p) h = (.ok (), h')) :
    h'.files.isDirectoryAt h'.workingDirectory p := by
  rw [runOn_makeDirectory] at hr
  split at hr
  · next t hm =>
    cases hr
    exact FileTree.isDirectoryAt_of_makeDirectory hm
  · cases hr

theorem isDirectoryAt_of_tryCatch {handle : Failure → Action Unit}
    (hhandle : ∀ {e h₁}, runOn (handle e) h₁ = (.ok (), h') →
      h'.files.isDirectoryAt h'.workingDirectory p)
    (hr : runOn (tryCatch (makeDirectory p) handle) h = (.ok (), h')) :
    h'.files.isDirectoryAt h'.workingDirectory p := by
  rw [runOn_tryCatch] at hr
  rcases hmake : runOn (makeDirectory p) h with ⟨e | _, h₁⟩ <;> rw [hmake] at hr
  · exact hhandle hr
  · cases hr
    exact isDirectoryAt_of_makeDirectory hmake

theorem isDirectoryAt_of_acceptDirectory {e : Failure} {h₁ : Host}
    (hr : runOn (acceptDirectory p e) h₁ = (.ok (), h')) :
    h'.files.isDirectoryAt h'.workingDirectory p := by
  obtain ⟨hd, rfl⟩ := runOn_acceptDirectory_eq_ok.1 hr
  exact hd

theorem isDirectoryAt_of_makeDirectories (hr : runOn (makeDirectories p) h = (.ok (), h')) :
    h'.files.isDirectoryAt h'.workingDirectory p := by
  unfold makeDirectories at hr
  cases hdepth : p.parts.length with
  | zero =>
    rw [hdepth, makeDirectories.go] at hr
    exact isDirectoryAt_of_tryCatch isDirectoryAt_of_acceptDirectory hr
  | succ depth =>
    rw [hdepth, makeDirectories.go] at hr
    refine isDirectoryAt_of_tryCatch (fun {e h₁} hhandled => ?_) hr
    split at hhandled
    · obtain ⟨_, h₂, -, hagain⟩ := runOn_bind_eq_ok.1 hhandled
      exact isDirectoryAt_of_tryCatch isDirectoryAt_of_acceptDirectory hagain
    · exact isDirectoryAt_of_acceptDirectory hhandled

theorem runOn_makeDirectories (hd : h.files.isDirectoryAt h.workingDirectory p) :
    runOn (makeDirectories p) h = (.ok (), h) := by
  have hmake : runOn (makeDirectory p) h = (.error (.storage ⟨.alreadyExists, some p⟩), h) := by
    rw [runOn_makeDirectory, FileTree.makeDirectory_of_isDirectoryAt hd]
  have haccept : ∀ e, runOn (acceptDirectory p e) h = (.ok (), h) := fun e =>
    runOn_acceptDirectory_eq_ok.2 ⟨hd, rfl⟩
  unfold makeDirectories
  cases p.parts.length with
  | zero =>
    rw [makeDirectories.go, runOn_tryCatch, hmake]
    exact haccept _
  | succ depth =>
    rw [makeDirectories.go, runOn_tryCatch, hmake]
    exact haccept _

end Action

end UpdateSeal
