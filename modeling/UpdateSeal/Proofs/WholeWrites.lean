import UpdateSeal.Proofs.Lifecycles
import UpdateSeal.Proofs.RecordedWork

/-!
# Writing whole or not at all

Writing a payload and embedding signatures look at what they need, write one file, and look at what
they wrote. Where they fail, every file has the content it had, and where they return, only the
output has another one. The file is written by way of a temporary one beside it. In the end this is
the same as writing it at once, and if anything breaks off on the way the temporary file is gone and
nothing else was touched.
-/

namespace UpdateSeal

namespace FileTree

variable {t : FileTree} {base place target : Place} {p q : Path} {content b : Bytes} {mode : Nat}

theorem setEntry_setEntry (n n' : Node) (es : List (Place × Node)) :
    setEntry place n' (setEntry place n es) = setEntry place n' es := by
  induction es with
  | nil => simp [setEntry]
  | cons e es ih => by_cases he : e.1 = place <;> simp [setEntry, he, ih]

theorem filter_setEntry {es : List (Place × Node)} (hes : es.lookup place = none) (n : Node) :
    (setEntry place n es).filter (fun e => e.1 ≠ place) = es := by
  induction es with
  | nil => simp [setEntry]
  | cons e es ih =>
    obtain ⟨k, m⟩ := e
    rw [List.lookup_cons] at hes
    split at hes
    · cases hes
    · next hne =>
      have hk : k ≠ place := fun hk => by simp [hk] at hne
      simpa [setEntry, hk] using ih hes

theorem set_set (n n' : Node) : (t.set place n).set place n' = t.set place n' := by
  rw [set, set, setEntry_setEntry, ← set]

theorem erase_set (hn : t.node? place = none) (n : Node) : (t.set place n).erase place = t := by
  have hlookup : t.entries.lookup place = none := by
    unfold node? at hn
    split at hn
    · cases hn
    · exact hn
  rw [erase, set, filter_setEntry hlookup]

section Staged

/-! A file `b` stands at a place that was free, where `q` leads. -/

variable (hl : t.locate base q = .ok place) (hn : t.node? place = none)

include hl hn

theorem create_eq (mode : Nat) : t.create base q mode = .ok (t.set place (.file [] mode)) := by
  rw [create, hl, ok_bind, hn]
  rfl

theorem puts_staged (b : Bytes) (mode : Nat) :
    t.Puts base q b (t.set place (.file b mode)) :=
  ⟨place, mode, hl, by simp [hn], rfl⟩

theorem locate_staged : (t.set place (.file b mode)).locate base q = .ok place :=
  (puts_staged hl hn b mode).locate hl

omit hl in
theorem node?_staged : (t.set place (.file b mode)).node? target =
    if target = place then some (.file b mode) else t.node? target :=
  node?_set_of_not_directory (by simp [hn]) _

theorem modify_staged (mode' : Nat) (change : Bytes → Bytes) :
    (t.set place (.file b mode)).modify base q mode' change =
      .ok (t.set place (.file (change b) mode)) := by
  rw [modify, locate_staged hl hn, ok_bind, node?_staged hn, if_pos rfl]
  exact congrArg Except.ok (set_set _ _)

theorem remove_staged : (t.set place (.file b mode)).remove base q = .ok t := by
  rw [remove, locate_staged hl hn, ok_bind, node?_staged hn, if_pos rfl]
  exact congrArg Except.ok (erase_set hn _)

theorem move_staged (hp : t.locate base p = .ok target) :
    (t.set place (.file content mode)).move base q p = t.replace base p mode content := by
  have hp' : (t.set place (.file content mode)).locate base p = .ok target :=
    (puts_staged hl hn content mode).locate hp
  have hdirectory : (t.set place (.file content mode)).isDirectory target = t.isDirectory target := by
    rw [isDirectory, isDirectory, node?_staged hn]
    split
    · next htarget =>
      rw [htarget, hn]
      rfl
    · rfl
  have htarget : (t.set place (.file content mode)).target base p = t.target base p := by
    rw [FileTree.target, FileTree.target, hp', hp, ok_bind, ok_bind, hdirectory]
  rw [move, replace, locate_staged hl hn, ok_bind, node?_staged hn, if_pos rfl]
  simp only [htarget, erase_set hn]

end Staged

/-! ### Names that are free -/

theorem mem_of_locate_join {name : LooseText} (hname : name ≠ "..")
    (hl : t.locate base (p.join name) = .ok place) : name ∈ place := by
  have hplace := locate_eq hl
  rw [Path.placeFrom, Path.join, Path.walk, List.foldl_append, List.foldl_cons, List.foldl_nil,
    if_neg hname] at hplace
  rw [← hplace]
  exact List.mem_append_right _ List.mem_cons_self

theorem node?_of_new_name {name : LooseText} (hmem : name ∈ place)
    (hnew : ∀ e ∈ t.entries, name ∉ e.1) : t.node? place = none := by
  rw [node?, if_neg (List.ne_nil_of_mem hmem)]
  by_contra hsome
  obtain ⟨n, hn⟩ := Option.ne_none_iff_exists'.1 hsome
  obtain ⟨front, back, heq, -⟩ := List.lookup_eq_some_iff.1 hn
  exact hnew (place, n) (by simp [heq]) hmem

/-- No name in the tree is longer than this. -/
def nameBound (t : FileTree) : Nat :=
  ((t.entries.flatMap Prod.fst).map fun name => name.points.length).sum

theorem length_le_nameBound {e : Place × Node} {name : LooseText} (he : e ∈ t.entries)
    (hname : name ∈ e.1) : name.points.length ≤ t.nameBound :=
  List.le_sum_of_mem (List.mem_map_of_mem (List.mem_flatMap.2 ⟨e, he, hname⟩))

end FileTree

/-- Nothing stands where `p` leads. -/
def Host.Free (h : Host) (p : Path) : Prop :=
  ∀ place, h.locate p = .ok place → h.files.node? place = none

namespace Action

variable {α β : Type} {h h₁ h' : Host} {p q out : Path} {place target : Place} {content b : Bytes}
  {random : String} {cut : Option (Nat × StorageReason)} {e : Failure}

/-- The host `h` with a file at `place` that is being written. -/
def staged (h : Host) (place : Place) (b : Bytes) : Host :=
  { h with files := h.files.set place (.file b FileTree.secretMode) }

section Staged

variable (hl : h.files.locate h.workingDirectory q = .ok place) (hn : h.files.node? place = none)

include hl hn

theorem runOn_create : runOn (update q fun t base p => t.create base p FileTree.secretMode) h =
    (.ok (), staged h place []) := by
  rw [runOn_update, FileTree.create_eq hl hn]
  rfl

theorem runOn_write_staged (b' : Bytes) :
    runOn (write q b') (staged h place b) = (.ok (), staged h place b') := by
  rw [write, runOn_update, staged, FileTree.modify_staged hl hn]
  rfl

theorem runOn_remove_staged : runOn (remove q) (staged h place b) = (.ok (), h) := by
  rw [remove, runOn_update, staged, FileTree.remove_staged hl hn]

theorem runOn_move_staged (hp : h.files.locate h.workingDirectory p = .ok target) :
    runOn (update p fun t base p => t.move base q p) (staged h place content) =
      match h.files.replace h.workingDirectory p FileTree.secretMode content with
      | .ok t => (.ok (), { h with files := t })
      | .error reason => (.error (.storage ⟨reason, some p⟩), staged h place content) := by
  have hmove : (h.files.set place (.file content FileTree.secretMode)).move h.workingDirectory q p =
      h.files.replace h.workingDirectory p FileTree.secretMode content :=
    FileTree.move_staged hl hn hp
  cases hr : h.files.replace h.workingDirectory p FileTree.secretMode content with
  | ok t => simp only [runOn_update, staged, hmove, hr]
  | error reason => simp only [runOn_update, staged, hmove, hr]

/-- In the end the file is put in place at once, or all is as before. -/
theorem runOn_stage (hp : h.files.locate h.workingDirectory p = .ok target) (content : Bytes) :
    runOn (stage q cut p content) h =
      match cut with
      | none => runOn (update p fun t base p => t.replace base p FileTree.secretMode content) h
      | some (_, reason) => (.error (.storage ⟨reason, some q⟩), h) := by
  rw [stage, runOn_bind_ok (runOn_create hl hn), runOn_tryCatch]
  cases cut with
  | none =>
    rw [fill, runOn_bind_ok (runOn_write_staged hl hn content), runOn_move_staged hl hn hp,
      runOn_update]
    cases h.files.replace h.workingDirectory p FileTree.secretMode content with
    | ok t => rfl
    | error reason =>
      simp only
      rw [runOn_bind_ok (runOn_remove_staged hl hn), runOn_throw]
  | some q' =>
    obtain ⟨size, reason⟩ := q'
    have hfill : runOn (fill q content (some (size, reason))) (staged h place []) =
        (.error (.storage ⟨reason, some q⟩), staged h place (content.take size)) := by
      rw [fill, runOn_bind_ok (runOn_write_staged hl hn _), runOn_throw]
    rw [runOn_bind_error hfill]
    simp only
    rw [runOn_bind_ok (runOn_remove_staged hl hn), runOn_throw]

end Staged

/-- A name for a temporary file is free once the parents are there. -/
def FreeBeside (h : Host) (p : Path) (random : String) : Prop :=
  (runOn (makeParents p) h).2.Free (p.beside random)

theorem exists_freeBeside (h : Host) (p : Path) : ∃ random, FreeBeside h p random := by
  let bound := (runOn (makeParents p) h).2.files.nameBound
  let random := String.ofList (List.replicate (bound + 1) 'x')
  let name := p.name ++ random ++ ".tmp"
  have hlength : bound + 5 ≤ name.points.length := by
    simp only [name, random, LooseText.points_append, LooseText.points, List.length_append,
      List.length_map, String.toList_ofList, List.length_replicate]
    have hsuffix : ".tmp".toList.length = 4 := rfl
    omega
  have hname : name ≠ ".." := by
    intro heq
    have hdots : (LooseText.string "..").points.length = 2 := rfl
    rw [heq, hdots] at hlength
    omega
  refine ⟨random, fun place hl => ?_⟩
  refine FileTree.node?_of_new_name (FileTree.mem_of_locate_join hname hl) fun e he hmem => ?_
  have hle := FileTree.length_le_nameBound he hmem
  have hlt : bound < name.points.length := by omega
  exact absurd hle (Nat.not_le.2 hlt)

theorem locate_of_makeParents (hmake : runOn (makeParents p) h = (.ok (), h₁))
    (hfree : FreeBeside h p random) :
    ∃ place target, h₁.files.locate h₁.workingDirectory (p.beside random) = .ok place ∧
      h₁.files.node? place = none ∧ h₁.files.locate h₁.workingDirectory p = .ok target := by
  have hd := isDirectoryAt_of_makeDirectories hmake
  have hparent : (p.beside random).parent = p.parent := by
    simp [Path.beside, Path.join, Path.parent]
  obtain ⟨place, hl⟩ := FileTree.exists_locate_of_parent (hparent ▸ hd)
  obtain ⟨target, hp⟩ := FileTree.exists_locate_of_parent hd
  rw [FreeBeside, hmake] at hfree
  exact ⟨place, target, hl, hfree place hl, hp⟩

/-- Going through a temporary file makes no difference in the end. -/
theorem runOn_writeThrough (hfree : FreeBeside h p random) (content : Bytes) :
    runOn (writeThrough random none p content) h = runOn (writeAtomically p content) h := by
  rw [writeThrough, writeAtomically]
  cases hmake : runOn (makeParents p) h with
  | mk r h₁ =>
    cases r with
    | error e => rw [runOn_bind_error hmake, runOn_bind_error hmake]
    | ok _ =>
      obtain ⟨place, target, hl, hn, hp⟩ := locate_of_makeParents hmake hfree
      rw [runOn_bind_ok hmake, runOn_bind_ok hmake, runOn_stage hl hn hp]

/-- A write that breaks off leaves nothing but the parents. -/
theorem runOn_writeThrough_cut (hfree : FreeBeside h p random) (content : Bytes) (size : Nat)
    (reason : StorageReason) :
    ∃ e, runOn (writeThrough random (some (size, reason)) p content) h =
      (.error e, (runOn (makeParents p) h).2) := by
  rw [writeThrough]
  cases hmake : runOn (makeParents p) h with
  | mk r h₁ =>
    cases r with
    | error e => exact ⟨e, runOn_bind_error hmake⟩
    | ok _ =>
      obtain ⟨place, target, hl, hn, hp⟩ := locate_of_makeParents hmake hfree
      exact ⟨_, by rw [runOn_bind_ok hmake, runOn_stage hl hn hp]⟩

theorem FreeBeside.with_log (hfree : FreeBeside h p random) (log : List (LogLevel × String)) :
    FreeBeside { h with log } p random := by
  obtain ⟨r, t, -, hmake⟩ := adds_makeParents p h
  have hfree : (runOn (makeParents p) { h with log := h.log }).2.Free (p.beside random) := hfree
  rw [hmake h.log] at hfree
  rw [FreeBeside, hmake log]
  exact hfree

/-! ### One write -/

/-- Finds out what to write and what to do when it is written, and has it written to `out`. -/
def writing (writer : Path → Bytes → Action Unit) (out : Path) (before : Action (Bytes × Action α)) :
    Action α := do
  let (content, after) ← before
  writer out content
  after

/-- `x` looks at what it needs, writes `out`, and goes on. -/
def WritesOnce (x : Action α) (out : Path) : Prop :=
  ∃ before, Observes before ∧ x = writing writeAtomically out before

theorem writesOnce_throw (e : Failure) (out : Path) : WritesOnce (throw e : Action α) out :=
  ⟨throw e, observes_throw e, rfl⟩

theorem writesOnce_write (out : Path) (content : Bytes) (after : Unit → Action α) :
    WritesOnce (writeAtomically out content >>= after) out :=
  ⟨pure (content, after ()), observes_pure _, rfl⟩

theorem WritesOnce.bind {y : Action β} {f : β → Action α} (hy : Observes y)
    (hf : ∀ b, WritesOnce (f b) out) : WritesOnce (y >>= f) out := by
  choose before hlooks heq using hf
  refine ⟨y >>= before, hy.bind hlooks, ?_⟩
  rw [writing, bind_assoc]
  exact congrArg _ (funext heq)

theorem contentAt_of_makeParents (p : Path) (h : Host) (place : Place) :
    (runOn (makeParents p) h).2.files.contentAt place = h.files.contentAt place := by
  have hc : Touches h.workingDirectory (fun _ => False) (p.LeadsThrough h.workingDirectory)
    (makeParents p) := touches_makeParents p
  exact (hc h rfl).contentAt_eq not_false

section Writing

variable {before : Action (Bytes × Action α)} (hlooks : Observes before)
  (hfree : FreeBeside h out random)

include hlooks hfree

theorem runOn_writing_through :
    runOn (writing (writeThrough random none) out before) h =
      runOn (writing writeAtomically out before) h := by
  obtain ⟨r, hanswers⟩ := hlooks h
  obtain ⟨log, hbefore⟩ := hanswers.runOn
  rw [writing, writing]
  cases r with
  | error e => rw [runOn_bind_error hbefore, runOn_bind_error hbefore]
  | ok q =>
    rw [runOn_bind_ok hbefore, runOn_bind_ok hbefore]
    simp only
    rw [runOn_bind, runOn_bind, runOn_writeThrough (hfree.with_log log)]

theorem writing_cut (size : Nat) (reason : StorageReason) :
    ∃ e h', runOn (writing (writeThrough random (some (size, reason))) out before) h =
        (.error e, h') ∧ ∀ place, h'.files.contentAt place = h.files.contentAt place := by
  obtain ⟨r, hanswers⟩ := hlooks h
  obtain ⟨log, hbefore⟩ := hanswers.runOn
  rw [writing]
  cases r with
  | error e => exact ⟨e, _, runOn_bind_error hbefore, fun _ => rfl⟩
  | ok q =>
    obtain ⟨e, hcut⟩ := runOn_writeThrough_cut (hfree.with_log log) q.1 size reason
    rw [runOn_bind_ok hbefore]
    exact ⟨e, _, runOn_bind_error hcut, contentAt_of_makeParents out { h with log }⟩

end Writing

/-- What `x`, which is to write `out`, leaves of the files. -/
structure WritesWhole (x : Action α) (out : Path) : Prop where
  /-- Where it returns, the output is there, and every other file has the content it had. -/
  returned : ∀ {h a h'}, runOn x h = (.ok a, h') → (∃ b, h'.Holds out b) ∧
    ∀ place, place ≠ h.placeOf out → h'.files.contentAt place = h.files.contentAt place
  /-- Where it fails, every file has the content it had, and no file was added. -/
  raised : ∀ {h e h'}, runOn x h = (.error e, h') →
    ∀ place, h'.files.contentAt place = h.files.contentAt place
  /-- It writes once, and through a temporary file with a free name this comes to the same. A write
  that breaks off leaves every file with the content it had, and no temporary one. -/
  staged : ∃ before, Observes before ∧ x = writing writeAtomically out before ∧
    ∀ h, (∃ random, FreeBeside h out random) ∧ ∀ random, FreeBeside h out random →
      runOn (writing (writeThrough random none) out before) h = runOn x h ∧
      ∀ size reason, ∃ e h',
        runOn (writing (writeThrough random (some (size, reason))) out before) h = (.error e, h') ∧
          ∀ place, h'.files.contentAt place = h.files.contentAt place

theorem WritesOnce.whole {x : Action α} (hx : WritesOnce x out)
    (htouches : ∀ base, Touches base (· = out.placeFrom base) (out.LeadsThrough base) x)
    (hclean : ∀ h, FailsClean (out.LeadsThrough h.workingDirectory) h x)
    (hwritten : ∀ {h a h'}, runOn x h = (.ok a, h') → ∃ b, h'.Holds out b) :
    WritesWhole x out := by
  constructor
  case returned =>
    intro h a h' hr
    exact ⟨hwritten hr, fun place hplace => ((htouches _).changes hr).contentAt_eq hplace⟩
  case raised => exact fun hr place => (hclean _ _ _ hr).contentAt_eq not_false
  case staged =>
    obtain ⟨before, hlooks, rfl⟩ := hx
    exact ⟨before, hlooks, rfl, fun h => ⟨exists_freeBeside h out, fun random hfree =>
      ⟨runOn_writing_through hlooks hfree, writing_cut hlooks hfree⟩⟩⟩

end Action

open UpdateSeal.Action

namespace PayloadFile

variable {w : PayloadWriter} {path out : Path} {data sig tail : Bytes} {S M : Option Bytes}
  {major : Int} {version reserved : Option Int} {manifest : Manifest} {base : Place} {h h' : Host}
  {l : Layout}

theorem writesOnce_writeParts : WritesOnce (writeParts out major manifest sig data tail) out :=
  .bind (observes_liftExcept _ _) fun _ => writesOnce_write out _ _

theorem writesOnce_writePayload : WritesOnce (writePayload w out data version reserved) out := by
  refine .bind (observes_liftExcept _ _) fun _ => .bind (observes_liftExcept _ _) fun _ => ?_
  simp only
  split
  · exact writesOnce_writeParts
  · exact .bind (observes_liftExcept _ _) fun _ => writesOnce_writeParts

theorem writesOnce_embedSignatures : WritesOnce (embedSignatures path S M out) out := by
  refine .bind (observes_readLayout path) fun _ => .bind (observes_liftExcept _ _) fun _ =>
    .bind (observes_liftExcept _ _) fun _ => .bind (observes_liftExcept _ _) fun _ =>
    .bind (observes_liftExcept _ _) fun _ => .bind (observes_liftExcept _ _) fun _ =>
    .bind (observes_liftExcept _ _) fun _ => .bind (observes_liftExcept _ _) fun _ =>
    .bind (observes_readRegion path _) fun _ => ?_
  cases S with
  | none => exact writesOnce_throw _ out
  | some s => exact writesOnce_writeParts

theorem touches_writePayload :
    Touches base (· = out.placeFrom base) (out.LeadsThrough base)
      (writePayload w out data version reserved) := by
  refine (touches_liftExcept _ _).bind fun _ => (touches_liftExcept _ _).bind fun _ => ?_
  simp only
  split
  · exact touches_writeParts
  · exact (touches_liftExcept _ _).bind fun _ => touches_writeParts

theorem length_of_zeros {n : Int} {b : Bytes} (hb : zeros n = .ok b) : n = b.length := by
  unfold zeros at hb
  split at hb
  · cases hb
  · cases hb
    rw [List.length_replicate]
    omega

theorem failsClean_writePayload :
    FailsClean (out.LeadsThrough h.workingDirectory) h
      (writePayload w out data version reserved) := by
  refine .bind (observes_liftExcept _ _) fun _ _ _ => .bind (observes_liftExcept _ _)
    fun manifest log hm => ?_
  obtain ⟨rfl, hpos, hminor⟩ :=
    newManifest_eq_ok (mapError_eq_ok_iff.1 ((answers_liftExcept _ _ _).unique hm))
  simp only
  split
  · have hd : Manifest.Describes ⟨w.blockSize, w.minorVersion, none, none⟩ data [] :=
      .unsigned rfl rfl rfl
    exact failsClean_writeParts fun metadata hb =>
      hd.valid (isWritable_of_buildMetadata hb) hpos hminor
  · refine .bind (observes_liftExcept _ _) fun blank log hblank => ?_
    have hlength := length_of_zeros
      (mapError_eq_ok_iff.1 ((answers_liftExcept _ _ _).unique hblank))
    rw [hlength]
    have hd : Manifest.Describes ⟨w.blockSize, w.minorVersion, some data.length,
        some blank.length⟩ data blank := .signed rfl rfl
    exact failsClean_writeParts fun metadata hb =>
      hd.valid (isWritable_of_buildMetadata hb) hpos hminor

theorem holds_of_writePayload
    (hw : runOn (writePayload w out data version reserved) h = (.ok l, h')) :
    ∃ b, h'.Holds out b := by
  obtain ⟨metadata, -, hholds⟩ := Write.assembled_of_writePayload rfl hw
  exact ⟨_, hholds⟩

theorem exists_holds_of_embedSignatures
    (hw : runOn (embedSignatures path S M out) h = (.ok l, h')) : ∃ b, h'.Holds out b := by
  obtain ⟨s, rfl⟩ := some_of_embedSignatures hw
  exact holds_of_embedSignatures hw

/-- Writing a payload and embedding signatures write their output whole or not at all, whatever they
are given and whatever files there are, also where a payload is signed in its place. -/
theorem writes_whole (w : PayloadWriter) (path : Path) (data : Bytes) (version reserved : Option Int)
    (source : Path) (S M : Option Bytes) (out : Path) :
    WritesWhole (writePayload w path data version reserved) path ∧
      WritesWhole (embedSignatures source S M out) out := by
  constructor
  · exact writesOnce_writePayload.whole (fun _ => touches_writePayload)
      (fun _ => failsClean_writePayload) holds_of_writePayload
  · exact writesOnce_embedSignatures.whole (fun _ => touches_embedSignatures)
      (fun _ => failsClean_embedSignatures) exists_holds_of_embedSignatures

end PayloadFile

end UpdateSeal
