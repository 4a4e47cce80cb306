import UpdateSeal.Application
import UpdateSeal.Proofs.Appending
import UpdateSeal.Proofs.Places

/-!
# Starting and starting again

A start makes the directory for data, finds or makes the key of the ledger, and opens the ledger.
Where these are follows from the settings and the environment. The first start finds no ledger and
opens an empty one; a later start finds the key and the entries, and opens the same ledger.
-/

namespace UpdateSeal

open UpdateSeal.Action

variable {files dirs : Place → Prop} {h h' : Host} {p : Path} {e : Failure}

/-! ### Keys -/

namespace Action

variable {key : Bytes} {n : Nat}

theorem holds_of_writeSecret (hw : runOn (writeSecret p key) h = (.ok (), h')) : h'.Holds p key := by
  obtain ⟨_, h₁, -, hupdate⟩ := runOn_bind_eq_ok.1 hw
  rw [runOn_update] at hupdate
  split at hupdate
  · next t ht =>
    obtain ⟨t₁, hmodify, hrestrict⟩ := bind_eq_ok_iff.1 ht
    obtain ⟨content, hread, hputs⟩ := FileTree.puts_of_restrict hrestrict
    obtain ⟨b, _, -, -, hputs₁⟩ := FileTree.contentAt_of_modify hmodify
    cases hupdate
    obtain rfl := Except.ok.inj (hread.symm.trans hputs₁.read)
    exact hputs.read
  · cases hupdate

theorem holds_of_loadOrCreateKey (hr : runOn (loadOrCreateKey p n) h = (.ok key, h')) :
    h'.Holds p key := by
  rw [loadOrCreateKey, runOn_tryCatch] at hr
  cases hread : h.files.read h.workingDirectory p with
  | ok b =>
    rw [runOn_read hread] at hr
    cases hr
    exact hread
  | error reason =>
    obtain ⟨log, hrun⟩ := (answers_read_error hread).runOn
    rw [hrun] at hr
    simp only at hr
    split at hr
    · obtain ⟨_, h₁, -, hr⟩ := runOn_bind_eq_ok.1 hr
      obtain ⟨_, h₂, hw, hr⟩ := runOn_bind_eq_ok.1 hr
      cases hr
      exact holds_of_writeSecret hw
    · cases hr

theorem runOn_loadOrCreateKey (hk : h.Holds p key) : runOn (loadOrCreateKey p n) h = (.ok key, h) := by
  rw [loadOrCreateKey, runOn_tryCatch, runOn_read hk]

end Action

/-! ### Directories that may not be made -/

namespace Path

variable {base place : Place}

theorem LeadsThrough.of_isDirectoryAt {t : FileTree} (hp : p.LeadsThrough base place)
    (hd : t.isDirectoryAt base p) : t.node? place = some .directory := by
  obtain ⟨target, hl, hn⟩ := FileTree.isDirectoryAt_iff.1 hd
  obtain ⟨front, ⟨back, hparts⟩, hplace⟩ := hp
  cases back with
  | nil =>
    rw [List.append_nil] at hparts
    have htarget := FileTree.locate_eq hl
    rw [placeFrom, ← hparts, hplace] at htarget
    rw [htarget, hn]
  | cons part back =>
    have hpast : p.LeadsPast base place := ⟨front, part, ⟨back, by simpa using hparts⟩, hplace⟩
    exact FileTree.isDirectory_of_leadsPast hl hpast

end Path

namespace Host

/-- No directory stands at `place`, and none may be made there. -/
def Bars (h : Host) (place : Place) : Prop :=
  h.denied place ∧ h.files.node? place ≠ some .directory

instance (h : Host) (place : Place) : Decidable (h.Bars place) := inferInstanceAs (Decidable (_ ∧ _))

/-- `p` leads through a place that is barred. -/
def Obstructs (h : Host) (p : Path) : Prop :=
  ∃ place, p.LeadsThrough h.workingDirectory place ∧ h.Bars place

instance (h : Host) (p : Path) : Decidable (h.Obstructs p) :=
  decidable_of_iff (∃ front ∈ p.parts.inits,
    h.Bars (Path.walk (if p.absolute then [] else h.workingDirectory) front)) <| by
      simp [Obstructs, Path.LeadsThrough]

/-- Following `p` comes to a place that is barred, over directories that are there. -/
inductive Stuck (h : Host) : Path → Prop
  | here {p : Path} {place : Place} (hl : h.locate p = .ok place) (hb : h.Bars place) : Stuck h p
  | parent {p : Path} (hs : Stuck h p.parent) : Stuck h p

theorem Stuck.obstructs (hs : h.Stuck p) : h.Obstructs p := by
  induction hs with
  | here hl hb => exact ⟨_, placeOf_of_locate hl ▸ Path.leadsThrough_placeFrom _ _, hb⟩
  | parent _ ih =>
    obtain ⟨place, hp, hb⟩ := ih
    exact ⟨place, hp.of_parent, hb⟩

theorem Obstructs.not_isDirectoryAt (ho : h.Obstructs p) :
    ¬ h.files.isDirectoryAt h.workingDirectory p := by
  obtain ⟨place, hp, -, hn⟩ := ho
  exact fun hd => hn (hp.of_isDirectoryAt hd)

section Changes

variable (hc : Changes files dirs h h')
include hc

theorem Changes.bars_iff {place : Place} : h'.Bars place ↔ h.Bars place := by
  rw [Bars, hc.denied]
  constructor
  · rintro ⟨hdenied, hn⟩
    exact ⟨hdenied, fun hd => hn (hc.directories place hd)⟩
  · rintro ⟨hdenied, hn⟩
    exact ⟨hdenied, fun hd => hn (hc.refused place hdenied hd)⟩

theorem Changes.obstructs_iff : h'.Obstructs p ↔ h.Obstructs p := by
  simp only [Obstructs, hc.bars_iff, hc.workingDirectory]

theorem Stuck.changes (hs : h.Stuck p) : h'.Stuck p := by
  induction hs with
  | here hl hb => exact .here (hc.locate hl) (hc.bars_iff.2 hb)
  | parent _ ih => exact .parent ih

end Changes

end Host

namespace Action

theorem follow_ne_denied {t : FileTree} {place : Place} {parts : List LooseText}
    {reason : StorageReason} (hf : t.follow place parts = .error reason) : reason ≠ .denied := by
  induction parts generalizing place with
  | nil => cases hf
  | cons part parts ih =>
    rw [FileTree.follow] at hf
    split at hf
    · cases hf
      decide
    · cases hf
      decide
    · exact ih hf

theorem makeDirectory_error {t : FileTree} {denied : Place → Bool} {base place : Place}
    {reason : StorageReason} (hl : t.locate base p = .ok place)
    (hm : t.makeDirectory denied base p = .error reason) :
    reason = .alreadyExists ∨ reason = .denied ∧ denied place ∧ t.node? place = none := by
  rw [FileTree.makeDirectory, hl, ok_bind] at hm
  cases hn : t.node? place with
  | some n =>
    rw [hn] at hm
    cases hm
    exact .inl rfl
  | none =>
    rw [hn] at hm
    cases hdenied : denied place with
    | true =>
      rw [hdenied] at hm
      cases hm
      exact .inr ⟨rfl, rfl, rfl⟩
    | false =>
      rw [hdenied] at hm
      cases hm

theorem makeDirectory_fails (hmake : runOn (makeDirectory p) h = (.error e, h')) :
    h' = h ∧ ∃ reason, e = .storage ⟨reason, some p⟩ ∧
      h.files.makeDirectory h.denied h.workingDirectory p = .error reason := by
  rw [runOn_makeDirectory] at hmake
  split at hmake
  · cases hmake
  · next reason hm =>
    cases hmake
    exact ⟨rfl, reason, rfl, hm⟩

theorem stuck_of_makeDirectory {q : Option Path}
    (hmake : runOn (makeDirectory p) h = (.error (.storage ⟨.denied, q⟩), h')) : h.Stuck p := by
  obtain ⟨-, reason, he, hm⟩ := makeDirectory_fails hmake
  cases he
  cases hl : h.files.locate h.workingDirectory p with
  | error reason =>
    rw [FileTree.makeDirectory, hl] at hm
    cases hm
    exact absurd rfl (follow_ne_denied hl)
  | ok place =>
    rcases makeDirectory_error hl hm with heq | ⟨-, hdenied, hn⟩
    · cases heq
    · exact .here hl ⟨hdenied, by simp [hn]⟩

theorem acceptDirectory_eq_error {e e' : Failure}
    (hr : runOn (acceptDirectory p e) h = (.error e', h')) : e = e' ∧ h' = h := by
  rw [runOn_acceptDirectory] at hr
  split at hr
  · cases hr
  · cases hr
    exact ⟨rfl, rfl⟩

theorem stuck_of_accepted {q : Option Path}
    (hr : runOn (tryCatch (makeDirectory p) (acceptDirectory p)) h =
      (.error (.storage ⟨.denied, q⟩), h')) : h'.Stuck p := by
  rw [runOn_tryCatch] at hr
  rcases hmake : runOn (makeDirectory p) h with ⟨e | _, h₁⟩ <;> rw [hmake] at hr
  · obtain ⟨rfl, rfl⟩ := acceptDirectory_eq_error hr
    obtain ⟨rfl, -⟩ := makeDirectory_fails hmake
    exact stuck_of_makeDirectory hmake
  · cases hr

/-- Where making a directory is refused, the way to it is barred, and all before that is there. -/
theorem stuck_of_makeDirectories_go {depth : Nat} {q : Option Path}
    (hr : runOn (makeDirectories.go depth p) h = (.error (.storage ⟨.denied, q⟩), h')) :
    h'.Stuck p := by
  induction depth generalizing p h h' with
  | zero => exact stuck_of_accepted hr
  | succ depth ih =>
    rw [makeDirectories.go, runOn_tryCatch] at hr
    rcases hmake : runOn (makeDirectory p) h with ⟨e | _, h₁⟩ <;> rw [hmake] at hr
    · simp only at hr
      split at hr
      · obtain hparents | ⟨_, h₂, -, hlast⟩ := runOn_bind_eq_error.1 hr
        · exact .parent (ih hparents)
        · exact stuck_of_accepted hlast
      · obtain ⟨rfl, rfl⟩ := acceptDirectory_eq_error hr
        obtain ⟨rfl, -⟩ := makeDirectory_fails hmake
        exact stuck_of_makeDirectory hmake
    · cases hr

section Stuck

variable (hs : h.Stuck p)
include hs

theorem makeDirectory_of_stuck : ∃ reason,
    runOn (makeDirectory p) h = (.error (.storage ⟨reason, some p⟩), h) := by
  rcases hmake : runOn (makeDirectory p) h with ⟨e | _, h'⟩
  · obtain ⟨rfl, reason, rfl, -⟩ := makeDirectory_fails hmake
    exact ⟨reason, rfl⟩
  · have hc : Host.Changes (fun _ => False) (fun _ => True) h h' :=
      (touches_makeDirectory trivial).changes hmake
    exact absurd (isDirectoryAt_of_makeDirectory hmake)
      (hc.obstructs_iff.2 hs.obstructs).not_isDirectoryAt

theorem acceptDirectory_of_stuck (e : Failure) : runOn (acceptDirectory p e) h = (.error e, h) := by
  rw [runOn_acceptDirectory, if_neg hs.obstructs.not_isDirectoryAt]

/-- Behind that nothing more is made. -/
theorem makeDirectories_of_stuck (depth : Nat) :
    ∃ e, runOn (makeDirectories.go depth p) h = (.error e, h) := by
  induction depth generalizing p with
  | zero =>
    obtain ⟨reason, hmake⟩ := makeDirectory_of_stuck hs
    refine ⟨.storage ⟨reason, some p⟩, ?_⟩
    rw [makeDirectories.go, runOn_tryCatch, hmake]
    exact acceptDirectory_of_stuck hs _
  | succ depth ih =>
    obtain ⟨reason, hmake⟩ := makeDirectory_of_stuck hs
    rw [makeDirectories.go, runOn_tryCatch, hmake]
    simp only
    split
    · next heq =>
      cases heq
      cases hs with
      | here hl hb =>
        obtain ⟨-, _, he, hm⟩ := makeDirectory_fails hmake
        cases he
        rcases makeDirectory_error hl hm with heq | ⟨heq, -⟩ <;> cases heq
      | parent hs =>
        obtain ⟨e, hparents⟩ := ih hs
        exact ⟨e, runOn_bind_error hparents⟩
    · exact ⟨_, acceptDirectory_of_stuck hs _⟩

end Stuck

end Action

/-! ### Where things are kept -/

namespace Settings

variable {s : Settings}

/-- The directory for data that a start chooses. -/
def dataDirOn (s : Settings) (h : Host) : Path :=
  s.dataDir.getD (if h.Obstructs (usualDataDir h) then localDataDir h else usualDataDir h)

def configDirOn (s : Settings) (h : Host) : Path := s.configDir.getD (usualConfigDir h)

def ledgerPath (s : Settings) (h : Host) : Path := (s.dataDirOn h).join "audit.jsonl"

def keyPath (s : Settings) (h : Host) : Path :=
  s.auditKeyPath.getD ((s.configDirOn h).join "audit-ledger.key")

/-- Where the usual directory for data cannot be used, this was found out. -/
def Chosen (s : Settings) (h : Host) : Prop :=
  s.dataDir = none → h.Obstructs (usualDataDir h) → h.Stuck (usualDataDir h)

/-- The directory for configuration is there, if a start asks for it. -/
def Configured (s : Settings) (h : Host) : Prop :=
  s.auditKeyPath = none → h.files.isDirectoryAt h.workingDirectory (s.configDirOn h)

theorem usualDataDir_congr (henv : h'.environment = h.environment) :
    usualDataDir h' = usualDataDir h := by
  simp only [usualDataDir, baseDirectory, homeDirectory, nonempty?, henv]

theorem usualConfigDir_congr (henv : h'.environment = h.environment) :
    usualConfigDir h' = usualConfigDir h := by
  simp only [usualConfigDir, baseDirectory, homeDirectory, nonempty?, henv]

section Changes

variable (s) (hc : Host.Changes files dirs h h')
include hc

theorem dataDirOn_changes : s.dataDirOn h' = s.dataDirOn h := by
  simp only [dataDirOn, usualDataDir_congr hc.environment, hc.obstructs_iff, localDataDir,
    hc.workingDirectory]

theorem ledgerPath_changes : s.ledgerPath h' = s.ledgerPath h := by
  rw [ledgerPath, dataDirOn_changes s hc, ← ledgerPath]

theorem configDirOn_changes : s.configDirOn h' = s.configDirOn h := by
  rw [configDirOn, usualConfigDir_congr hc.environment, ← configDirOn]

theorem keyPath_changes : s.keyPath h' = s.keyPath h := by
  rw [keyPath, configDirOn_changes s hc, ← keyPath]

theorem Chosen.changes (hs : s.Chosen h) : s.Chosen h' := by
  intro hnone ho
  rw [usualDataDir_congr hc.environment] at ho ⊢
  exact (hs hnone (hc.obstructs_iff.1 ho)).changes hc

theorem Configured.changes (hs : s.Configured h) : s.Configured h' := by
  intro hnone
  rw [configDirOn_changes s hc]
  exact hc.isDirectoryAt (hs hnone)

end Changes

/-! ### Finding them -/

theorem touches_chooseDataDir (s : Settings) {base : Place} :
    Touches base files (fun _ => True) s.chooseDataDir := by
  have hmake : ∀ p, Touches base files (fun _ => True) (makeDirectories p) := fun p =>
    (touches_makeDirectories p).mono (fun _ hf => hf) fun _ _ => trivial
  unfold chooseDataDir
  split
  · exact (hmake _).bind fun _ => touches_pure _
  · refine touches_get.bind fun h => ((hmake _).bind fun _ => touches_pure _).tryCatch fun e => ?_
    split
    · exact touches_get.bind fun _ => (hmake _).bind fun _ => (touches_warn _).bind fun _ =>
        touches_pure _
    · exact touches_throw _

/-- Where the usual directory is refused the local one is taken, and the usual one can still not be
used. -/
theorem eq_of_fallback {q : Option Path} {h₁ : Host} {text : String}
    (hmake : runOn (makeDirectories (usualDataDir h)) h = (.error (.storage ⟨.denied, q⟩), h₁))
    (hr : runOn (do makeDirectories (localDataDir h₁); warn text; return localDataDir h₁) h₁ =
      (.ok p, h')) :
    p = localDataDir h ∧ h.Obstructs (usualDataDir h) ∧ h'.Stuck (usualDataDir h') := by
  obtain ⟨_, h₂, hlocal, hr⟩ := runOn_bind_eq_ok.1 hr
  obtain ⟨_, h₃, hwarn, hr⟩ := runOn_bind_eq_ok.1 hr
  cases hr
  have hc : Host.Changes (fun _ => False) _ h h₁ := (touches_makeDirectories _).changes hmake
  have hc₂ : Host.Changes (fun _ => False) _ h₁ h₂ := (touches_makeDirectories _).changes hlocal
  have hc₃ : Host.Changes (fun _ => False) (fun _ => False) h₂ h' := (touches_warn _).changes hwarn
  have hstuck := stuck_of_makeDirectories_go hmake
  refine ⟨?_, hc.obstructs_iff.1 hstuck.obstructs, ?_⟩
  · rw [localDataDir, localDataDir, hc.workingDirectory]
  · rw [usualDataDir_congr hc₃.environment, usualDataDir_congr hc₂.environment,
      usualDataDir_congr hc.environment]
    exact (hstuck.changes hc₂).changes hc₃

theorem eq_of_chooseDataDir (hr : runOn s.chooseDataDir h = (.ok p, h')) :
    p = s.dataDirOn h ∧ s.Chosen h' := by
  rw [chooseDataDir] at hr
  cases hdir : s.dataDir with
  | some dir =>
    rw [hdir] at hr
    obtain ⟨_, h₁, -, hr⟩ := runOn_bind_eq_ok.1 hr
    cases hr
    rw [dataDirOn, hdir, Option.getD_some]
    exact ⟨rfl, fun hnone => by cases hdir.symm.trans hnone⟩
  | none =>
    rw [hdir] at hr
    simp only at hr
    rw [runOn_bind_ok (runOn_get h), runOn_tryCatch, runOn_bind] at hr
    rw [dataDirOn, hdir, Option.getD_none]
    rcases hmake : runOn (makeDirectories (usualDataDir h)) h with ⟨e | _, h₁⟩ <;> rw [hmake] at hr
    · simp only at hr
      split at hr
      · rw [runOn_bind_ok (runOn_get h₁)] at hr
        obtain ⟨rfl, ho, hstuck⟩ := eq_of_fallback hmake hr
        rw [if_pos ho]
        exact ⟨rfl, fun _ _ => hstuck⟩
      · cases hr
    · cases hr
      have hc : Host.Changes (fun _ => False) _ h h' := (touches_makeDirectories _).changes hmake
      have hd := isDirectoryAt_of_makeDirectories hmake
      rw [if_neg fun ho => (hc.obstructs_iff.2 ho).not_isDirectoryAt hd]
      refine ⟨rfl, fun _ ho => ?_⟩
      rw [usualDataDir_congr hc.environment] at ho
      exact absurd hd ho.not_isDirectoryAt

/-- A later start finds the same directory for data, though it may be told again that the usual one
is refused, or it fails and changes nothing. -/
theorem chooseDataDir_again (hchosen : s.Chosen h)
    (hd : h.files.isDirectoryAt h.workingDirectory (s.dataDirOn h)) :
    (∃ warnings, runOn s.chooseDataDir h = (.ok (s.dataDirOn h), { h with warnings })) ∨
      ∃ e, runOn s.chooseDataDir h = (.error e, h) := by
  have hmake := runOn_makeDirectories hd
  rw [chooseDataDir]
  cases hdir : s.dataDir with
  | some dir =>
    rw [dataDirOn, hdir, Option.getD_some] at hmake ⊢
    exact .inl ⟨h.warnings, runOn_bind_ok hmake⟩
  | none =>
    rw [dataDirOn, hdir, Option.getD_none] at hmake ⊢
    simp only
    rw [runOn_bind_ok (runOn_get h), runOn_tryCatch]
    by_cases ho : h.Obstructs (usualDataDir h)
    · rw [if_pos ho] at hmake ⊢
      obtain ⟨e, husual⟩ := makeDirectories_of_stuck (hchosen hdir ho) (usualDataDir h).parts.length
      have husual : runOn (makeDirectories (usualDataDir h)) h = (.error e, h) := husual
      rw [runOn_bind_error husual]
      simp only
      split
      · refine .inl ?_
        rw [runOn_bind_ok (runOn_get h), runOn_bind_ok hmake]
        exact ⟨_, rfl⟩
      · exact .inr ⟨_, rfl⟩
    · rw [if_neg ho] at hmake ⊢
      rw [runOn_bind_ok hmake]
      exact .inl ⟨h.warnings, rfl⟩

/-- The file of the key of the ledger. The directory it lies in is made. -/
def findKey (s : Settings) : Action Path :=
  match s.auditKeyPath with
  | some p => pure p
  | none => do return (← s.getConfigDir).join "audit-ledger.key"

theorem getAuditKey_eq (s : Settings) :
    s.getAuditKey = s.findKey >>= fun p => loadOrCreateKey p 32 := by
  unfold getAuditKey findKey
  cases s.auditKeyPath with
  | some p => rfl
  | none => simp only [bind_assoc, pure_bind]

theorem touches_findKey (s : Settings) {base : Place} :
    Touches base files (fun _ => True) s.findKey := by
  unfold findKey
  split
  · exact touches_pure _
  · have hconfig : Touches base files (fun _ => True) s.getConfigDir :=
      touches_get.bind fun _ => ((touches_makeDirectories _).mono (fun _ hf => hf)
        fun _ _ => trivial).bind fun _ => touches_pure _
    exact hconfig.bind fun _ => touches_pure _

theorem eq_of_findKey (hr : runOn s.findKey h = (.ok p, h')) :
    p = s.keyPath h ∧ s.Configured h' := by
  rw [findKey] at hr
  cases hkey : s.auditKeyPath with
  | some q =>
    rw [hkey] at hr
    cases hr
    rw [keyPath, hkey, Option.getD_some]
    exact ⟨rfl, fun hnone => by cases hkey.symm.trans hnone⟩
  | none =>
    rw [hkey] at hr
    simp only at hr
    obtain ⟨dir, h₁, hconfig, hr⟩ := runOn_bind_eq_ok.1 hr
    cases hr
    rw [getConfigDir, runOn_bind_ok (runOn_get h)] at hconfig
    obtain ⟨_, h₂, hmake, hconfig⟩ := runOn_bind_eq_ok.1 hconfig
    cases hconfig
    have hmake : runOn (makeDirectories (s.configDirOn h)) h = (.ok (), h') := hmake
    have hc : Host.Changes (fun _ => False) _ h h' := (touches_makeDirectories _).changes hmake
    rw [keyPath, hkey, Option.getD_none]
    refine ⟨rfl, fun _ => ?_⟩
    rw [configDirOn_changes s hc]
    exact isDirectoryAt_of_makeDirectories hmake

theorem Configured.findKey (hs : s.Configured h) : runOn s.findKey h = (.ok (s.keyPath h), h) := by
  rw [Settings.findKey, keyPath]
  cases hkey : s.auditKeyPath with
  | some q => rfl
  | none =>
    have hconfig : runOn s.getConfigDir h = (.ok (s.configDirOn h), h) := by
      rw [getConfigDir, runOn_bind_ok (runOn_get h)]
      exact runOn_bind_ok (runOn_makeDirectories (hs hkey))
    exact runOn_bind_ok hconfig

end Settings

end UpdateSeal
