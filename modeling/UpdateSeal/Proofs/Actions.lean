import Mathlib.Data.List.Forall2
import UpdateSeal.Host

/-!
# Running actions

An action is run on a host and gives its answer and the host it leaves. Most actions only look at
files and log what they do: they answer the same whatever was logged before, and leave all but the
log as it was. `Answers` states this, and it composes along binds, so that the answer of a long
action is found from the answers of its parts.
-/

namespace UpdateSeal.Action

variable {α β : Type}

/-- The answer of an action on a host, and the host it leaves. -/
def runOn (x : Action α) (h : Host) : Except Failure α × Host := x.run h

theorem runOn_pure (a : α) (h : Host) : runOn (pure a) h = (.ok a, h) := rfl

theorem runOn_throw (e : Failure) (h : Host) : runOn (throw e : Action α) h = (.error e, h) := rfl

theorem runOn_get (h : Host) : runOn get h = (.ok h, h) := rfl

theorem runOn_bind (x : Action α) (f : α → Action β) (h : Host) :
    runOn (x >>= f) h =
      match runOn x h with
      | (.ok a, h') => runOn (f a) h'
      | (.error e, h') => (.error e, h') := by
  simp only [runOn, ExceptT.run, bind, ExceptT.bind, ExceptT.mk, StateT.bind, ExceptT.bindCont]
  rcases x h with ⟨e | a, h'⟩ <;> rfl

theorem runOn_tryCatch (x : Action α) (handle : Failure → Action α) (h : Host) :
    runOn (tryCatch x handle) h =
      match runOn x h with
      | (.ok a, h') => (.ok a, h')
      | (.error e, h') => runOn (handle e) h' := by
  simp only [runOn, ExceptT.run, tryCatch, tryCatchThe, MonadExceptOf.tryCatch, ExceptT.tryCatch,
    ExceptT.mk, bind, StateT.bind]
  rcases x h with ⟨e | a, h'⟩ <;> rfl

theorem runOn_bind_ok {x : Action α} {f : α → Action β} {h h' : Host} {a : α}
    (hx : runOn x h = (.ok a, h')) : runOn (x >>= f) h = runOn (f a) h' := by
  rw [runOn_bind, hx]

theorem runOn_bind_error {x : Action α} {f : α → Action β} {h h' : Host} {e : Failure}
    (hx : runOn x h = (.error e, h')) : runOn (x >>= f) h = (.error e, h') := by
  rw [runOn_bind, hx]

theorem runOn_bind_eq_ok {x : Action α} {f : α → Action β} {h h'' : Host} {b : β} :
    runOn (x >>= f) h = (.ok b, h'') ↔
      ∃ a h', runOn x h = (.ok a, h') ∧ runOn (f a) h' = (.ok b, h'') := by
  rw [runOn_bind]
  rcases runOn x h with ⟨e | a, h'⟩
  · simp
  · exact ⟨fun hf => ⟨a, h', rfl, hf⟩, by rintro ⟨_, _, ⟨⟩, hf⟩; exact hf⟩

theorem runOn_bind_eq_error {x : Action α} {f : α → Action β} {h h'' : Host} {e : Failure} :
    runOn (x >>= f) h = (.error e, h'') ↔
      runOn x h = (.error e, h'') ∨
        ∃ a h', runOn x h = (.ok a, h') ∧ runOn (f a) h' = (.error e, h'') := by
  rw [runOn_bind]
  rcases runOn x h with ⟨e' | a, h'⟩
  · simp
  · constructor
    · intro hf
      exact .inr ⟨a, h', rfl, hf⟩
    · intro hf
      obtain hx | ⟨_, _, ⟨⟩, hf⟩ := hf
      · cases hx
      · exact hf

theorem runOn_record (level : LogLevel) (text : String) (h : Host) :
    runOn (record level text) h = (.ok (), { h with log := (level, text) :: h.log }) := rfl

theorem runOn_liftExcept_eq_ok {ε : Type} {wrap : ε → Failure} {r : Except ε α} {a : α}
    {h h' : Host} : runOn (liftExcept wrap r) h = (.ok a, h') ↔ r = .ok a ∧ h' = h := by
  cases r with
  | ok a' =>
    show (Except.ok a', h) = (Except.ok a, h') ↔ _
    simp only [Prod.mk.injEq, Except.ok.injEq, eq_comm (a := h)]
  | error e =>
    show (Except.error (wrap e), h) = (Except.ok a, h') ↔ _
    simp

theorem runOn_liftExcept_bind_eq_ok {ε : Type} {wrap : ε → Failure} {r : Except ε α}
    {f : α → Action β} {b : β} {h h' : Host} :
    runOn (liftExcept wrap r >>= f) h = (.ok b, h') ↔
      ∃ a, r = .ok a ∧ runOn (f a) h = (.ok b, h') := by
  simp only [runOn_bind_eq_ok, runOn_liftExcept_eq_ok]
  constructor
  · intro hf
    obtain ⟨a, _, ⟨hr, rfl⟩, hf⟩ := hf
    exact ⟨a, hr, hf⟩
  · intro hf
    obtain ⟨a, hr, hf⟩ := hf
    exact ⟨a, h, ⟨hr, rfl⟩, hf⟩

/-! ### Actions that change nothing but the log -/

/-- Whatever was logged before, `x` answers `r` and leaves all but the log as it was. -/
def Answers (x : Action α) (h : Host) (r : Except Failure α) : Prop :=
  ∀ log, ∃ log', runOn x { h with log } = (r, { h with log := log' })

theorem Answers.runOn {x : Action α} {h : Host} {r : Except Failure α} (hx : Answers x h r) :
    ∃ log, runOn x h = (r, { h with log }) := hx h.log

theorem Answers.unique {x : Action α} {h : Host} {r r' : Except Failure α}
    (hx : Answers x h r) (hx' : Answers x h r') : r = r' := by
  obtain ⟨log, hr⟩ := hx.runOn
  obtain ⟨log', hr'⟩ := hx'.runOn
  exact congrArg Prod.fst (hr.symm.trans hr')

theorem answers_pure (a : α) (h : Host) : Answers (pure a) h (.ok a) := fun log => ⟨log, rfl⟩

theorem answers_throw (e : Failure) (h : Host) : Answers (throw e : Action α) h (.error e) :=
  fun log => ⟨log, rfl⟩

theorem answers_record (level : LogLevel) (text : String) (h : Host) :
    Answers (record level text) h (.ok ()) :=
  fun log => ⟨(level, text) :: log, rfl⟩

theorem answers_liftExcept {ε : Type} (wrap : ε → Failure) (r : Except ε α) (h : Host) :
    Answers (liftExcept wrap r) h (r.mapError wrap) := by
  cases r with
  | ok a => exact answers_pure a h
  | error e => exact answers_throw (wrap e) h

theorem answers_liftExcept_ok {ε : Type} {wrap : ε → Failure} {r : Except ε α} {a : α}
    (hr : r = .ok a) (h : Host) : Answers (liftExcept wrap r) h (.ok a) :=
  hr ▸ answers_liftExcept wrap (.ok a) h

theorem answers_liftExcept_error {ε : Type} {wrap : ε → Failure} {r : Except ε α} {e : ε}
    (hr : r = .error e) (h : Host) : Answers (liftExcept wrap r) h (.error (wrap e)) :=
  hr ▸ answers_liftExcept wrap (.error e) h

theorem Answers.bind {x : Action α} {f : α → Action β} {h : Host} {a : α} {r : Except Failure β}
    (hx : Answers x h (.ok a)) (hf : Answers (f a) h r) : Answers (x >>= f) h r := by
  intro log
  obtain ⟨log', hx⟩ := hx log
  obtain ⟨log'', hf⟩ := hf log'
  exact ⟨log'', (runOn_bind_ok hx).trans hf⟩

theorem Answers.bind_error {x : Action α} {f : α → Action β} {h : Host} {e : Failure}
    (hx : Answers x h (.error e)) : Answers (x >>= f) h (.error e) := by
  intro log
  obtain ⟨log', hx⟩ := hx log
  exact ⟨log', runOn_bind_error hx⟩

theorem Answers.bind_of_ok {x : Action α} {f : α → Action β} {h : Host} {r : Except Failure α}
    {g : α → Except Failure β} (hx : Answers x h r) (hf : ∀ a, r = .ok a → Answers (f a) h (g a)) :
    Answers (x >>= f) h (r >>= g) := by
  cases r with
  | error e => exact hx.bind_error
  | ok a => exact hx.bind (hf a rfl)

theorem Answers.eq_of_runOn {x : Action α} {h h' : Host} {r r' : Except Failure α}
    (hx : Answers x h r) (hr : Action.runOn x h = (r', h')) : r = r' := by
  obtain ⟨log, hr'⟩ := hx.runOn
  exact congrArg Prod.fst (hr'.symm.trans hr)

theorem Answers.tryCatch_ok {x : Action α} {handle : Failure → Action α} {h : Host} {a : α}
    (hx : Answers x h (.ok a)) : Answers (tryCatch x handle) h (.ok a) := by
  intro log
  obtain ⟨log', hx⟩ := hx log
  exact ⟨log', by rw [runOn_tryCatch, hx]⟩

theorem Answers.tryCatch_error {x : Action α} {handle : Failure → Action α} {h : Host}
    {e : Failure} {r : Except Failure α} (hx : Answers x h (.error e))
    (hr : Answers (handle e) h r) : Answers (tryCatch x handle) h r := by
  intro log
  obtain ⟨log', hx⟩ := hx log
  obtain ⟨log'', hr⟩ := hr log'
  exact ⟨log'', by rw [runOn_tryCatch, hx]; exact hr⟩

theorem answers_mapM {f : α → Action β} {h : Host} {as : List α} {bs : List β}
    (hf : List.Forall₂ (fun a b => Answers (f a) h (.ok b)) as bs) :
    Answers (as.mapM f) h (.ok bs) := by
  induction hf with
  | nil => simpa using answers_pure [] h
  | cons ha _ ih =>
    rw [List.mapM_cons]
    exact ha.bind (ih.bind (answers_pure _ h))

/-! ### Actions that return -/

/-- Whatever was logged before, `x` returns `a` and leaves `h'` but for the log. -/
def Returns (x : Action α) (h : Host) (a : α) (h' : Host) : Prop :=
  ∀ log, ∃ log', runOn x { h with log } = (.ok a, { h' with log := log' })

theorem Answers.returns {x : Action α} {h : Host} {a : α} (hx : Answers x h (.ok a)) :
    Returns x h a h := hx

theorem Returns.runOn {x : Action α} {h h' : Host} {a : α} (hx : Returns x h a h') :
    ∃ log, runOn x h = (.ok a, { h' with log }) := hx h.log

theorem Returns.bind {x : Action α} {f : α → Action β} {h h' h'' : Host} {a : α} {b : β}
    (hx : Returns x h a h') (hf : Returns (f a) h' b h'') : Returns (x >>= f) h b h'' := by
  intro log
  obtain ⟨log', hx⟩ := hx log
  obtain ⟨log'', hf⟩ := hf log'
  exact ⟨log'', (runOn_bind_ok hx).trans hf⟩

end UpdateSeal.Action
