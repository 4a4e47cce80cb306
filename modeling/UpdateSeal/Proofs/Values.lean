import UpdateSeal.Json.Reader
import UpdateSeal.Proofs.Floats
import UpdateSeal.Proofs.Numerals
import UpdateSeal.Proofs.Strings

/-!
# Values are read back

The reader goes through what was written one value at a time, so it ends with the value that was
written. Two things are lost: a number that is not finite is written as `null`, and a style that
sorts gives the members in the order of their names.
-/

namespace UpdateSeal.Json

variable {rules : Rules} {style : Style}

/-! ### Members in order -/

section Order

variable {α β : Type} {p : String × α} {ps qs : List (String × α)}

/-- Members in the order in which they are written. -/
def Style.arrange (style : Style) (ps : List (String × α)) : List (String × α) :=
  if style.sorted then sortByName ps else ps

theorem insertByName_perm (p : String × α) (qs : List (String × α)) :
    (insertByName p qs).Perm (p :: qs) := by
  induction qs with
  | nil => exact .refl _
  | cons q qs ih =>
    rw [insertByName]
    split
    · exact .refl _
    · exact (ih.cons q).trans (.swap p q qs)

theorem sortByName_perm (ps : List (String × α)) : (sortByName ps).Perm ps := by
  have hfold : ∀ qs : List (String × α),
      (ps.foldl (fun sorted p => insertByName p sorted) qs).Perm (ps ++ qs) := by
    induction ps with
    | nil => exact fun qs => .refl qs
    | cons p ps ih =>
      intro qs
      exact ((ih _).trans ((insertByName_perm p qs).append_left ps)).trans List.perm_middle
  have hperm := hfold []
  rwa [List.append_nil] at hperm

theorem Style.arrange_perm (style : Style) (ps : List (String × α)) :
    (style.arrange ps).Perm ps := by
  unfold arrange
  split
  · exact sortByName_perm ps
  · exact .refl ps

theorem Style.arrange_nil (style : Style) : style.arrange ([] : List (String × α)) = [] :=
  (style.arrange_perm []).eq_nil

theorem insertByName_map (f : α → β) (p : String × α) (qs : List (String × α)) :
    insertByName (p.1, f p.2) (qs.map fun q => (q.1, f q.2)) =
      (insertByName p qs).map fun q => (q.1, f q.2) := by
  induction qs with
  | nil => rfl
  | cons q qs ih =>
    rw [List.map_cons, insertByName, insertByName, ih]
    split <;> rfl

theorem Style.arrange_map (style : Style) (f : α → β) (ps : List (String × α)) :
    style.arrange (ps.map fun p => (p.1, f p.2)) =
      (style.arrange ps).map fun p => (p.1, f p.2) := by
  have hfold : ∀ qs : List (String × α),
      (ps.map fun p => (p.1, f p.2)).foldl (fun sorted p => insertByName p sorted)
          (qs.map fun p => (p.1, f p.2)) =
        (ps.foldl (fun sorted p => insertByName p sorted) qs).map fun p => (p.1, f p.2) := by
    induction ps with
    | nil => exact fun qs => rfl
    | cons p ps ih =>
      intro qs
      rw [List.map_cons, List.foldl_cons, List.foldl_cons, insertByName_map, ih]
  unfold arrange
  split
  · exact hfold []
  · rfl

end Order

theorem Members.insert_of_notMem {name : String} {ms : Members} (v : Value)
    (h : name ∉ ms.map (·.1)) : ms.insert name v = ms ++ [(name, v)] := by
  induction ms with
  | nil => rfl
  | cons m ms ih =>
    rw [List.map_cons, List.mem_cons, not_or] at h
    rw [insert, if_neg (Ne.symm h.1), ih h.2, List.cons_append]

theorem Members.ofPairs_of_nodup {ms : Members} (h : (ms.map (·.1)).Nodup) :
    Members.ofPairs ms = ms := by
  have hfold : ∀ done : Members, ((done ++ ms).map (·.1)).Nodup →
      ms.foldl (fun ms p => insert p.1 p.2 ms) done = done ++ ms := by
    induction ms with
    | nil => simp
    | cons m ms ih =>
      intro done hdone
      have hnew : m.1 ∉ done.map (·.1) := by
        rw [List.map_append, List.map_cons] at hdone
        intro hmem
        exact (List.nodup_append.1 hdone).2.2 m.1 hmem m.1 List.mem_cons_self rfl
      rw [List.foldl_cons, insert_of_notMem m.2 hnew, ih (List.nodup_cons.1 h).2, List.append_assoc,
        List.singleton_append]
      rwa [List.append_assoc, List.singleton_append]
  exact hfold [] h

/-! ### Stored values -/

mutual

def Value.stored (style : Style) : Value → Value
  | .float (.finite negative code) => .float (.finite negative code)
  | .float _ => .null
  | .arr items => .arr (storedItems style items)
  | .obj ms => .obj (style.arrange (storedMembers style ms))
  | v => v

def Value.storedItems (style : Style) : List Value → List Value
  | [] => []
  | v :: vs => v.stored style :: storedItems style vs

def Value.storedMembers (style : Style) : Members → Members
  | [] => []
  | (name, v) :: ms => (name, v.stored style) :: storedMembers style ms

end

theorem Value.storedItems_eq (items : List Value) :
    storedItems style items = items.map (stored style) := by
  induction items with
  | nil => rfl
  | cons v vs ih => rw [storedItems, ih, List.map_cons]

theorem Value.storedMembers_eq (ms : Members) :
    storedMembers style ms = ms.map fun m => (m.1, m.2.stored style) := by
  induction ms with
  | nil => rfl
  | cons m ms ih => rw [storedMembers, ih, List.map_cons]

theorem writeItems_eq (items : List Value) : writeItems style items = items.map (write style) := by
  induction items with
  | nil => rfl
  | cons v vs ih => rw [writeItems, ih, List.map_cons]

theorem writeMembers_eq (ms : Members) :
    writeMembers style ms = ms.map fun m => (m.1, write style m.2) := by
  induction ms with
  | nil => rfl
  | cons m ms ih => rw [writeMembers, ih, List.map_cons]

theorem Value.stored_obj (ms : Members) :
    (Value.obj ms).stored style =
      .obj ((style.arrange ms).map fun m => (m.1, m.2.stored style)) := by
  rw [stored, storedMembers_eq, Style.arrange_map]

def memberText (style : Style) (m : String × Value) : List Char :=
  writeString style.ascii m.1 ++ ':' :: write style m.2

theorem write_obj (ms : Members) :
    write style (.obj ms) = braced ((style.arrange ms).map (memberText style)) := by
  have harrange := style.arrange_map (write style) ms
  rw [write, joinMembers, writeMembers_eq]
  show braced ((style.arrange (ms.map fun m => (m.1, write style m.2))).map _) = _
  rw [harrange, List.map_map]
  rfl

/-- Induction through arrays and objects. -/
@[elab_as_elim]
theorem Value.induct {P : Value → Prop} (null : P .null) (bool : ∀ b, P (.bool b))
    (int : ∀ n, P (.int n)) (float : ∀ x, P (.float x)) (str : ∀ s, P (.str s))
    (arr : ∀ items, (∀ v ∈ items, P v) → P (.arr items))
    (obj : ∀ ms : Members, (∀ m ∈ ms, P m.2) → P (.obj ms)) (v : Value) : P v :=
  match v with
  | .null => null
  | .bool b => bool b
  | .int n => int n
  | .float x => float x
  | .str s => str s
  | .arr items => arr items fun v hv =>
    have := List.sizeOf_lt_of_mem hv
    induct null bool int float str arr obj v
  | .obj ms => obj ms fun m hm =>
    have := List.sizeOf_lt_of_mem hm
    induct null bool int float str arr obj m.2
termination_by sizeOf v
decreasing_by
  · simp only [Value.arr.sizeOf_spec]
    omega
  · have hmember : sizeOf m = 1 + sizeOf m.1 + sizeOf m.2 := rfl
    simp only [Value.obj.sizeOf_spec]
    omega

/-- A value that nests at most so deep, names each member of an object once, and has no longer whole
numbers than are read. Empty arrays and objects do not count as nested. -/
inductive Value.Storable : ℕ → Value → Prop where
  | null (n : ℕ) : Storable n .null
  | bool (n : ℕ) (b : Bool) : Storable n (.bool b)
  | int (n : ℕ) {k : ℤ} (hk : Json.Bounded k) : Storable n (.int k)
  | float (n : ℕ) (x : Decimal.Binary64) : Storable n (.float x)
  | str (n : ℕ) (s : String) : Storable n (.str s)
  | arr {n : ℕ} {items : List Value} (hnest : n = 0 → items = [])
    (hitems : ∀ v ∈ items, Storable (n - 1) v) : Storable n (.arr items)
  | obj {n : ℕ} {ms : Members} (hnest : n = 0 → ms = []) (hnames : (ms.map (·.1)).Nodup)
    (hms : ∀ m ∈ ms, Storable (n - 1) m.2) : Storable n (.obj ms)

theorem Value.storable_empty (n : ℕ) : (Value.obj []).Storable n :=
  .obj (fun _ => rfl) List.nodup_nil (List.forall_mem_nil _)

theorem Value.storable_obj_iff {n : ℕ} {ms : Members} :
    (Value.obj ms).Storable (n + 1) ↔ (ms.map (·.1)).Nodup ∧ ∀ m ∈ ms, m.2.Storable n := by
  constructor
  · intro h
    cases h with
    | obj _ hnames hms => exact ⟨hnames, hms⟩
  · intro h
    exact .obj nofun h.1 h.2

/-! ### Reading -/

/-- The reader's state behind a text, from a given state on. -/
def advance (rules : Rules) (s : State) (text : List Char) : Except Fault State :=
  (tokens rules text).foldlM (State.step rules) s

theorem advance_of_tokens {s s' : State} {t : Token} {text rest : List Char}
    (ht : tokens rules text = t :: tokens rules rest) (hs : State.step rules s t = .ok s') :
    advance rules s text = advance rules s' rest := by
  rw [advance, ht, List.foldlM_cons, hs]
  rfl

/-- A value may come next, inside the given arrays and objects. -/
def State.Expects (rules : Rules) (s : State) (outer : List Pending) : Prop :=
  ∀ t, t ≠ .closeArray → step rules s t = startValue outer t

theorem State.expects_value (outer : List Pending) : Expects rules (.value outer) outer :=
  fun _ _ => rfl

theorem State.step_firstItem {outer : List Pending} {t : Token} (ht : t ≠ .closeArray) :
    step rules (.firstItem outer) t =
      if mayNest rules outer then startValue (.items [] :: outer) t else .error .malformed := by
  cases t <;> first | rfl | exact absurd rfl ht

theorem State.step_firstName (outer : List Pending) (name : String) :
    step rules (.firstName outer) (.str name) =
      if mayNest rules outer then .ok (.nameColon [] name outer) else .error .malformed := rfl

theorem State.expects_firstItem {outer : List Pending} (hnest : mayNest rules outer) :
    Expects rules (.firstItem outer) (.items [] :: outer) :=
  fun _ ht => (step_firstItem ht).trans (if_pos hnest)

/-- So many more arrays and objects may be opened and hold something. -/
def HasDepth (rules : Rules) (outer : List Pending) (n : ℕ) : Prop :=
  ∀ limit, rules.nesting = some limit → outer.length + n ≤ limit

theorem HasDepth.mayNest {outer : List Pending} {n : ℕ} (h : HasDepth rules outer (n + 1)) :
    mayNest rules outer := by
  unfold Json.mayNest
  split
  · next limit hlimit =>
    have := h limit hlimit
    exact decide_eq_true (by omega)
  · rfl

theorem HasDepth.cons {outer : List Pending} {n : ℕ} (h : HasDepth rules outer (n + 1))
    (p : Pending) : HasDepth rules (p :: outer) n := by
  intro limit hlimit
  have := h limit hlimit
  rw [List.length_cons]
  omega

theorem hasDepth_strict {n : ℕ} (hn : n ≤ 200) : HasDepth strict [] n := by
  intro limit hlimit
  cases hlimit
  simpa using hn

/-- The reader goes from the text of `v` to the value that it stores. -/
def ReadsBack (rules : Rules) (style : Style) (n : ℕ) (v : Value) : Prop :=
  ∀ {s : State} {outer : List Pending} {c : Char} (rest : List Char), s.Expects rules outer →
    HasDepth rules outer n → endsNumber c →
      advance rules s (write style v ++ c :: rest) =
        advance rules (.after (v.stored style) outer) (c :: rest)

variable {outer : List Pending} {n : ℕ} {s s' : State} {c : Char}

theorem State.Expects.advance {t : Token} {text rest : List Char} (hs : s.Expects rules outer)
    (ht : tokens rules text = t :: tokens rules rest) (hne : t ≠ .closeArray)
    (hstart : State.startValue outer t = .ok s') :
    Json.advance rules s text = Json.advance rules s' rest :=
  advance_of_tokens ht ((hs t hne).trans hstart)

theorem advance_items {v : Value} {vs : List Value}
    (hvs : ∀ w ∈ v :: vs, ReadsBack rules style n w) {done : List Value}
    (hs : s.Expects rules (.items done :: outer)) (hdepth : HasDepth rules outer (n + 1))
    (rest : List Char) :
    advance rules s (commaSeparated ((v :: vs).map (write style)) ++ ']' :: rest) =
      advance rules (.after (.arr (done.reverse ++ (v :: vs).map (Value.stored style))) outer)
        rest := by
  have hv : ReadsBack rules style n v := hvs v List.mem_cons_self
  induction vs generalizing v done s with
  | nil =>
    rw [List.map_singleton, commaSeparated, hv rest hs (hdepth.cons _) rfl,
      advance_of_tokens (tokens_closeArray _) rfl, List.reverse_cons, List.map_singleton]
  | cons w vs ih =>
    have hvs' : ∀ x ∈ w :: vs, ReadsBack rules style n x := fun x hx =>
      hvs x (List.mem_cons_of_mem v hx)
    have hrest := @ih _ _ hvs' (v.stored style :: done) (State.expects_value _)
      (hvs' w List.mem_cons_self)
    rw [List.reverse_cons, List.append_assoc, List.singleton_append, ← List.map_cons] at hrest
    rw [List.map_cons, List.map_cons, commaSeparated, List.append_assoc, List.cons_append,
      hv _ hs (hdepth.cons _) rfl, advance_of_tokens (tokens_comma _) rfl]
    · exact hrest
    · simp

theorem advance_member {m : String × Value} (hm : ReadsBack rules style n m.2)
    (hdepth : HasDepth rules outer (n + 1)) {done : Members} (hc : endsNumber c)
    (rest : List Char) :
    advance rules (.nextName done outer) (memberText style m ++ c :: rest) =
      advance rules (.after (m.2.stored style) (.member done m.1 :: outer)) (c :: rest) := by
  rw [memberText, List.append_assoc, List.cons_append,
    advance_of_tokens (tokens_writeString style.ascii m.1 _) rfl,
    advance_of_tokens (tokens_colon _) rfl,
    hm rest (State.expects_value _) (hdepth.cons _) hc]

theorem advance_members {m : String × Value} {ms : Members}
    (hms : ∀ p ∈ m :: ms, ReadsBack rules style n p.2) {done : Members}
    (hdepth : HasDepth rules outer (n + 1)) (rest : List Char) :
    advance rules (.nextName done outer)
        (commaSeparated ((m :: ms).map (memberText style)) ++ '\x7d' :: rest) =
      advance rules (.after (.obj (Members.ofPairs
        (done.reverse ++ (m :: ms).map fun p => (p.1, p.2.stored style)))) outer) rest := by
  have hm : ReadsBack rules style n m.2 := hms m List.mem_cons_self
  induction ms generalizing m done with
  | nil =>
    rw [List.map_singleton, commaSeparated, advance_member hm hdepth rfl,
      advance_of_tokens (tokens_closeObject _) rfl, List.reverse_cons, List.map_singleton]
  | cons p ms ih =>
    have hms' : ∀ q ∈ p :: ms, ReadsBack rules style n q.2 := fun q hq =>
      hms q (List.mem_cons_of_mem m hq)
    have hrest := @ih _ hms' ((m.1, m.2.stored style) :: done) (hms' p List.mem_cons_self)
    rw [List.reverse_cons, List.append_assoc, List.singleton_append] at hrest
    rw [List.map_cons, List.map_cons, commaSeparated, List.append_assoc, List.cons_append,
      advance_member hm hdepth rfl, advance_of_tokens (tokens_comma _) rfl]
    · exact hrest
    · simp

theorem commaSeparated_cons (t : List Char) (ts : List (List Char)) :
    ∃ tail, commaSeparated (t :: ts) = t ++ tail := by
  cases ts with
  | nil => exact ⟨[], by simp [commaSeparated]⟩
  | cons t' ts => exact ⟨_, by rw [commaSeparated]; simp⟩

theorem advance_firstName (hnest : mayNest rules outer) (m : String × Value) (ms : Members)
    (rest : List Char) :
    advance rules (.firstName outer) (commaSeparated ((m :: ms).map (memberText style)) ++ rest) =
      advance rules (.nextName [] outer)
        (commaSeparated ((m :: ms).map (memberText style)) ++ rest) := by
  obtain ⟨tail, htail⟩ := commaSeparated_cons (memberText style m) (ms.map (memberText style))
  rw [List.map_cons, htail, memberText, List.append_assoc, List.append_assoc,
    advance_of_tokens (tokens_writeString style.ascii m.1 _)
      ((State.step_firstName outer m.1).trans (if_pos hnest)),
    advance_of_tokens (tokens_writeString style.ascii m.1 _) rfl]

theorem bracketed_append (ts : List (List Char)) (rest : List Char) :
    bracketed ts ++ rest = '[' :: (commaSeparated ts ++ ']' :: rest) := by
  simp [bracketed]

theorem braced_append (ts : List (List Char)) (rest : List Char) :
    braced ts ++ rest = '\x7b' :: (commaSeparated ts ++ '\x7d' :: rest) := by
  simp [braced]

theorem advance_array {items : List Value} (hnest : n = 0 → items = [])
    (hitems : ∀ v ∈ items, ReadsBack rules style (n - 1) v) (hs : s.Expects rules outer)
    (hdepth : HasDepth rules outer n) (rest : List Char) :
    advance rules s (write style (.arr items) ++ rest) =
      advance rules (.after ((Value.arr items).stored style) outer) rest := by
  rw [write, writeItems_eq, Value.stored, Value.storedItems_eq, bracketed_append,
    hs.advance (tokens_openArray _) (by simp) rfl]
  cases items with
  | nil =>
    exact advance_of_tokens (tokens_closeArray _) rfl
  | cons v vs =>
    obtain ⟨k, rfl⟩ := Nat.exists_eq_succ_of_ne_zero fun hn => List.cons_ne_nil v vs (hnest hn)
    exact advance_items hitems (State.expects_firstItem hdepth.mayNest) hdepth rest

theorem advance_object {ms : Members} (hnest : n = 0 → ms = []) (hnames : (ms.map (·.1)).Nodup)
    (hms : ∀ m ∈ ms, ReadsBack rules style (n - 1) m.2) (hs : s.Expects rules outer)
    (hdepth : HasDepth rules outer n) (rest : List Char) :
    advance rules s (write style (.obj ms) ++ rest) =
      advance rules (.after ((Value.obj ms).stored style) outer) rest := by
  have hperm := style.arrange_perm ms
  have hnames' := (hperm.map (·.1)).nodup_iff.2 hnames
  have hms' : ∀ m ∈ style.arrange ms, ReadsBack rules style (n - 1) m.2 := fun m hm =>
    hms m (hperm.mem_iff.1 hm)
  have hnest' : n = 0 → style.arrange ms = [] := fun hn => by
    rw [hnest hn, style.arrange_nil]
  rw [write_obj, Value.stored_obj, braced_append, hs.advance (tokens_openObject _) (by simp) rfl]
  -- from here on only the order that the members are written in matters
  generalize style.arrange ms = ms at hnames' hms' hnest'
  cases ms with
  | nil => exact advance_of_tokens (tokens_closeObject _) rfl
  | cons m ms =>
    obtain ⟨k, rfl⟩ := Nat.exists_eq_succ_of_ne_zero fun hn => List.cons_ne_nil m ms (hnest' hn)
    have hstored :
        ((m :: ms).map fun p => (p.1, p.2.stored style)).map (·.1) = (m :: ms).map (·.1) := by
      rw [List.map_map]
      rfl
    rw [advance_firstName hdepth.mayNest, advance_members hms' hdepth, List.reverse_nil, List.nil_append,
      Members.ofPairs_of_nodup (hstored ▸ hnames')]

theorem readsBack {v : Value} (hv : v.Storable n) : ReadsBack rules style n v := by
  -- only numbers need the character behind them to see where they end
  induction hv with
  | null n => exact fun rest hs _ _ => hs.advance (tokens_null _) (by simp) rfl
  | bool n b =>
    cases b with
    | true => exact fun rest hs _ _ => hs.advance (tokens_true _) (by simp) rfl
    | false => exact fun rest hs _ _ => hs.advance (tokens_false _) (by simp) rfl
  | int n hk => exact fun rest hs _ hc => hs.advance (tokens_writeInt hk hc) (by simp) rfl
  | float n x =>
    cases x with
    | finite negative code =>
      exact fun rest hs _ hc => hs.advance (tokens_writeFinite _ negative code hc) (by simp) rfl
    | infinite => exact fun rest hs _ _ => hs.advance (tokens_null _) (by simp) rfl
    | nan => exact fun rest hs _ _ => hs.advance (tokens_null _) (by simp) rfl
  | str n s => exact fun rest hs _ _ => hs.advance (tokens_writeString _ s _) (by simp) rfl
  | @arr n items hnest _ ih => exact fun rest hs hdepth _ => advance_array hnest ih hs hdepth _
  | @obj n ms hnest hnames _ ih =>
    exact fun rest hs hdepth _ => advance_object hnest hnames ih hs hdepth _

theorem read_of_advance {text : List Char} {v : Value}
    (h : advance rules (.value []) text = advance rules (.after v []) []) :
    read rules text = .ok v := by
  rw [advance] at h
  rw [read, h]
  simp [advance, tokens, pure, Except.pure, bind, Except.bind]

theorem read_write_obj {ms : Members} (hms : (Value.obj ms).Storable n)
    (hdepth : HasDepth rules [] n) :
    read rules (write style (.obj ms)) = .ok ((Value.obj ms).stored style) := by
  cases hms with
  | obj hnest hnames hms =>
    have hback : ∀ m ∈ ms, ReadsBack rules style (n - 1) m.2 := fun m hm => readsBack (hms m hm)
    have hadvance := advance_object hnest hnames hback (State.expects_value []) hdepth []
    rw [List.append_nil] at hadvance
    exact read_of_advance hadvance

/-! ### Readers without a limit -/

theorem tokens_unlimited (rules : Rules) (text : List Char) :
    tokens { rules with nesting := none } text = tokens rules text := by
  have hlex : ∀ c rest, lex { rules with nesting := none } c rest = lex rules c rest :=
    fun _ _ => rfl
  induction text using tokens.induct rules with
  | case1 => simp [tokens]
  | case2 c rest hblank ih => simp [tokens, hblank, ih]
  | case3 c rest hblank n ht => simp [tokens, hblank, hlex, ht]
  | case4 c rest hblank t n ht hne ih => simp [tokens, hblank, hlex, ht, ih]

theorem step_unlimited {t : Token} (h : State.step rules s t = .ok s') :
    State.step { rules with nesting := none } s t = .ok s' := by
  cases s with
  | value outer => exact h
  | firstItem outer =>
    by_cases ht : t = .closeArray
    · subst ht
      exact h
    · rw [State.step_firstItem ht] at h
      exact (State.expects_firstItem rfl t ht).trans (guard_eq_ok_iff.1 h).2
  | firstName outer =>
    cases t with
    | str name => exact (guard_eq_ok_iff.1 h).2
    | _ => exact h
  | nextName done outer | nameColon done name outer => cases t <;> exact h
  | after v outer => rcases outer with _ | ⟨_ | _, outer⟩ <;> cases t <;> exact h

theorem foldlM_step_unlimited {ts : List Token} (h : ts.foldlM (State.step rules) s = .ok s') :
    ts.foldlM (State.step { rules with nesting := none }) s = .ok s' := by
  induction ts generalizing s with
  | nil => exact h
  | cons t ts ih =>
    rw [List.foldlM_cons, bind_eq_ok_iff] at h ⊢
    obtain ⟨s₁, hs, h⟩ := h
    exact ⟨s₁, step_unlimited hs, ih h⟩

/-- Without a limit on nesting every text is read that was read with one, and to the same value. -/
theorem read_unlimited {text : List Char} {v : Value} (h : read rules text = .ok v) :
    read { rules with nesting := none } text = .ok v := by
  unfold read at h ⊢
  obtain ⟨s, hs, hv⟩ := bind_eq_ok_iff.1 h
  rw [tokens_unlimited, foldlM_step_unlimited hs]
  exact hv

/-- What a style loses when it stores a value is not written in any style, apart from the order of
members. -/
theorem write_stored {style' : Style} (hplain : style.sorted = false) (v : Value) :
    write style' (v.stored style) = write style' v := by
  have harrange : ∀ ms : Members, style.arrange ms = ms := fun ms => by
    rw [Style.arrange, hplain, if_neg Bool.false_ne_true]
  induction v using Value.induct with
  | null | bool | int | str => rfl
  | float x => cases x <;> rfl
  | arr _ ih =>
    rw [Value.stored, Value.storedItems_eq, write, write, writeItems_eq, writeItems_eq,
      List.map_map]
    exact congrArg bracketed (List.map_congr_left ih)
  | obj ms ih =>
    have hmembers : (style'.arrange ms).map (memberText style' ∘ fun m => (m.1, m.2.stored style)) =
        (style'.arrange ms).map (memberText style') := by
      apply List.map_congr_left
      intro m hm
      exact congrArg (writeString style'.ascii m.1 ++ ':' :: ·)
        (ih m ((style'.arrange_perm ms).mem_iff.1 hm))
    rw [Value.stored_obj, harrange, write_obj, write_obj, Style.arrange_map, List.map_map, hmembers]

end UpdateSeal.Json
