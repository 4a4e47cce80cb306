import UpdateSeal.Proofs.Values

/-!
# Objects of whole numbers

An object of whole numbers whose names are sorted is read back as it is, and the length of its text
is bounded. Any value that a reader with a limit ends with could have been written: it nests within
the limit, its whole numbers are as short as in its tokens, and no object names a member twice.
-/

namespace UpdateSeal.Json

variable {rules : Rules} {style : Style}

/-- A name that is written as it is, and a number that has as many digits as are read. -/
def Spellable (p : String × Nat) : Prop := (∀ c ∈ p.1.toList, isPlain c) ∧ p.2 < 10 ^ maxDigits

def memberOf (p : String × Nat) : String × Value := (p.1, .int p.2)

theorem insertByName_of_le {α : Type} {p : String × α} {qs : List (String × α)}
    (hqs : ∀ q ∈ qs, ¬ p.1 < q.1) : insertByName p qs = qs ++ [p] := by
  induction qs with
  | nil => rfl
  | cons q qs ih =>
    rw [insertByName, if_neg (hqs q List.mem_cons_self),
      ih fun q hq => hqs q (List.mem_cons_of_mem _ hq), List.cons_append]

theorem sortByName_of_sorted {α : Type} {ps : List (String × α)}
    (hps : ps.Pairwise fun p q => ¬ q.1 < p.1) : sortByName ps = ps := by
  have hfold : ∀ qs : List (String × α), (qs ++ ps).Pairwise (fun p q => ¬ q.1 < p.1) →
      ps.foldl (fun sorted p => insertByName p sorted) qs = qs ++ ps := by
    clear hps
    induction ps with
    | nil => simp
    | cons p ps ih =>
      intro qs hqs
      have hle : ∀ q ∈ qs, ¬ p.1 < q.1 := fun q hq =>
        (List.pairwise_append.1 hqs).2.2 q hq p List.mem_cons_self
      rw [List.foldl_cons, insertByName_of_le hle, ih _ (by simpa using hqs), List.append_assoc,
        List.singleton_append]
  exact hfold [] hps

theorem Style.arrange_of_sorted {α : Type} {ps : List (String × α)}
    (hps : ps.Pairwise fun p q => ¬ q.1 < p.1) : style.arrange ps = ps := by
  rw [arrange, sortByName_of_sorted hps, ite_self]

theorem arrange_memberOf {ps : List (String × Nat)} (hps : ps.Pairwise fun p q => ¬ q.1 < p.1) :
    style.arrange (ps.map memberOf) = ps.map memberOf :=
  Style.arrange_of_sorted (List.pairwise_map.2 hps)

/-- An object of whole numbers is read back, if its names are sorted and different. -/
theorem read_write {ps : List (String × Nat)} (hspell : ∀ p ∈ ps, Spellable p)
    (hsorted : ps.Pairwise fun p q => ¬ q.1 < p.1) (hnames : (ps.map (·.1)).Nodup)
    (hdepth : HasDepth rules [] 1) :
    read rules (write style (.obj (ps.map memberOf))) = .ok (.obj (ps.map memberOf)) := by
  have hstorable : (Value.obj (ps.map memberOf)).Storable 1 := by
    refine Value.storable_obj_iff.2 ⟨?_, ?_⟩
    · rw [List.map_map]
      exact hnames
    · rw [List.forall_mem_map]
      intro p hp
      exact .int 0 (bounded_natCast.2 (hspell p hp).2)
  have hstored : (Value.obj (ps.map memberOf)).stored style = .obj (ps.map memberOf) := by
    rw [Value.stored_obj, arrange_memberOf hsorted, List.map_map]
    rfl
  rw [read_write_obj hstorable hdepth, hstored]

/-! ### Length of the text -/

theorem length_commaSeparated_le {ts : List (List Char)} {k : Nat} (hts : ∀ t ∈ ts, t.length ≤ k) :
    (commaSeparated ts).length ≤ ts.length * (k + 1) := by
  induction ts with
  | nil => simp [commaSeparated]
  | cons t ts ih =>
    have ht := hts t List.mem_cons_self
    have hrest := ih fun t ht => hts t (List.mem_cons_of_mem _ ht)
    rw [List.length_cons, Nat.succ_mul]
    cases ts with
    | nil =>
      rw [commaSeparated]
      omega
    | cons t' ts =>
      rw [commaSeparated, List.length_append, List.length_cons]
      · omega
      · simp

theorem length_memberText_le {p : String × Nat} (hp : Spellable p) :
    (memberText style (memberOf p)).length ≤ p.1.length + maxDigits + 3 := by
  have hn : (Nat.toDigits 10 p.2).length ≤ maxDigits :=
    (Nat.length_toDigits_le_iff (by decide) (by decide)).2 hp.2
  simp only [memberText, memberOf, write, writeString, flatMap_escapeChar_of_isPlain _ hp.1,
    writeInt_natCast, List.length_append, List.length_cons, List.length_nil, String.length_toList]
  omega

theorem length_write_le {ps : List (String × Nat)} {k : Nat}
    (hspell : ∀ p ∈ ps, Spellable p) (hsorted : ps.Pairwise fun p q => ¬ q.1 < p.1)
    (hname : ∀ p ∈ ps, p.1.length ≤ k) :
    (write style (.obj (ps.map memberOf))).length ≤ ps.length * (k + maxDigits + 4) + 2 := by
  have hts : ∀ t ∈ (ps.map memberOf).map (memberText style), t.length ≤ k + maxDigits + 3 := by
    rw [List.map_map, List.forall_mem_map]
    intro p hp
    have hlen : (memberText style (memberOf p)).length ≤ _ := length_memberText_le (hspell p hp)
    have := hname p hp
    simp only [Function.comp]
    omega
  have hlen : (commaSeparated ((ps.map memberOf).map (memberText style))).length ≤
      ps.length * (k + maxDigits + 4) := by
    simpa using length_commaSeparated_le hts
  rw [write_obj, arrange_memberOf hsorted, braced]
  simp only [List.length_append, List.length_cons, List.length_nil]
  omega

/-! ### Values that are read -/

/-- All whole numbers in a value are written in as many characters as are read. -/
inductive Value.Bounded : Value → Prop where
  | null : Bounded .null
  | bool (b : Bool) : Bounded (.bool b)
  | int {n : Int} (hn : Json.Bounded n) : Bounded (.int n)
  | float (x : Decimal.Binary64) : Bounded (.float x)
  | str (s : String) : Bounded (.str s)
  | arr {items : List Value} (hitems : ∀ v ∈ items, Bounded v) : Bounded (.arr items)
  | obj {ms : Members} (hms : ∀ m ∈ ms, Bounded m.2) : Bounded (.obj ms)

theorem Value.Storable.bounded {n : ℕ} {v : Value} (hv : v.Storable n) : v.Bounded := by
  induction hv with
  | null => exact .null
  | bool _ b => exact .bool b
  | int _ hk => exact .int hk
  | float _ x => exact .float x
  | str _ s => exact .str s
  | arr _ _ ih => exact .arr ih
  | obj _ _ _ ih => exact .obj ih

theorem Members.forall_insert {P : Value → Prop} {name : String} {v : Value} (hv : P v)
    {ms : Members} (hms : ∀ m ∈ ms, P m.2) : ∀ m ∈ ms.insert name v, P m.2 := by
  induction ms with
  | nil => simpa [insert] using hv
  | cons m ms ih =>
    rw [List.forall_mem_cons] at hms
    rw [insert]
    split
    · exact List.forall_mem_cons.2 ⟨hv, hms.2⟩
    · exact List.forall_mem_cons.2 ⟨hms.1, ih hms.2⟩

theorem Members.forall_ofPairs {P : Value → Prop} {pairs : Members} (hps : ∀ m ∈ pairs, P m.2) :
    ∀ m ∈ Members.ofPairs pairs, P m.2 := by
  have hfold : ∀ ms : Members, (∀ m ∈ ms, P m.2) →
      ∀ m ∈ pairs.foldl (fun ms p => Members.insert p.1 p.2 ms) ms, P m.2 := by
    induction pairs with
    | nil => exact fun ms hms => hms
    | cons p pairs ih =>
      rw [List.forall_mem_cons] at hps
      exact fun ms hms => ih hps.2 _ (forall_insert hps.1 hms)
  exact hfold [] (by simp)

theorem Members.map_fst_insert (name : String) (v : Value) (ms : Members) :
    (ms.insert name v).map (·.1) = ms.map (·.1) ∨
      name ∉ ms.map (·.1) ∧ (ms.insert name v).map (·.1) = ms.map (·.1) ++ [name] := by
  induction ms with
  | nil => exact .inr ⟨List.not_mem_nil, rfl⟩
  | cons m ms ih =>
    rw [insert]
    split
    · next hname => exact .inl (by rw [List.map_cons, List.map_cons, hname])
    · next hname =>
      rcases ih with h | ⟨hnew, h⟩
      · exact .inl (by rw [List.map_cons, List.map_cons, h])
      · refine .inr ⟨?_, by rw [List.map_cons, List.map_cons, h, List.cons_append]⟩
        rw [List.map_cons, List.mem_cons, not_or]
        exact ⟨Ne.symm hname, hnew⟩

theorem Members.nodup_ofPairs (pairs : Members) : ((Members.ofPairs pairs).map (·.1)).Nodup := by
  have hfold : ∀ ms : Members, (ms.map (·.1)).Nodup →
      ((pairs.foldl (fun ms p => Members.insert p.1 p.2 ms) ms).map (·.1)).Nodup := by
    induction pairs with
    | nil => exact fun ms hms => hms
    | cons p pairs ih =>
      intro ms hms
      refine ih _ ?_
      rcases map_fst_insert p.1 p.2 ms with h | ⟨hnew, h⟩
      · rwa [h]
      · rw [h]
        refine List.nodup_append.2 ⟨hms, by simp, fun a ha b hb heq => ?_⟩
        rw [List.mem_singleton.1 hb] at heq
        exact hnew (heq ▸ ha)
  exact hfold [] List.nodup_nil

/-- What an open array or object holds so far can be stored within `n`. -/
def Pending.Storable (n : ℕ) : Pending → Prop
  | .items done => ∀ v ∈ done, v.Storable n
  | .member done _ => ∀ m ∈ done, m.2.Storable n

/-- Inside these open arrays and objects values may nest within `n`, if all nest within `limit`. -/
inductive Leaves (limit : ℕ) : ℕ → List Pending → Prop where
  | nil : Leaves limit limit []
  | cons {n : ℕ} {p : Pending} {outer : List Pending} (ho : Leaves limit (n + 1) outer)
    (hp : p.Storable n) : Leaves limit n (p :: outer)

def State.Storable (limit : ℕ) : State → Prop
  | .value outer | .firstItem outer | .firstName outer => ∃ n, Leaves limit n outer
  | .nextName done outer | .nameColon done _ outer =>
    ∃ n, Leaves limit (n + 1) outer ∧ ∀ m ∈ done, m.2.Storable n
  | .after v outer => ∃ n, Leaves limit n outer ∧ v.Storable n

variable {limit n : ℕ} {outer : List Pending} {s s' : State} {t : Token}

theorem Leaves.add_length (h : Leaves limit n outer) : n + outer.length = limit := by
  induction h with
  | nil => rfl
  | cons _ _ ih =>
    rw [List.length_cons]
    omega

theorem Leaves.exists_of_mayNest (h : Leaves limit n outer) (hlimit : rules.nesting = some limit)
    (hnest : mayNest rules outer) : ∃ k, Leaves limit (k + 1) outer := by
  have hlength := h.add_length
  simp only [mayNest, hlimit, decide_eq_true_eq] at hnest
  obtain ⟨k, rfl⟩ : ∃ k, n = k + 1 := ⟨n - 1, by omega⟩
  exact ⟨k, h⟩

theorem State.startValue_storable (hs : startValue outer t = .ok s) (ho : Leaves limit n outer)
    (ht : t.Bounded) : s.Storable limit := by
  unfold startValue at hs
  split at hs
  case h_3 =>
    cases hs
    exact ⟨n, ho, .int n ht⟩
  case h_6 | h_7 =>
    cases hs
    exact ⟨n, ho⟩
  case h_8 | h_9 => cases hs
  all_goals cases hs; exact ⟨n, ho, by constructor⟩

theorem State.step_storable (hlimit : rules.nesting = some limit) (hs : step rules s t = .ok s')
    (h : s.Storable limit) (ht : t.Bounded) : s'.Storable limit := by
  unfold step at hs
  split at hs
  case h_1 outer =>
    obtain ⟨n, ho⟩ := h
    exact startValue_storable hs ho ht
  case h_2 outer =>
    obtain ⟨n, ho⟩ := h
    cases hs
    exact ⟨n, ho, .arr (fun _ => rfl) (List.forall_mem_nil _)⟩
  case h_3 outer _ =>
    obtain ⟨n, ho⟩ := h
    obtain ⟨hnest, hs⟩ := guard_eq_ok_iff.1 hs
    obtain ⟨k, ho⟩ := ho.exists_of_mayNest hlimit hnest
    have hitems : Pending.Storable k (.items []) := List.forall_mem_nil _
    exact startValue_storable hs (.cons ho hitems) ht
  case h_4 outer =>
    obtain ⟨n, ho⟩ := h
    cases hs
    exact ⟨n, ho, Value.storable_empty n⟩
  case h_5 outer _ =>
    obtain ⟨n, ho⟩ := h
    obtain ⟨hnest, hs⟩ := guard_eq_ok_iff.1 hs
    obtain ⟨k, ho⟩ := ho.exists_of_mayNest hlimit hnest
    cases hs
    exact ⟨k, ho, List.forall_mem_nil _⟩
  case h_6 done outer _ =>
    cases hs
    exact h
  case h_7 done name outer =>
    obtain ⟨n, ho, hdone⟩ := h
    cases hs
    exact ⟨n, .cons ho hdone⟩
  case h_8 v done outer =>
    obtain ⟨n, ⟨⟩ | ⟨ho, hdone⟩, hv⟩ := h
    cases hs
    exact ⟨n, .cons ho (List.forall_mem_cons.2 ⟨hv, hdone⟩)⟩
  case h_9 v done outer =>
    obtain ⟨n, ⟨⟩ | ⟨ho, hdone⟩, hv⟩ := h
    cases hs
    refine ⟨n + 1, ho, .arr nofun fun w hw => ?_⟩
    exact List.forall_mem_cons.2 ⟨hv, hdone⟩ w (List.mem_reverse.1 hw)
  case h_10 v done name outer =>
    obtain ⟨n, ⟨⟩ | ⟨ho, hdone⟩, hv⟩ := h
    cases hs
    exact ⟨n, ho, List.forall_mem_cons.2 ⟨hv, hdone⟩⟩
  case h_11 v done name outer =>
    obtain ⟨n, ⟨⟩ | ⟨ho, hdone⟩, hv⟩ := h
    have hall : ∀ m ∈ (name, v) :: done, m.2.Storable n := List.forall_mem_cons.2 ⟨hv, hdone⟩
    cases hs
    refine ⟨n + 1, ho, .obj nofun (Members.nodup_ofPairs _) (Members.forall_ofPairs fun m hm => ?_)⟩
    exact hall m (List.mem_reverse.1 hm)
  case h_12 => cases hs

theorem foldlM_step_storable (hlimit : rules.nesting = some limit) {ts : List Token}
    (hs : ts.foldlM (State.step rules) s = .ok s') (h : s.Storable limit)
    (hts : ∀ t ∈ ts, t.Bounded) : s'.Storable limit := by
  induction ts generalizing s with
  | nil =>
    cases hs
    exact h
  | cons t ts ih =>
    rw [List.forall_mem_cons] at hts
    rw [List.foldlM_cons] at hs
    obtain ⟨s₁, hstep, hs⟩ := bind_eq_ok_iff.1 hs
    exact ih hs (State.step_storable hlimit hstep h hts.1) hts.2

/-- What is read nests within the limit of the reader, names no member twice, and has no longer whole
numbers than are read. -/
theorem storable_of_read (hlimit : rules.nesting = some limit) (hsign : rules.countsSign = true)
    {text : List Char} {v : Value} (h : read rules text = .ok v) : v.Storable limit := by
  unfold read at h
  obtain ⟨s, hs, h⟩ := bind_eq_ok_iff.1 h
  have hstorable := foldlM_step_storable hlimit hs ⟨limit, .nil⟩ (tokens_bounded hsign text)
  split at h
  · obtain rfl := pure_eq_ok_iff.1 h
    obtain ⟨n, ho, hv⟩ := hstorable
    cases ho
    exact hv
  · cases h

end UpdateSeal.Json
