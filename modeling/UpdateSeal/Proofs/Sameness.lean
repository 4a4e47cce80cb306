import Mathlib.Data.List.Nodup
import UpdateSeal.Proofs.Objects

/-!
# Values that are the same but for the order of members

The members of an object have no order of their own. Two values are the same if they have the same
shape and, in objects, the same values under the same names. The text that sorts the members tells
apart what is not the same, but for numbers that are not finite, which it writes as `null`.
-/

namespace UpdateSeal

namespace Json

/-! ### Members by name -/

section Order

variable {α β : Type} {ps qs : List (String × α)}

theorem mem_iff_lookup (hps : (ps.map (·.1)).Nodup) {name : String} {a : α} :
    (name, a) ∈ ps ↔ ps.lookup name = some a := by
  induction ps with
  | nil => simp
  | cons p ps ih =>
    obtain ⟨other, b⟩ := p
    rw [List.map_cons, List.nodup_cons] at hps
    by_cases hname : name = other
    · subst hname
      have hnew : ∀ c, (name, c) ∉ ps := fun c hmem =>
        hps.1 (List.mem_map.2 ⟨_, hmem, rfl⟩)
      simp [hnew, eq_comm]
    · simp [hname, ih hps.2, List.lookup_cons, beq_eq_false_iff_ne.2 hname]

theorem perm_of_lookup (hps : (ps.map (·.1)).Nodup) (hqs : (qs.map (·.1)).Nodup)
    (hlookup : ∀ name, ps.lookup name = qs.lookup name) : ps.Perm qs := by
  apply (List.perm_ext_iff_of_nodup (hps.of_map _) (hqs.of_map _)).2
  rintro ⟨name, a⟩
  rw [mem_iff_lookup hps, mem_iff_lookup hqs, hlookup]

theorem lookup_eq_of_perm (hperm : ps.Perm qs) (hps : (ps.map (·.1)).Nodup) (name : String) :
    ps.lookup name = qs.lookup name := by
  have hqs := (hperm.map (·.1)).nodup_iff.1 hps
  apply Option.ext
  intro a
  rw [← mem_iff_lookup hps, ← mem_iff_lookup hqs, hperm.mem_iff]

theorem lookup_map (f : α → β) (ps : List (String × α)) (name : String) :
    (ps.map fun p => (p.1, f p.2)).lookup name = (ps.lookup name).map f := by
  induction ps with
  | nil => rfl
  | cons p ps ih =>
    rw [List.map_cons, List.lookup_cons, List.lookup_cons, ih]
    split <;> rfl

theorem eq_of_isSome_eq {o o' : Option α} (hsome : o.isSome = o'.isSome)
    (h : ∀ a b, o = some a → o' = some b → a = b) : o = o' := by
  cases o with
  | none => exact (Option.isNone_iff_eq_none.1 (Option.isSome_eq_false_iff.1 hsome.symm)).symm
  | some a =>
    obtain ⟨b, rfl⟩ := Option.isSome_iff_exists.1 hsome.symm
    rw [h a b rfl rfl]

theorem insertByName_sorted {p : String × α} (hqs : qs.Pairwise fun p q => ¬ q.1 < p.1) :
    (insertByName p qs).Pairwise fun p q => ¬ q.1 < p.1 := by
  induction qs with
  | nil => exact List.pairwise_singleton _ _
  | cons q qs ih =>
    have hq := List.pairwise_cons.1 hqs
    rw [insertByName]
    split
    · next hlt =>
      refine List.pairwise_cons.2 ⟨?_, hqs⟩
      rw [List.forall_mem_cons]
      exact ⟨String.lt_asymm hlt, fun r hr hrp => hq.1 r hr (String.lt_trans hrp hlt)⟩
    · next hle =>
      refine List.pairwise_cons.2 ⟨fun r hr => ?_, ih hq.2⟩
      rcases List.mem_cons.1 ((insertByName_perm p qs).mem_iff.1 hr) with rfl | hr
      · exact hle
      · exact hq.1 r hr

theorem sortByName_sorted (ps : List (String × α)) :
    (sortByName ps).Pairwise fun p q => ¬ q.1 < p.1 := by
  have hfold : ∀ qs : List (String × α), qs.Pairwise (fun p q => ¬ q.1 < p.1) →
      (ps.foldl (fun sorted p => insertByName p sorted) qs).Pairwise fun p q => ¬ q.1 < p.1 := by
    induction ps with
    | nil => exact fun qs hqs => hqs
    | cons p ps ih => exact fun qs hqs => ih _ (insertByName_sorted hqs)
  exact hfold [] List.Pairwise.nil

/-- Sorting forgets the order, where each name is there once. -/
theorem sortByName_eq_of_perm (hperm : ps.Perm qs) (hps : (ps.map (·.1)).Nodup) :
    sortByName ps = sortByName qs := by
  have hsorted := (sortByName_perm ps).trans (hperm.trans (sortByName_perm qs).symm)
  refine hsorted.eq_of_pairwise ?_ (sortByName_sorted ps) (sortByName_sorted qs)
  intro p q hp hq hpq hqp
  have hp := (sortByName_perm ps).mem_iff.1 hp
  have hq := hperm.mem_iff.2 ((sortByName_perm qs).mem_iff.1 hq)
  exact List.inj_on_of_nodup_map hps hp hq (String.le_antisymm (String.not_lt.1 hpq) (String.not_lt.1 hqp))

end Order

/-! ### The same values -/

/-- The same value, but for the order of the members of objects. -/
inductive Value.Same : Value → Value → Prop where
  | null : Same .null .null
  | bool (b : Bool) : Same (.bool b) (.bool b)
  | int (n : ℤ) : Same (.int n) (.int n)
  | float (x : Decimal.Binary64) : Same (.float x) (.float x)
  | str (s : String) : Same (.str s) (.str s)
  | arr {vs ws : List Value} (hlength : vs.length = ws.length)
    (hitems : ∀ (i : ℕ) v w, vs[i]? = some v → ws[i]? = some w → Same v w) : Same (.arr vs) (.arr ws)
  | obj {ms ns : Members} (hnames : ∀ name, (ms.get? name).isSome = (ns.get? name).isSome)
    (hmembers : ∀ name v w, ms.get? name = some v → ns.get? name = some w → Same v w) :
    Same (.obj ms) (.obj ns)

variable {style : Style} {n k : ℕ} {v w x : Value} {ms ns : Members}

theorem Value.eq_of_same_str {s t : String} (h : (Value.str s).Same (.str t)) : s = t := by
  cases h
  rfl

theorem Value.eq_of_same_int {i j : ℤ} (h : (Value.int i).Same (.int j)) : i = j := by
  cases h
  rfl

theorem Value.Same.trans (hvw : v.Same w) (hwx : w.Same x) : v.Same x := by
  induction hvw generalizing x with
  | null | bool | int | float | str => exact hwx
  | @arr vs ws hlength _ ih =>
    cases hwx with
    | @arr _ xs hlength' hitems' =>
      refine .arr (hlength.trans hlength') fun i v x hv hx => ?_
      have hi : i < ws.length := hlength ▸ (List.getElem?_eq_some_iff.1 hv).1
      have hw : ws[i]? = some ws[i] := List.getElem?_eq_getElem hi
      exact ih i v _ hv hw (hitems' i _ x hw hx)
  | @obj ms ns hnames _ ih =>
    cases hwx with
    | @obj _ ps hnames' hmembers' =>
      refine .obj (fun name => (hnames name).trans (hnames' name)) fun name v x hv hx => ?_
      obtain ⟨w, hw⟩ : ∃ w, ns.get? name = some w := by
        rw [← Option.isSome_iff_exists, ← hnames, hv]
        rfl
      exact ih name v w hv hw (hmembers' name w x hw hx)

theorem lookup_eq_of_same {β : Type} {f : Value → β}
    (hnames : ∀ name, (ms.get? name).isSome = (ns.get? name).isSome)
    (hmembers : ∀ name v w, ms.get? name = some v → ns.get? name = some w → f v = f w)
    (name : String) :
    (ms.map fun m => (m.1, f m.2)).lookup name = (ns.map fun m => (m.1, f m.2)).lookup name := by
  rw [lookup_map, lookup_map]
  apply eq_of_isSome_eq
  · rw [Option.isSome_map, Option.isSome_map]
    exact hnames name
  · intro b c hb hc
    obtain ⟨v, hv, rfl⟩ := Option.map_eq_some_iff.1 hb
    obtain ⟨w, hw, rfl⟩ := Option.map_eq_some_iff.1 hc
    exact hmembers name v w hv hw

theorem get?_stored (hnames : (ms.map (·.1)).Nodup) (name : String) :
    Members.get? ((style.arrange ms).map fun m => (m.1, m.2.stored style)) name =
      (ms.get? name).map (Value.stored style) := by
  have hperm := style.arrange_perm ms
  rw [Members.get?, lookup_map, lookup_eq_of_perm hperm ((hperm.map _).nodup_iff.2 hnames)]
  rfl

/-- In whatever style a value is stored, it is the same. -/
theorem Value.Storable.same_stored (hv : v.Storable n) (style style' : Style) :
    (v.stored style).Same (v.stored style') := by
  induction hv with
  | null => exact .null
  | bool _ b => exact .bool b
  | int => exact .int _
  | float _ x =>
    cases x with
    | finite negative code => exact .float _
    | infinite => exact .null
    | nan => exact .null
  | str _ s => exact .str s
  | arr _ _ ih =>
    rw [stored, stored, storedItems_eq, storedItems_eq]
    refine .arr (by rw [List.length_map, List.length_map]) fun i v w hv hw => ?_
    rw [List.getElem?_map, Option.map_eq_some_iff] at hv hw
    obtain ⟨u, hu, rfl⟩ := hv
    obtain ⟨u', hu', rfl⟩ := hw
    obtain rfl := Option.some.inj (hu.symm.trans hu')
    exact ih u (List.mem_of_getElem? hu)
  | obj _ hnames _ ih =>
    rw [stored_obj, stored_obj]
    refine .obj (fun name => ?_) fun name v w hv hw => ?_
    · rw [get?_stored hnames, get?_stored hnames, Option.isSome_map, Option.isSome_map]
    · rw [get?_stored hnames, Option.map_eq_some_iff] at hv hw
      obtain ⟨u, hu, rfl⟩ := hv
      obtain ⟨u', hu', rfl⟩ := hw
      obtain rfl := Option.some.inj (hu.symm.trans hu')
      exact ih _ ((mem_iff_lookup hnames).2 hu)

theorem Value.Same.write_eq (hsorted : style.sorted = true) (h : v.Same w) (hv : v.Storable n)
    (hw : w.Storable k) : write style v = write style w := by
  induction h generalizing n k with
  | null | bool | int | float | str => rfl
  | @arr vs ws hlength _ ih =>
    cases hv with
    | arr _ hvs =>
      cases hw with
      | arr _ hws =>
        rw [write, write, writeItems_eq, writeItems_eq]
        apply congrArg bracketed
        apply List.ext_getElem (by rwa [List.length_map, List.length_map])
        intro i hi hi'
        rw [List.length_map] at hi hi'
        rw [List.getElem_map, List.getElem_map]
        exact ih i _ _ (List.getElem?_eq_getElem hi) (List.getElem?_eq_getElem hi')
          (hvs _ (List.getElem_mem hi)) (hws _ (List.getElem_mem hi'))
  | @obj ms ns hnames _ ih =>
    cases hv with
    | obj _ hms hvs =>
      cases hw with
      | obj _ hns hws =>
        have hlookup := lookup_eq_of_same hnames fun name v w hv hw =>
          ih name v w hv hw (hvs _ ((mem_iff_lookup hms).2 hv)) (hws _ ((mem_iff_lookup hns).2 hw))
        have hperm := perm_of_lookup (by rwa [List.map_map]) (by rwa [List.map_map]) hlookup
        rw [write, write, joinMembers, joinMembers, writeMembers_eq, writeMembers_eq, if_pos hsorted,
          if_pos hsorted, sortByName_eq_of_perm hperm (by rwa [List.map_map])]

/-- What is written the same with sorted members is the same, as it is stored. -/
theorem same_of_write_eq (hms : (Value.obj ms).Storable n)
    (hns : (Value.obj ns).Storable k) (h : write style (.obj ms) = write style (.obj ns))
    (style' : Style) : ((Value.obj ms).stored style').Same ((Value.obj ns).stored style') := by
  have hread : read lenient (write style (.obj ms)) = _ := read_write_obj hms nofun
  have hread' : read lenient (write style (.obj ns)) = _ := read_write_obj hns nofun
  rw [h, hread'] at hread
  have hstored := hms.same_stored style' style
  rw [← Except.ok.inj hread] at hstored
  exact hstored.trans (hns.same_stored style style')

theorem Value.Storable.stored (hv : v.Storable n) (style : Style) : (v.stored style).Storable n := by
  induction hv with
  | null n => exact .null n
  | bool n b => exact .bool n b
  | int n hk => exact .int n hk
  | float n x =>
    cases x with
    | finite negative code => exact .float n _
    | infinite => exact .null n
    | nan => exact .null n
  | str n s => exact .str n s
  | arr hnest _ ih =>
    rw [Value.stored, storedItems_eq]
    exact .arr (fun hn => by rw [hnest hn, List.map_nil]) (List.forall_mem_map.2 ih)
  | @obj n ms hnest hnames _ ih =>
    have hperm := style.arrange_perm ms
    have hnest' : n = 0 → style.arrange ms = [] := fun hn => by
      rw [hnest hn, style.arrange_nil]
    rw [stored_obj]
    refine .obj (fun hn => by rw [hnest' hn, List.map_nil]) ?_
      (List.forall_mem_map.2 fun m hm => ih m (hperm.mem_iff.1 hm))
    rw [List.map_map]
    exact (hperm.map _).nodup_iff.2 hnames

/-- All numbers in a value are finite. -/
inductive Value.Finite : Value → Prop where
  | null : Finite .null
  | bool (b : Bool) : Finite (.bool b)
  | int (n : ℤ) : Finite (.int n)
  | float (negative : Bool) (code : Fin Decimal.codeBound) : Finite (.float (.finite negative code))
  | str (s : String) : Finite (.str s)
  | arr {vs : List Value} (hvs : ∀ v ∈ vs, Finite v) : Finite (.arr vs)
  | obj {ms : Members} (hms : ∀ m ∈ ms, Finite m.2) : Finite (.obj ms)

theorem Value.Finite.stored_eq (hv : v.Finite) : v.stored plain = v := by
  induction hv with
  | null | bool | int | float | str => rfl
  | arr _ ih =>
    rw [stored, storedItems_eq, List.map_congr_left ih, List.map_id']
  | @obj ms _ ih =>
    have hmap : ms.map (fun m => (m.1, m.2.stored plain)) = ms.map id :=
      List.map_congr_left fun m hm => Prod.ext rfl (ih m hm)
    rw [stored, storedMembers_eq, Style.arrange, if_neg (by decide), hmap, List.map_id]

end Json

end UpdateSeal
