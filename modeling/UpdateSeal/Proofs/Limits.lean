import UpdateSeal.Proofs.Objects

/-!
# What is written beyond the limits of the reader

Arrays and objects may be written deeper than is read, and whole numbers longer than is read. The
reader stops inside such a text. It never takes it for another value.
-/

namespace UpdateSeal.Json

variable {rules : Rules} {style : Style} {outer : List Pending} {s : State} {c : Char}

/-- A value that names each member of an object once. -/
inductive Value.Named : Value → Prop where
  | null : Named .null
  | bool (b : Bool) : Named (.bool b)
  | int (n : ℤ) : Named (.int n)
  | float (x : Decimal.Binary64) : Named (.float x)
  | str (s : String) : Named (.str s)
  | arr {items : List Value} (hitems : ∀ v ∈ items, Named v) : Named (.arr items)
  | obj {ms : Members} (hnames : (ms.map (·.1)).Nodup) (hms : ∀ m ∈ ms, Named m.2) :
    Named (.obj ms)

theorem Value.Storable.named {n : ℕ} {v : Value} (hv : v.Storable n) : v.Named := by
  induction hv with
  | null => exact .null
  | bool _ b => exact .bool b
  | int => exact .int _
  | float _ x => exact .float x
  | str _ s => exact .str s
  | arr _ _ ih => exact .arr ih
  | obj _ hnames _ ih => exact .obj hnames ih

/-- The reader fails inside the text of `v`. -/
def Value.Stops (rules : Rules) (style : Style) (v : Value) : Prop :=
  ∀ {s : State} {outer : List Pending} {c : Char} (rest : List Char), s.Expects rules outer →
    endsNumber c → ∃ fault, advance rules s (write style v ++ c :: rest) = .error fault

theorem hasDepth_of_unlimited (hlimit : rules.nesting = none) (outer : List Pending) (n : ℕ) :
    HasDepth rules outer n := fun _ h => by
  rw [hlimit] at h
  cases h

/-! ### Numbers -/

theorem lexNumber_of_long (hsign : rules.countsSign = true) {n : ℕ} {negative : Bool}
    (hl : maxDigits < negative.toNat + (Nat.toDigits 10 n).length) (hc : endsNumber c)
    (rest : List Char) :
    lexNumber rules negative (Nat.toDigits 10 n ++ c :: rest) =
      (.longInt (Nat.toDigits 10 n).length, (Nat.toDigits 10 n).length) := by
  have hcounted : maxDigits < Numeral.counted rules ⟨negative, Nat.toDigits 10 n, none, none⟩ := by
    rwa [Numeral.counted, if_pos hsign]
  unfold lexNumber
  rw [wholeDigits_toDigits n (isDigit_of_endsNumber hc)]
  split
  · next h => exact absurd h Nat.toDigits_ne_nil
  · simp only [List.drop_left, fractionDigits_of_endsNumber hc, List.drop_zero,
      exponentPart_of_endsNumber hc, Numeral.token, if_pos hcounted, Nat.add_zero]

theorem stops_of_long (hsign : rules.countsSign = true) {n : ℤ} (hn : ¬ Bounded n) :
    (Value.int n).Stops rules style := by
  intro s outer c rest hs hc
  rw [bounded_iff_length, Nat.not_le] at hn
  have hlex := lexNumber_of_long hsign hn hc rest
  obtain ⟨d, ds, hcons⟩ : ∃ d ds, Nat.toDigits 10 n.natAbs = d :: ds :=
    List.exists_cons_of_ne_nil Nat.toDigits_ne_nil
  have hd : isDigit d := isDigit_of_mem_toDigits (n := n.natAbs) (hcons ▸ List.mem_cons_self)
  rw [hcons] at hlex
  have htokens := tokens_signed hd hlex (by simp)
  have hstep : State.step rules s (.longInt (d :: ds).length) = .error (.longInt (d :: ds).length) :=
    hs _ (by simp)
  rw [write, writeInt_eq_signed, hcons, advance, htokens, List.foldlM_cons, hstep]
  exact ⟨_, rfl⟩

/-! ### Arrays and objects -/

/-- Behind each of the texts that are separated by commas and closed by `close` stands a character
that ends a number. -/
theorem commaSeparated_cons_append (t : List Char) (ts : List (List Char)) (close : Char)
    (hclose : endsNumber close) (rest : List Char) :
    ∃ c tail, commaSeparated (t :: ts) ++ close :: rest = t ++ c :: tail ∧ endsNumber c := by
  cases ts with
  | nil => exact ⟨close, rest, rfl, hclose⟩
  | cons u ts => exact ⟨',', commaSeparated (u :: ts) ++ close :: rest, by simp [commaSeparated], rfl⟩

theorem stops_items (hlimit : rules.nesting = none) {v : Value} {vs : List Value}
    (hvs : ∀ w ∈ v :: vs, ReadsBack rules style 0 w ∨ w.Stops rules style)
    (hstops : ∃ w ∈ v :: vs, w.Stops rules style) {done : List Value}
    (hs : s.Expects rules (.items done :: outer)) (rest : List Char) :
    ∃ fault, advance rules s (commaSeparated ((v :: vs).map (write style)) ++ ']' :: rest) =
      .error fault := by
  induction vs generalizing v done s with
  | nil =>
    obtain ⟨w, hw, hstops⟩ := hstops
    obtain rfl := List.mem_singleton.1 hw
    exact hstops rest hs rfl
  | cons w vs ih =>
    by_cases hv : v.Stops rules style
    · obtain ⟨c, tail, htext, hc⟩ := commaSeparated_cons_append (write style v)
        ((w :: vs).map (write style)) ']' rfl rest
      rw [List.map_cons, htext]
      exact hv tail hs hc
    · have hread : ReadsBack rules style 0 v := (hvs v List.mem_cons_self).resolve_right hv
      obtain ⟨x, hx, hxstops⟩ := hstops
      have hx' : x ∈ w :: vs := (List.mem_cons.1 hx).resolve_left fun heq => hv (heq ▸ hxstops)
      rw [List.map_cons, List.map_cons, commaSeparated, List.append_assoc, List.cons_append,
        hread _ hs (hasDepth_of_unlimited hlimit _ 0) rfl, advance_of_tokens (tokens_comma _) rfl]
      · exact ih (fun y hy => hvs y (List.mem_cons_of_mem v hy)) ⟨x, hx', hxstops⟩
          (State.expects_value _)
      · simp

theorem advance_name (m : String × Value) (done : Members) (rest : List Char) :
    advance rules (.nextName done outer) (memberText style m ++ rest) =
      advance rules (.value (.member done m.1 :: outer)) (write style m.2 ++ rest) := by
  rw [memberText, List.append_assoc, List.cons_append,
    advance_of_tokens (tokens_writeString style.ascii m.1 _) rfl,
    advance_of_tokens (tokens_colon _) rfl]

theorem stops_members (hlimit : rules.nesting = none) {m : String × Value} {ms : Members}
    (hms : ∀ p ∈ m :: ms, ReadsBack rules style 0 p.2 ∨ p.2.Stops rules style)
    (hstops : ∃ p ∈ m :: ms, p.2.Stops rules style) {done : Members} (rest : List Char) :
    ∃ fault, advance rules (.nextName done outer)
      (commaSeparated ((m :: ms).map (memberText style)) ++ '\x7d' :: rest) = .error fault := by
  induction ms generalizing m done with
  | nil =>
    obtain ⟨p, hp, hstops⟩ := hstops
    obtain rfl := List.mem_singleton.1 hp
    rw [List.map_singleton, commaSeparated, advance_name]
    exact hstops rest (State.expects_value _) rfl
  | cons p ms ih =>
    by_cases hm : m.2.Stops rules style
    · obtain ⟨c, tail, htext, hc⟩ := commaSeparated_cons_append (memberText style m)
        ((p :: ms).map (memberText style)) '\x7d' rfl rest
      rw [List.map_cons, htext, advance_name]
      exact hm tail (State.expects_value _) hc
    · have hread : ReadsBack rules style 0 m.2 := (hms m List.mem_cons_self).resolve_right hm
      obtain ⟨q, hq, hqstops⟩ := hstops
      have hq' : q ∈ p :: ms := (List.mem_cons.1 hq).resolve_left fun heq => hm (heq ▸ hqstops)
      rw [List.map_cons, List.map_cons, commaSeparated, List.append_assoc, List.cons_append,
        advance_member hread (hasDepth_of_unlimited hlimit _ 1) rfl,
        advance_of_tokens (tokens_comma _) rfl]
      · exact ih (fun r hr => hms r (List.mem_cons_of_mem m hr)) ⟨q, hq', hqstops⟩
      · simp

theorem stops_object (hlimit : rules.nesting = none) {ms : Members}
    (hms : ∀ m ∈ ms, ReadsBack rules style 0 m.2 ∨ m.2.Stops rules style)
    (hstops : ∃ m ∈ ms, m.2.Stops rules style) (hs : s.Expects rules outer) (rest : List Char) :
    ∃ fault, advance rules s (write style (.obj ms) ++ rest) = .error fault := by
  have hnest : mayNest rules outer := (hasDepth_of_unlimited hlimit outer 1).mayNest
  have hperm := style.arrange_perm ms
  have hstops' : ∃ m ∈ style.arrange ms, m.2.Stops rules style :=
    hstops.imp fun m h => ⟨hperm.mem_iff.2 h.1, h.2⟩
  have hms' : ∀ m ∈ style.arrange ms, ReadsBack rules style 0 m.2 ∨ m.2.Stops rules style :=
    fun m hm => hms m (hperm.mem_iff.1 hm)
  rw [write_obj, braced_append, hs.advance (tokens_openObject _) (by simp) rfl]
  generalize style.arrange ms = ms at hstops' hms'
  obtain ⟨m, ms, rfl⟩ := List.exists_cons_of_ne_nil (List.ne_nil_of_mem hstops'.choose_spec.1)
  rw [advance_firstName hnest]
  exact stops_members hlimit hms' hstops' rest

/-- The reader comes out behind the text of a value with the value that it stores, or fails inside. -/
theorem Value.Named.reads_or_stops (hlimit : rules.nesting = none) (hsign : rules.countsSign = true)
    {v : Value} (hv : v.Named) : ReadsBack rules style 0 v ∨ v.Stops rules style := by
  have hdepth : ∀ outer, HasDepth rules outer 1 := fun outer => hasDepth_of_unlimited hlimit outer 1
  induction hv with
  | null => exact .inl (readsBack (.null 0))
  | bool b => exact .inl (readsBack (.bool 0 b))
  | int n =>
    by_cases hn : Json.Bounded n
    · exact .inl (readsBack (.int 0 hn))
    · exact .inr (stops_of_long hsign hn)
  | float x => exact .inl (readsBack (.float 0 x))
  | str s => exact .inl (readsBack (.str 0 s))
  | @arr items _ ih =>
    by_cases hstops : ∃ v ∈ items, v.Stops rules style
    · refine .inr fun {s outer c} rest hs hc => ?_
      obtain ⟨v, vs, rfl⟩ := List.exists_cons_of_ne_nil (List.ne_nil_of_mem hstops.choose_spec.1)
      rw [write, writeItems_eq, bracketed_append, hs.advance (tokens_openArray _) (by simp) rfl]
      exact stops_items hlimit ih hstops (State.expects_firstItem (hdepth outer).mayNest) _
    · have hitems : ∀ v ∈ items, ReadsBack rules style 0 v := fun v hv =>
        (ih v hv).resolve_right fun h => hstops ⟨v, hv, h⟩
      exact .inl fun rest hs _ _ => advance_array (n := 1) (absurd · Nat.one_ne_zero) hitems hs (hdepth _) _
  | @obj ms hnames _ ih =>
    by_cases hstops : ∃ m ∈ ms, m.2.Stops rules style
    · exact .inr fun rest hs _ => stops_object hlimit ih hstops hs _
    · have hms : ∀ m ∈ ms, ReadsBack rules style 0 m.2 := fun m hm =>
        (ih m hm).resolve_right fun h => hstops ⟨m, hm, h⟩
      exact .inl fun rest hs _ _ => advance_object (n := 1) (absurd · Nat.one_ne_zero) hnames hms hs
        (hdepth _) _

theorem eq_stored_of_read_unlimited (hlimit : rules.nesting = none)
    (hsign : rules.countsSign = true) {ms : Members} (hms : (Value.obj ms).Named) {v : Value}
    (h : read rules (write style (.obj ms)) = .ok v) : v = (Value.obj ms).stored style := by
  cases hms with
  | obj hnames hms =>
    have hcases : ∀ m ∈ ms, ReadsBack rules style 0 m.2 ∨ m.2.Stops rules style := fun m hm =>
      (hms m hm).reads_or_stops hlimit hsign
    by_cases hstops : ∃ m ∈ ms, m.2.Stops rules style
    · obtain ⟨fault, hfault⟩ := stops_object hlimit hcases hstops (State.expects_value []) []
      rw [List.append_nil, advance] at hfault
      rw [read, hfault] at h
      cases h
    · have hback : ∀ m ∈ ms, ReadsBack rules style 0 m.2 := fun m hm =>
        (hcases m hm).resolve_right fun h => hstops ⟨m, hm, h⟩
      have hadvance := advance_object (n := 1) (absurd · Nat.one_ne_zero) hnames hback
        (State.expects_value []) (hasDepth_of_unlimited hlimit [] 1) []
      rw [List.append_nil] at hadvance
      exact Except.ok.inj (h.symm.trans (read_of_advance hadvance))

/-- A written object is read back or not read at all. -/
theorem eq_stored_of_read (hsign : rules.countsSign = true) {ms : Members}
    (hms : (Value.obj ms).Named) {v : Value} (h : read rules (write style (.obj ms)) = .ok v) :
    v = (Value.obj ms).stored style := by
  refine eq_stored_of_read_unlimited ?_ ?_ hms (read_unlimited h)
  · rfl
  · exact hsign

end UpdateSeal.Json
