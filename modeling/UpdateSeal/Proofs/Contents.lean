import Mathlib.Data.Fin.Tuple.Basic
import Mathlib.Data.List.Permutation
import UpdateSeal.Proofs.Appending
import UpdateSeal.Proofs.Sameness

/-!
# What the hash of an entry covers

Every entry that is read from a line can be written again, to a line that keeps its hash and its
seal. The texts that two such entries are hashed by are equal if and only if the entries hold the same,
hash and seal apart, once every number that is not finite is taken for `null`.
-/

namespace UpdateSeal

open Validation (Checked optional required single list text nullable integerFrom)

namespace Entry

variable {e e' : Entry} {ms : Json.Members} {depth : ℕ}

/-! ### Entries that are read -/

theorem eq_obj_of_object {name : String} {v : Json.Value} (h : object name v = .ok ms) :
    v = .obj ms := by
  unfold object at h
  split at h
  · exact congrArg _ (Except.ok.inj h)
  · cases h

theorem map_fst_of_textMembers {name : String} {texts : List (String × String)}
    (h : textMembers name (.obj ms) = .ok texts) : texts.map (·.1) = ms.map (·.1) := by
  unfold textMembers at h
  induction ms generalizing texts with
  | nil =>
    cases h
    rfl
  | cons m ms ih =>
    obtain ⟨⟨first, others⟩, hand, rfl⟩ := map_eq_ok_iff.1 h
    obtain ⟨hfirst, hothers⟩ := Checked.and_eq_ok_iff.1 hand
    obtain ⟨s, -, rfl⟩ := map_eq_ok_iff.1 hfirst
    rw [List.map_cons, List.map_cons, ih hothers]

theorem storable_args {n : ℕ} (hms : ∀ m ∈ ms, m.2.Storable (n + 1)) {args : Json.Members}
    (h : optional ms "args" [] (object "args") = .ok args) :
    (Json.Value.obj args).Storable (n + 1) := by
  rcases Validation.optional_eq_ok h with rfl | ⟨v, hmem, hv⟩
  · exact Json.Value.storable_empty (n + 1)
  · exact eq_obj_of_object hv ▸ hms _ hmem

theorem nodup_versions {n : ℕ} (hms : ∀ m ∈ ms, m.2.Storable n) {versions : List (String × String)}
    (h : optional ms "versions" [] (textMembers "versions") = .ok versions) :
    (versions.map (·.1)).Nodup := by
  rcases Validation.optional_eq_ok h with rfl | ⟨v, hmem, hv⟩
  · exact List.nodup_nil
  · have hstorable := hms _ hmem
    cases hstorable with
    | obj _ hnames => rwa [map_fst_of_textMembers hv]
    | _ => cases hv

theorem bounded_sequence {n : ℕ} (hms : ∀ m ∈ ms, m.2.Storable n) {sequence : Option ℤ}
    (h : optional ms "sequence" none (single "sequence" (nullable (integerFrom 1))) = .ok sequence) :
    ∀ k, sequence = some k → 1 ≤ k ∧ Json.Bounded k := by
  intro k hk
  rcases Validation.optional_eq_ok h with rfl | ⟨v, hmem, hv⟩
  · cases hk
  · have hcheck := Validation.nullable_eq_ok (Checked.at_eq_ok_iff.1 hv) hk
    obtain ⟨hinteger, hle⟩ := Validation.integerFrom_eq_ok_iff.1 hcheck
    exact ⟨hle, Validation.integer_bounded (hms _ hmem).bounded hinteger⟩

theorem recordable_of_ofLine {t : List Char} (h : ofLine t = .ok e) : e.Recordable := by
  unfold ofLine at h
  split at h
  · cases h
  · next ms hread =>
    have hms := (Json.Value.storable_obj_iff.1 (Json.storable_of_read rfl rfl hread)).2
    obtain ⟨⟨⟨_, _⟩, ⟨args, versions⟩, ⟨_, sequence⟩, _⟩, hall, rfl⟩ := map_eq_ok_iff.1 h
    obtain ⟨-, hback⟩ := Checked.and_eq_ok_iff.1 hall
    obtain ⟨hobjects, hends⟩ := Checked.and_eq_ok_iff.1 hback
    obtain ⟨hargs, hversions⟩ := Checked.and_eq_ok_iff.1 hobjects
    obtain ⟨hchain, -⟩ := Checked.and_eq_ok_iff.1 hends
    obtain ⟨-, hsequence⟩ := Checked.and_eq_ok_iff.1 hchain
    exact ⟨storable_args hms hargs, nodup_versions hms hversions, bounded_sequence hms hsequence⟩
  · cases h

/-! ### Entries that are written again -/

/-- The line of an entry that was read is one line. What is read from it has the same content and the
same links to the entries around it, and is written as the same line. -/
theorem kept_by_line {t : List Char} (h : ofLine t = .ok e) :
    Text.Unbroken e.line ∧
      ∃ e', ofLine e.line = .ok e' ∧
        (∀ path, Ledger.entriesOf path (Bytes.ofText (String.ofList e.line)) = .ok [e']) ∧
        e'.content = e.content ∧ e'.contentHash = e.contentHash ∧
        e'.entryHash = e.entryHash ∧ e'.signature = e.signature ∧
        e'.sequence = e.sequence ∧ e'.previousHash = e.previousHash ∧ e'.line = e.line := by
  have hread := recordable_of_ofLine h
  -- A number that is not finite comes back as `null`, so what is read again need not be `e`.
  exact ⟨e.unbroken_line, e.stored, ofLine_line hread, fun _ => Ledger.entriesOf_line hread,
    e.content_stored, e.contentHash_stored, rfl, rfl, rfl, rfl, e.line_stored⟩

/-- Blanks, escapes, a name that comes twice, a whole number as text and numbers of all kinds. -/
def looseText : List Char :=
  ["\x7b\"sequence\" : \" 1_0.0 \",\n\"timestamp\":\"a\\nb\",",
    "\"operation\":\"\",\"operation\":\"\\ud83d\\ude00\",",
    "\"args\":\x7b\"z\":[1e400,-0.0,1e16,NaN,\x7b\"x\":null\x7d],",
    "\"a\":100000000000000000000\x7d,\"previous_hash\":\"11\",",
    "\"entry_hash\":\"22\",\"signature\":\"33\",\"note\":[]\x7d\r"].flatMap String.toList

def looseEntry : Entry :=
  { timestamp := "a\nb", operation := "😀"
    args := [("z", .arr [.float (.ofDecimal false 1 400), .float (.ofDecimal true 0 (-1)),
      .float (.ofDecimal false 1 16), .float .nan, .obj [("x", .null)]]),
      ("a", .int 100000000000000000000)]
    previousHash := "11", sequence := some 10, entryHash := some "22", signature := some "33" }

def looseLine : List Char :=
  ["\x7b\"timestamp\":\"a\\nb\",\"operation\":\"😀\",\"inputs\":[],\"outputs\":[],",
    "\"args\":\x7b\"z\":[null,-0.0,1e+16,null,\x7b\"x\":null\x7d],",
    "\"a\":100000000000000000000\x7d,\"versions\":\x7b\x7d,\"previous_hash\":\"11\",",
    "\"sequence\":10,\"entry_hash\":\"22\",\"signature\":\"33\"\x7d"].flatMap String.toList

theorem ofLine_looseText : ofLine looseText = .ok looseEntry := by
  have htokens : Json.tokens Json.strict looseText =
      [.openObject, .str "sequence", .colon, .str " 1_0.0 ", .comma, .str "timestamp", .colon,
        .str "a\nb", .comma, .str "operation", .colon, .str "", .comma, .str "operation", .colon,
        .str "😀", .comma, .str "args", .colon, .openObject, .str "z", .colon, .openArray,
        .float (.ofDecimal false 1 400), .comma, .float (.ofDecimal true 0 (-1)), .comma,
        .float (.ofDecimal false 1 16), .comma, .float .nan, .comma, .openObject, .str "x", .colon,
        .null, .closeObject, .closeArray, .comma, .str "a", .colon, .int 100000000000000000000,
        .closeObject, .comma, .str "previous_hash", .colon, .str "11", .comma, .str "entry_hash",
        .colon, .str "22", .comma, .str "signature", .colon, .str "33", .comma, .str "note", .colon,
        .openArray, .closeArray, .closeObject] := by decide +kernel
  rw [ofLine, Json.read, htokens]
  rfl

theorem loose_entry_kept :
    looseEntry.line = looseLine ∧
      ∃ e', ofLine looseLine = .ok e' ∧ e'.contentHash = looseEntry.contentHash ∧
        e'.entryHash = some "22" ∧ e'.signature = some "33" ∧ e'.sequence = some 10 ∧
        e'.previousHash = "11" ∧ e'.line = looseLine := by
  have hline : looseEntry.line = looseLine := by decide +kernel
  obtain ⟨-, e', hread, -, -, hhash, hentry, hseal, hsequence, hprevious, hsame⟩ :=
    kept_by_line ofLine_looseText
  rw [hline] at hread hsame
  exact ⟨hline, e', hread, hhash, hentry, hseal, hsequence, hprevious, hsame⟩

/-! ### Entries with the same content -/

/-- The same entries, but for hash and seal and for the order of members. -/
structure Same (e e' : Entry) : Prop where
  timestamp : e.timestamp = e'.timestamp
  operation : e.operation = e'.operation
  inputs : e.inputs = e'.inputs
  outputs : e.outputs = e'.outputs
  args : (Json.Value.obj e.args).Same (.obj e'.args)
  versions : ∀ name, e.versions.lookup name = e'.versions.lookup name
  previousHash : e.previousHash = e'.previousHash
  sequence : e.sequence = e'.sequence

theorem eq_of_same_texts {as bs : List String}
    (h : (Json.Value.arr (as.map .str)).Same (.arr (bs.map .str))) : as = bs := by
  cases h with
  | arr hlength hitems =>
    rw [List.length_map, List.length_map] at hlength
    apply List.ext_getElem hlength
    intro i hi hi'
    exact Json.Value.eq_of_same_str (hitems i _ _ (by simp [hi]) (by simp [hi']))

theorem same_versions_iff {vs ws : List (String × String)} :
    (Json.Value.obj (vs.map fun v => (v.1, .str v.2))).Same
        (.obj (ws.map fun w => (w.1, .str w.2))) ↔ ∀ name, vs.lookup name = ws.lookup name := by
  have hget : ∀ (us : List (String × String)) name,
      Json.Members.get? (us.map fun u => (u.1, .str u.2)) name = (us.lookup name).map .str :=
    fun us name => Json.lookup_map Json.Value.str us name
  constructor
  · intro h name
    cases h with
    | obj hnames hmembers =>
      have hname := hnames name
      rw [hget, hget, Option.isSome_map, Option.isSome_map] at hname
      apply Json.eq_of_isSome_eq hname
      intro s s' hs hs'
      apply Json.Value.eq_of_same_str (hmembers name _ _ _ _)
      · rw [hget, hs, Option.map_some]
      · rw [hget, hs', Option.map_some]
  · intro h
    refine .obj (fun name => by rw [hget, hget, h]) fun name v w hv hw => ?_
    rw [hget, Option.map_eq_some_iff] at hv hw
    obtain ⟨s, hs, rfl⟩ := hv
    obtain ⟨s', hs', rfl⟩ := hw
    obtain rfl := Option.some.inj (hs.symm.trans ((h name).trans hs'))
    exact .str s

theorem get?_sequence (e : Entry) :
    Json.Members.get? (e.body ++ e.sequenceMember) "sequence" = e.sequence.map .int := by
  cases hs : e.sequence <;> simp [sequenceMember, body, hs, Json.Members.get?, List.lookup_cons]

theorem same_of_content
    (h : (Json.Value.obj (e.body ++ e.sequenceMember)).Same
      (.obj (e'.body ++ e'.sequenceMember))) : e.Same e' := by
  cases h with
  | obj hnames hmembers =>
    constructor
    case timestamp => exact Json.Value.eq_of_same_str (hmembers "timestamp" _ _ rfl rfl)
    case operation => exact Json.Value.eq_of_same_str (hmembers "operation" _ _ rfl rfl)
    case inputs => exact eq_of_same_texts (hmembers "inputs" _ _ rfl rfl)
    case outputs => exact eq_of_same_texts (hmembers "outputs" _ _ rfl rfl)
    case args => exact hmembers "args" _ _ rfl rfl
    case versions => exact same_versions_iff.1 (hmembers "versions" _ _ rfl rfl)
    case previousHash => exact Json.Value.eq_of_same_str (hmembers "previous_hash" _ _ rfl rfl)
    case sequence =>
      have hname := hnames "sequence"
      rw [get?_sequence, get?_sequence, Option.isSome_map, Option.isSome_map] at hname
      apply Json.eq_of_isSome_eq hname
      intro n n' hn hn'
      apply Json.Value.eq_of_same_int (hmembers "sequence" _ _ _ _)
      · rw [get?_sequence, hn, Option.map_some]
      · rw [get?_sequence, hn', Option.map_some]

theorem Same.content_eq (h : e.Same e') (he : e.Storable (depth + 1)) (he' : e'.Storable (depth + 1)) :
    e.content = e'.content := by
  have hargs : Json.write Json.canonical (.obj e.args) = Json.write Json.canonical (.obj e'.args) :=
    h.args.write_eq rfl he.args he'.args
  have hversions : Json.write Json.canonical (.obj (e.versions.map fun v => (v.1, .str v.2))) =
      Json.write Json.canonical (.obj (e'.versions.map fun v => (v.1, .str v.2))) :=
    (same_versions_iff.2 h.versions).write_eq rfl (storable_versions he 0) (storable_versions he' 0)
  rw [Entry.content_eq, Entry.content_eq, Json.write, Json.write, Json.writeMembers_eq,
    Json.writeMembers_eq]
  simp only [body, sequenceMember, List.map_append, List.map_cons, h.timestamp, h.operation, h.inputs,
    h.outputs, hargs, hversions, h.previousHash, h.sequence]

theorem Storable.stored (h : e.Storable depth) : e.stored.Storable depth :=
  ⟨stored_plain e.args ▸ h.args.stored Json.plain, h.versions, h.sequence⟩

theorem stored_eq_of_finite (h : (Json.Value.obj e.args).Finite) : e.stored = e := by
  have hargs : (Json.Value.obj e.args).stored Json.plain = .obj e.args := h.stored_eq
  rw [stored_plain] at hargs
  rw [Entry.stored, Json.Value.obj.inj hargs]

theorem content_eq_iff_of_recordable (h : e.Recordable) (h' : e'.Recordable) :
    e.content = e'.content ↔ e.stored.Same e'.stored := by
  constructor
  · intro hcontent
    rw [content_eq, content_eq] at hcontent
    have hsame := Json.same_of_write_eq (storable_content h) (storable_content h') hcontent Json.plain
    rw [stored_content, stored_content] at hsame
    exact same_of_content hsame
  · intro hsame
    have hcontent := hsame.content_eq h.stored h'.stored
    rwa [content_stored, content_stored] at hcontent

/-- Entries are hashed by the same text if and only if they hold the same once infinities and what is
not a number are taken for `null`. Where there are none of those, no edit goes unnoticed. -/
theorem contents_tell_apart {t t' : List Char} (h : ofLine t = .ok e) (h' : ofLine t' = .ok e') :
    (e.content = e'.content ↔ e.stored.Same e'.stored) ∧
      ((Json.Value.obj e.args).Finite → (Json.Value.obj e'.args).Finite →
        (e.content = e'.content ↔ e.Same e')) := by
  have hcontent := content_eq_iff_of_recordable (recordable_of_ofLine h) (recordable_of_ofLine h')
  refine ⟨hcontent, fun hfinite hfinite' => ?_⟩
  rwa [stored_eq_of_finite hfinite, stored_eq_of_finite hfinite'] at hcontent

/-- An entry with one argument. -/
def marked (v : Json.Value) : Entry :=
  { timestamp := "", operation := "", args := [("x", v)] }

theorem ofLine_marked {v : Json.Value} {t : List Char}
    (h : Json.read Json.strict t = .ok
      (.obj [("timestamp", .str ""), ("operation", .str ""), ("args", .obj [("x", v)])])) :
    ofLine t = .ok (marked v) := by
  rw [ofLine, h]
  rfl

theorem same_of_marked {v w : Json.Value} (h : (marked v).Same (marked w)) : v.Same w := by
  have hargs := h.args
  cases hargs with
  | obj _ hmembers => exact hmembers "x" v w rfl rfl

theorem marked_same {v : Json.Value} (h : v.Same v) : (marked v).Same (marked v) := by
  refine ⟨rfl, rfl, rfl, rfl, .obj (fun _ => rfl) fun name u w hu hw => ?_, fun _ => rfl, rfl, rfl⟩
  obtain rfl := Option.some.inj (hu.symm.trans hw)
  have hnames : ((marked v).args.map (·.1)).Nodup := List.nodup_singleton "x"
  have hmem := (Json.mem_iff_lookup hnames).2 hu
  cases List.mem_singleton.1 hmem
  exact h

theorem marked_finite {v : Json.Value} (h : v.Finite) :
    (Json.Value.obj (marked v).args).Finite :=
  .obj (List.forall_mem_singleton.2 h)

theorem marked_contents :
    ((marked (.float .nan)).content = (marked .null).content ∧
        ¬ (marked (.float .nan)).Same (marked .null)) ∧
      (marked (.int 1)).content ≠ (marked .null).content := by
  have hnan : ofLine "\x7b\"timestamp\":\"\",\"operation\":\"\",\"args\":\x7b\"x\":NaN\x7d\x7d".toList =
      .ok (marked (.float .nan)) := ofLine_marked (by cbv)
  have hnull : ofLine "\x7b\"timestamp\":\"\",\"operation\":\"\",\"args\":\x7b\"x\":null\x7d\x7d".toList =
      .ok (marked .null) := ofLine_marked (by cbv)
  have hone : ofLine "\x7b\"timestamp\":\"\",\"operation\":\"\",\"args\":\x7b\"x\":1\x7d\x7d".toList =
      .ok (marked (.int 1)) := ofLine_marked (by cbv)
  refine ⟨⟨(contents_tell_apart hnan hnull).1.2 (marked_same .null), ?_⟩, ?_⟩
  · intro hsame
    cases same_of_marked hsame
  · intro hcontent
    have hsame := ((contents_tell_apart hone hnull).2 (marked_finite (.int 1)) (marked_finite .null)).1
      hcontent
    cases same_of_marked hsame

end Entry

end UpdateSeal
