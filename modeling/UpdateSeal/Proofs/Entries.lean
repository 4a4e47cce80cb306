import UpdateSeal.Ledger.Entry
import UpdateSeal.Proofs.Fields
import UpdateSeal.Proofs.Limits
import UpdateSeal.Proofs.Printing
import UpdateSeal.Proofs.Texts

/-!
# Entries are read back from their lines

The line of an entry holds all its fields, so reading it gives the entry again with its arguments as
they were stored. Nothing that is hashed is lost on the way.
-/

namespace UpdateSeal

open Validation

theorem Validation.Checked.all_map_ok {α : Type} (as : List α) :
    Checked.all (as.map fun a => (Except.ok a : Checked α)) = .ok as := by
  induction as with
  | nil => rfl
  | cons a as ih =>
    rw [List.map_cons, Checked.all, ih]
    rfl

namespace Entry

def lineMembers (e : Entry) : Json.Members :=
  e.body ++ [("sequence", numberOrNull e.sequence), ("entry_hash", textOrNull e.entryHash),
    ("signature", textOrNull e.signature)]

theorem line_eq (e : Entry) : e.line = Json.write Json.plain (.obj e.lineMembers) := rfl

/-- An entry whose line holds it all. Its arguments nest at most so deep. -/
structure Storable (depth : ℕ) (e : Entry) : Prop where
  args : (Json.Value.obj e.args).Storable depth
  versions : (e.versions.map (·.1)).Nodup
  sequence : ∀ n, e.sequence = some n → 1 ≤ n ∧ Json.Bounded n

/-- An entry that can be read back from its line. -/
abbrev Recordable (e : Entry) : Prop := e.Storable 199

/-- An entry whose line holds it all, though more may be written than is read. -/
structure Writable (e : Entry) : Prop where
  args : (Json.Value.obj e.args).Named
  versions : (e.versions.map (·.1)).Nodup
  sequence : ∀ n, e.sequence = some n → 1 ≤ n

theorem Storable.writable {depth : ℕ} {e : Entry} (h : e.Storable depth) : e.Writable :=
  ⟨h.args.named, h.versions, fun n hn => (h.sequence n hn).1⟩

/-- The entry that is read back. -/
def stored (e : Entry) : Entry :=
  { e with args := e.args.map fun m => (m.1, m.2.stored Json.plain) }

variable {e : Entry} {depth : ℕ}

theorem storable_texts (n : ℕ) (texts : List String) :
    (Json.Value.arr (texts.map .str)).Storable (n + 1) := by
  refine .arr nofun ?_
  rw [List.forall_mem_map]
  exact fun s _ => .str n s

theorem storable_textOrNull (n : ℕ) (s : Option String) : (textOrNull s).Storable n := by
  cases s with
  | none => exact .null n
  | some s => exact .str n s

theorem storable_numberOrNull (n : ℕ) {k : Option ℤ} (hk : ∀ i, k = some i → Json.Bounded i) :
    (numberOrNull k).Storable n := by
  cases k with
  | none => exact .null n
  | some i => exact .int n (hk i rfl)

theorem storable_versions (h : e.Storable depth) (n : ℕ) :
    (Json.Value.obj (e.versions.map fun v => (v.1, .str v.2))).Storable (n + 1) := by
  refine .obj nofun ?_ ?_
  · rw [List.map_map]
    exact h.versions
  · rw [List.forall_mem_map]
    exact fun v _ => .str n v.2

def bodyNames : List String :=
  ["timestamp", "operation", "inputs", "outputs", "args", "versions", "previous_hash"]

theorem storable_body (h : e.Storable (depth + 1)) {extra : Json.Members}
    (hnames : (bodyNames ++ extra.map (·.1)).Nodup)
    (hextra : ∀ m ∈ extra, m.2.Storable (depth + 1)) :
    (Json.Value.obj (e.body ++ extra)).Storable (depth + 2) := by
  refine .obj nofun ?_ ?_
  · rw [List.map_append]
    exact hnames
  · apply List.forall_mem_append.2 ⟨_, hextra⟩
    simp only [body, List.forall_mem_cons]
    exact ⟨.str _ _, .str _ _, storable_texts depth _, storable_texts depth _, h.args,
      storable_versions h depth, .str _ _, List.forall_mem_nil _⟩

theorem names_lineMembers : (bodyNames ++ ["sequence", "entry_hash", "signature"]).Nodup := by
  decide

theorem storable_lineMembers (h : e.Storable (depth + 1)) :
    (Json.Value.obj e.lineMembers).Storable (depth + 2) := by
  apply storable_body h
  · exact names_lineMembers
  · simp only [List.forall_mem_cons]
    exact ⟨storable_numberOrNull _ fun n hn => (h.sequence n hn).2, storable_textOrNull _ _,
      storable_textOrNull _ _, List.forall_mem_nil _⟩

theorem named_lineMembers (h : e.Writable) : (Json.Value.obj e.lineMembers).Named := by
  have htexts : ∀ texts : List String, (Json.Value.arr (texts.map .str)).Named := fun texts =>
    (storable_texts 0 texts).named
  have hversions : (Json.Value.obj (e.versions.map fun v => (v.1, .str v.2))).Named := by
    refine .obj ?_ (List.forall_mem_map.2 fun v _ => .str v.2)
    rw [List.map_map]
    exact h.versions
  have hsequence : (numberOrNull e.sequence).Named := by
    cases e.sequence
    · exact .null
    · exact .int _
  refine .obj names_lineMembers ?_
  simp only [lineMembers, body, List.cons_append, List.nil_append, List.forall_mem_cons]
  exact ⟨.str _, .str _, htexts _, htexts _, h.args, hversions, .str _, hsequence,
    (storable_textOrNull 0 _).named, (storable_textOrNull 0 _).named, List.forall_mem_nil _⟩

theorem stored_texts (texts : List String) :
    (Json.Value.arr (texts.map .str)).stored Json.plain = .arr (texts.map .str) := by
  rw [Json.Value.stored, Json.Value.storedItems_eq, List.map_map]
  rfl

theorem stored_plain (ms : Json.Members) :
    (Json.Value.obj ms).stored Json.plain = .obj (ms.map fun m => (m.1, m.2.stored Json.plain)) :=
  Json.Value.stored_obj ms

theorem stored_versions (versions : List (String × String)) :
    (Json.Value.obj (versions.map fun v => (v.1, .str v.2))).stored Json.plain =
      .obj (versions.map fun v => (v.1, .str v.2)) := by
  rw [stored_plain, List.map_map]
  rfl

theorem stored_body (e : Entry) {extra : Json.Members}
    (hextra : ∀ m ∈ extra, m.2.stored Json.plain = m.2) :
    (Json.Value.obj (e.body ++ extra)).stored Json.plain = .obj (e.stored.body ++ extra) := by
  have hextra' : extra.map (fun m => (m.1, m.2.stored Json.plain)) = extra := by
    calc extra.map (fun m => (m.1, m.2.stored Json.plain))
        = extra.map id := List.map_congr_left fun m hm => Prod.ext rfl (hextra m hm)
      _ = extra := List.map_id extra
  rw [stored_plain, List.map_append, hextra']
  simp only [body, List.map_cons, List.map_nil, stored_texts, stored_versions, stored_plain e.args]
  rfl

theorem stored_lineMembers (e : Entry) :
    (Json.Value.obj e.lineMembers).stored Json.plain = .obj e.stored.lineMembers := by
  apply stored_body
  simp only [List.forall_mem_cons]
  refine ⟨?_, ?_, ?_, List.forall_mem_nil _⟩
  · cases e.sequence <;> rfl
  · cases e.entryHash <;> rfl
  · cases e.signature <;> rfl

theorem list_texts (name : String) (texts : List String) :
    list name text (.arr (texts.map .str)) = .ok texts := by
  have hitems : (texts.map Json.Value.str).zipIdx.map
      (fun p => Checked.at [name, toString p.2] (text p.1)) =
        (texts.zipIdx.map Prod.fst).map .ok := by
    rw [List.zipIdx_map, List.map_map, List.map_map]
    rfl
  rw [List.zipIdx_map_fst] at hitems
  rw [list, hitems, Checked.all_map_ok]

theorem textMembers_texts (name : String) (texts : List (String × String)) :
    textMembers name (.obj (texts.map fun p => (p.1, .str p.2))) = .ok texts := by
  rw [textMembers, List.map_map]
  exact Checked.all_map_ok texts

theorem nullable_textOrNull (s : Option String) : nullable text (textOrNull s) = .ok s := by
  cases s <;> rfl

theorem nullable_numberOrNull {n : Option ℤ} (hn : ∀ k, n = some k → 1 ≤ k) :
    nullable (integerFrom 1) (numberOrNull n) = .ok n := by
  cases n with
  | none => rfl
  | some k =>
    have hk := integerFrom_eq_ok_iff.2 ⟨(rfl : integer (.int k) = .ok k), hn k rfl⟩
    rw [numberOrNull, nullable, hk]
    · rfl
    · simp

theorem ofMembers_lineMembers (h : ∀ n, e.sequence = some n → 1 ≤ n) :
    ofMembers e.lineMembers = .ok e := by
  simp [ofMembers, Validation.required, Validation.optional, lineMembers, body, Json.Members.get?,
    List.lookup_cons, list_texts, textMembers_texts, nullable_textOrNull, nullable_numberOrNull h,
    single, Checked.at, Checked.and, text, object, Except.map]

/-- An entry is read back from its line. -/
theorem ofLine_line (h : e.Recordable) : ofLine e.line = .ok e.stored := by
  have hread : Json.read Json.strict (Json.write Json.plain (.obj e.lineMembers)) = _ :=
    Json.read_write_obj (storable_lineMembers h) (Json.hasDepth_strict (by decide))
  rw [stored_lineMembers] at hread
  rw [ofLine, line_eq, hread]
  exact ofMembers_lineMembers fun n hn => (h.sequence n hn).1

theorem read_of_ofLine (h : e.Writable) {e' : Entry} (hread : ofLine e.line = .ok e') :
    Json.read Json.strict e.line = .ok (.obj e.stored.lineMembers) := by
  rw [ofLine, line_eq] at hread
  cases hvalue : Json.read Json.strict (Json.write Json.plain (.obj e.lineMembers)) with
  | error fault =>
    rw [hvalue] at hread
    cases hread
  | ok v =>
    rw [line_eq, hvalue, Json.eq_stored_of_read rfl (named_lineMembers h) hvalue,
      stored_lineMembers]

/-- An entry is read back from its line or not read at all. -/
theorem eq_stored_of_ofLine (h : e.Writable) {e' : Entry} (hread : ofLine e.line = .ok e') :
    e' = e.stored := by
  have hvalue := read_of_ofLine h hread
  rw [ofLine, hvalue] at hread
  exact Except.ok.inj (hread.symm.trans (ofMembers_lineMembers h.sequence))

def sequenceMember (e : Entry) : Json.Members :=
  (e.sequence.map fun n => ("sequence", .int n)).toList

theorem content_eq (e : Entry) :
    e.content = Json.write Json.canonical (.obj (e.body ++ e.sequenceMember)) := by
  cases hs : e.sequence <;> simp [content, sequenceMember, hs]

theorem storable_content (h : e.Storable (depth + 1)) :
    (Json.Value.obj (e.body ++ e.sequenceMember)).Storable (depth + 2) := by
  apply storable_body h
  · have hsub : (e.sequenceMember.map (·.1)).Sublist ["sequence"] := by
      cases hs : e.sequence <;> simp [sequenceMember, hs]
    exact (hsub.append_left bodyNames).nodup (by decide)
  · intro m hm
    obtain ⟨n, hn, rfl⟩ := Option.map_eq_some_iff.1 (Option.mem_toList.1 hm)
    exact .int _ (h.sequence n hn).2

theorem stored_content (e : Entry) :
    (Json.Value.obj (e.body ++ e.sequenceMember)).stored Json.plain =
      .obj (e.stored.body ++ e.stored.sequenceMember) := by
  apply stored_body
  intro m hm
  obtain ⟨n, -, rfl⟩ := Option.map_eq_some_iff.1 (Option.mem_toList.1 hm)
  rfl

/-- An entry has the same content when it is read back: a number that is stored as `null` was hashed
as `null` too. -/
theorem content_stored (e : Entry) : e.stored.content = e.content := by
  have hwrite : Json.write Json.canonical (Json.Value.stored Json.plain _) = _ :=
    Json.write_stored rfl (.obj (e.body ++ e.sequenceMember))
  rwa [stored_content, ← content_eq, ← content_eq] at hwrite

theorem contentHash_stored (e : Entry) : e.stored.contentHash = e.contentHash := by
  rw [contentHash, contentHash, content_stored]

theorem line_stored (e : Entry) : e.stored.line = e.line := by
  have hwrite : Json.write Json.plain (Json.Value.stored Json.plain _) = _ :=
    Json.write_stored rfl (.obj e.lineMembers)
  rwa [stored_lineMembers, ← line_eq, ← line_eq] at hwrite

theorem line_ends (e : Entry) : ∃ cs, e.line = '\x7b' :: cs ++ ['\x7d'] := by
  rw [line_eq, Json.write_obj]
  exact ⟨_, rfl⟩

theorem unbroken_line (e : Entry) : Text.Unbroken e.line := by
  intro c hc
  have hprint := Json.printable_write Json.plain _ c hc
  constructor <;> rintro rfl <;> exact absurd hprint (by decide)

end Entry

end UpdateSeal
