import UpdateSeal.Proofs.Appending

/-!
# When a ledger gives no verdict

Whatever bytes the file of a ledger holds, its check ends with a verdict, or it stops at an entry
whose hash or seal cannot be compared because it is not ASCII. It stops there only if every entry
before is in order, and what is checked first of that entry too.
-/

namespace UpdateSeal

open UpdateSeal.Action

namespace Ledger

variable {key : Bytes} {es before rest : List Entry} {e : Entry} {tail : Tail} {f : Failure}

/-- A text that cannot be compared in constant time. -/
def Foreign (s : String) : Prop := ∃ c ∈ s.toList, 128 ≤ c.toNat

instance (s : String) : Decidable (Foreign s) :=
  inferInstanceAs (Decidable (∃ c ∈ s.toList, 128 ≤ c.toNat))

theorem compareDigests_hex_right (s : String) (b : Bytes) :
    compareDigests s (Bytes.hex b) =
      if Foreign s then .error .nonAscii else .ok (s == Bytes.hex b) := by
  have hascii : compareDigests.isAscii s = true ↔ ¬ Foreign s := by
    simp [compareDigests.isAscii, Foreign]
  rw [compareDigests, isAscii_hex, Bool.and_true]
  by_cases hs : Foreign s
  · rw [if_pos hs, if_neg (mt hascii.1 (not_not.2 hs))]
  · rw [if_neg hs, if_pos (hascii.2 hs)]

theorem not_foreign_contentHash (e : Entry) : ¬ Foreign e.contentHash := by
  intro hforeign
  have hcompare := compareDigests_contentHash e
  rw [Entry.contentHash, compareDigests_hex_right, ← Entry.contentHash, if_pos hforeign] at hcompare
  cases hcompare

/-- The checks of an entry one after another, each with what it finds. -/
theorem checkChain_cons {index : ℕ} {hash signature stated sealed : String}
    (hhash : e.entryHash = some stated) (hseal : e.signature = some sealed) :
    checkChain key index hash signature (e :: rest) =
      if Foreign stated then .error .nonAscii
      else if stated ≠ e.contentHash then .ok (some (.hash index))
      else if e.previousHash ≠ hash then .ok (some (.link index))
      else if Foreign sealed then .error .nonAscii
      else if sealed ≠ sealOf key e signature then .ok (some (.signature index))
      else if e.sequence ≠ some (index : Int) then .ok (some (.sequence index e.sequence))
      else checkChain key (index + 1) stated sealed rest := by
  have hcontent : compareDigests stated e.contentHash =
      if Foreign stated then .error .nonAscii else .ok (stated == e.contentHash) :=
    compareDigests_hex_right _ _
  have hsealed : compareDigests sealed (sealOf key e signature) =
      if Foreign sealed then .error .nonAscii else .ok (sealed == sealOf key e signature) :=
    compareDigests_hex_right _ _
  rw [checkChain, hhash, hseal]
  simp only [hcontent, hsealed]
  split_ifs <;> simp_all [bind, Except.bind, pure, Except.pure]

/-- Behind an entry with the given hash, the check cannot tell whether `e` is in order: its hash is no
ASCII, or hash and link are right and its seal is no ASCII. -/
inductive Incomparable (previous : String) (e : Entry) : Prop where
  | foreignHash {stated sealed : String} (hhash : e.entryHash = some stated)
    (hseal : e.signature = some sealed) (hforeign : Foreign stated)
  | foreignSeal {sealed : String} (hhash : e.entryHash = some e.contentHash)
    (hseal : e.signature = some sealed) (hlink : e.previousHash = previous)
    (hforeign : Foreign sealed)

/-- What the check has found out about an entry when it stops there or behind it. -/
theorem checkChain_cons_error {index : ℕ} {hash signature : String}
    (hcheck : checkChain key index hash signature (e :: rest) = .error f) :
    (f = .nonAscii ∧ Incomparable hash e) ∨
      (Continues key ⟨hash, index - 1, signature⟩ e ∧
        checkChain key (index + 1) e.contentHash (sealOf key e signature) rest = .error f) := by
  cases hhash : e.entryHash with
  | none =>
    rw [checkChain, hhash] at hcheck
    cases hcheck
  | some stated =>
    cases hseal : e.signature with
    | none =>
      rw [checkChain, hhash, hseal] at hcheck
      cases hcheck
    | some sealed =>
      rw [checkChain_cons hhash hseal] at hcheck
      split_ifs at hcheck with hforeign hcontent hlink hforeign' hsealed hsequence
      · cases hcheck
        exact .inl ⟨rfl, .foreignHash hhash hseal hforeign⟩
      · cases hcheck
        rw [not_not] at hcontent hlink
        subst hcontent
        exact .inl ⟨rfl, .foreignSeal hhash hseal hlink hforeign'⟩
      · rw [not_not] at hcontent hlink hsealed hsequence
        subst hcontent hsealed
        refine .inr ⟨⟨hlink, ?_, hhash, hseal⟩, hcheck⟩
        rw [hsequence, sub_add_cancel]

theorem Incomparable.checkChain {hash : String} (he : Incomparable hash e) (index : ℕ)
    (signature : String) (rest : List Entry) :
    checkChain key index hash signature (e :: rest) = .error .nonAscii := by
  cases he with
  | foreignHash hhash hseal hforeign => rw [checkChain_cons hhash hseal, if_pos hforeign]
  | foreignSeal hhash hseal hlink hforeign =>
    rw [checkChain_cons hhash hseal, if_neg (not_foreign_contentHash e), if_neg (not_not.2 rfl),
      if_neg (not_not.2 hlink), if_pos hforeign]

theorem Chain.incomparable_of_checkChain (h : Chain key es true)
    (hrest : checkChain key (es.length + 1) (tailOf es).hash (tailOf es).signature rest = .error f) :
    f = .nonAscii ∧ ∃ before e after, es ++ rest = before ++ e :: after ∧ Chain key before true ∧
      Incomparable (tailOf before).hash e := by
  induction rest generalizing es with
  | nil => cases hrest
  | cons e rest ih =>
    rcases checkChain_cons_error hrest with ⟨rfl, he⟩ | ⟨he, hrest⟩
    · exact ⟨rfl, es, e, rest, rfl, h, he⟩
    · have hseq := h.sequence_eq rfl (Nat.le_refl es.length)
      rw [List.take_length] at hseq
      rw [Nat.cast_add_one, add_sub_cancel_right, ← hseq] at he
      have hstop := ih (h.snoc he) (by rwa [he.tailOf, List.length_append, List.length_singleton])
      rwa [List.append_assoc, List.singleton_append] at hstop

/-- The check stops exactly at an entry that cannot be compared, behind a chain without fault. -/
theorem checkChain_eq_error_iff :
    checkChain key 1 genesis genesis es = .error f ↔
      f = .nonAscii ∧ ∃ before e after, es = before ++ e :: after ∧ Chain key before true ∧
        Incomparable (tailOf before).hash e := by
  constructor
  · exact fun h => Chain.nil.incomparable_of_checkChain h
  · rintro ⟨rfl, before, e, after, rfl, hbefore, he⟩
    rw [hbefore.checkChain_of_sound rfl]
    exact he.checkChain _ _ after

/-! ### Files of any content -/

theorem entriesOfLines_eq_error {path : Path} {number : ℕ} {lines : List (List Char)}
    (h : entriesOfLines path number lines = .error f) :
    ∃ line issues, f = .value (.ledgerEntry line path issues) := by
  induction lines generalizing number with
  | nil => cases h
  | cons line lines ih =>
    rw [entriesOfLines] at h
    split at h
    · exact ih h
    · split at h
      · cases h
        exact ⟨_, _, rfl⟩
      · cases hlines : entriesOfLines path (number + 1) lines with
        | ok es =>
          rw [hlines] at h
          cases h
        | error f' =>
          rw [hlines] at h
          cases h
          exact ih hlines

theorem entriesOf_eq_error {path : Path} {content : Bytes} (h : entriesOf path content = .error f) :
    (∃ line issues, f = .value (.ledgerEntry line path issues)) ∨ f = .encoding := by
  unfold entriesOf at h
  split at h
  · cases hlines : entriesOfLines path 1 (Text.linesBeforeFault content) with
    | ok es =>
      rw [hlines] at h
      cases h
      exact .inr rfl
    | error f' =>
      rw [hlines] at h
      cases h
      exact .inl (entriesOfLines_eq_error hlines)
  · exact .inl (entriesOfLines_eq_error h)

theorem verdictOf_entriesOf (key : Bytes) (path : Path) (content : Bytes) :
    ((∃ v, verdictOf key (entriesOf path content) = .ok v) ∧
      ¬ ∃ es, entriesOf path content = .ok es ∧ checkChain key 1 genesis genesis es = .error .nonAscii) ∨
    (verdictOf key (entriesOf path content) = .error .nonAscii ∧
      ∃ es, entriesOf path content = .ok es ∧
        checkChain key 1 genesis genesis es = .error .nonAscii) := by
  cases hes : entriesOf path content with
  | error f =>
    refine .inl ⟨?_, nofun⟩
    rcases entriesOf_eq_error hes with ⟨line, issues, rfl⟩ | rfl
    · exact ⟨.unreadable line path, rfl⟩
    · exact ⟨.notText, rfl⟩
  | ok es =>
    cases hcheck : checkChain key 1 genesis genesis es with
    | error f =>
      obtain ⟨rfl, -⟩ := checkChain_eq_error_iff.1 hcheck
      refine .inr ⟨?_, es, rfl, hcheck⟩
      simp only [verdictOf, ok_bind, hcheck]
    | ok r =>
      refine .inl ⟨?_, ?_⟩
      · simp only [verdictOf, ok_bind, hcheck]
        cases r <;> exact ⟨_, rfl⟩
      · rintro ⟨_, ⟨⟩, hstop⟩
        cases hcheck.symm.trans hstop

/-- Whatever its file holds, the check of a ledger answers that all is in order or tells what is not,
unless it comes to an entry that it cannot compare. -/
theorem verify_answers {l : Ledger} {h : Host} {b : Bytes} (hb : h.Holds l.path b) :
    ((∃ v, runOn l.verify h = (.ok v, h) ∧
        ((v.isValid, v.message) = (true, none) ∨ ∃ text, (v.isValid, v.message) = (false, some text))) ∨
      runOn l.verify h = (.error .nonAscii, h)) ∧
      (runOn l.verify h = (.error .nonAscii, h) ↔
        ∃ before e after, entriesOf l.path b = .ok (before ++ e :: after) ∧
          Chain l.key before true ∧ Incomparable (tailOf before).hash e) := by
  have hstop : (∃ es, entriesOf l.path b = .ok es ∧
      checkChain l.key 1 genesis genesis es = .error .nonAscii) ↔
        ∃ before e after, entriesOf l.path b = .ok (before ++ e :: after) ∧
          Chain l.key before true ∧ Incomparable (tailOf before).hash e := by
    simp only [checkChain_eq_error_iff, true_and]
    constructor
    · rintro ⟨_, hes, before, e, after, rfl, hchain, he⟩
      exact ⟨before, e, after, hes, hchain, he⟩
    · rintro ⟨before, e, after, hes, hchain, he⟩
      exact ⟨_, hes, before, e, after, rfl, hchain, he⟩
  rw [runOn_verify, Host.ledgerEntries_of_holds hb, ← hstop]
  rcases verdictOf_entriesOf l.key l.path b with ⟨⟨v, hv⟩, hnone⟩ | ⟨hv, hstopped⟩
  · rw [hv]
    refine ⟨.inl ⟨v, rfl, ?_⟩, iff_of_false nofun hnone⟩
    by_cases hvalid : v = .valid
    · subst hvalid
      exact .inl rfl
    · obtain ⟨hinvalid, text, htext⟩ := Verdict.message_of_ne_valid hvalid
      exact .inr ⟨text, Prod.ext hinvalid htext⟩
  · rw [hv]
    exact ⟨.inr rfl, iff_of_true rfl hstopped⟩

/-- An entry with a hash that is no ASCII. -/
def foreignEntry : Entry := { firstEntry with entryHash := some "é" }

theorem foreignEntry_recordable : foreignEntry.Recordable :=
  ⟨firstEntry_recordable.args, firstEntry_recordable.versions, firstEntry_recordable.sequence⟩

theorem foreignEntry_verify :
    runOn (⟨ledgerPath, [7], {}⟩ : Ledger).verify (ledgerHost (String.ofList foreignEntry.line)) =
      (.error .nonAscii, ledgerHost (String.ofList foreignEntry.line)) := by
  have hb := ledgerHost_holds (String.ofList foreignEntry.line)
  obtain ⟨-, hstop⟩ := verify_answers (l := ⟨ledgerPath, [7], {}⟩) hb
  have hforeign : Foreign "é" := ⟨'é', by decide, by decide⟩
  refine hstop.2 ⟨[], foreignEntry.stored, [], ?_, .nil, .foreignHash rfl rfl hforeign⟩
  exact entriesOf_line foreignEntry_recordable

end Ledger

end UpdateSeal
