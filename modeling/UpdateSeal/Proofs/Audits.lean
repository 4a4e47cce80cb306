import Mathlib.Data.List.Induction
import UpdateSeal.Proofs.LedgerFiles

/-!
# What the check of a ledger says

The check goes through the entries that the file of a ledger holds. It finds no fault if and only if
every entry continues the chain of those before it. Such a chain may be cut behind any entry, and be
continued by one more.
-/

namespace UpdateSeal

open UpdateSeal.Action

namespace Ledger

variable {key : Bytes} {es rest : List Entry} {e : Entry}

/-! ### Chains without fault -/

theorem eq_of_compareDigests {a b : String} (h : compareDigests a b = .ok true) : a = b := by
  unfold compareDigests at h
  split at h
  · exact eq_of_beq (Except.ok.inj h)
  · cases h

theorem continues_of_checkChain {index : ℕ} {hash signature : String}
    (h : checkChain key index hash signature (e :: rest) = .ok none) :
    Continues key ⟨hash, index - 1, signature⟩ e ∧
      checkChain key (index + 1) e.contentHash (sealOf key e signature) rest = .ok none := by
  rw [checkChain] at h
  split at h
  · next stated sealed hhash hseal =>
    simp only [bind_eq_ok_iff, stop_eq_ok_none_iff] at h
    obtain ⟨same, hcontent, hsame, hlink, same', hsignature, hsame', hsequence, hrest⟩ := h
    obtain rfl : same = true := by simpa using hsame
    obtain rfl : same' = true := by simpa using hsame'
    obtain rfl := eq_of_compareDigests hcontent
    obtain rfl := eq_of_compareDigests hsignature
    rw [not_not] at hlink hsequence
    refine ⟨⟨hlink, ?_, hhash, hseal⟩, hrest⟩
    rw [hsequence, sub_add_cancel]
  · cases h

namespace Chain

theorem snoc (h : Chain key es true) (he : Continues key (tailOf es) e) :
    Chain key (es ++ [e]) true := by
  have hchain := h.append (Nat.le_refl es.length) (by rwa [List.take_length])
  rwa [beq_self_eq_true, Bool.and_true] at hchain

theorem of_concat (h : Chain key (es ++ [e]) true) :
    Chain key es true ∧ Continues key (tailOf es) e := by
  obtain ⟨sound, hsound⟩ : ∃ sound, sound = true := ⟨true, rfl⟩
  rw [← hsound] at h
  generalize hes : es ++ [e] = es' at h
  cases h with
  | nil => simp at hes
  | append h hn he =>
    obtain ⟨rfl, hlast⟩ := List.append_inj' hes rfl
    obtain rfl := List.singleton_inj.1 hlast
    rw [Bool.and_eq_true, beq_iff_eq] at hsound
    obtain ⟨rfl, rfl⟩ := hsound
    rw [List.take_length] at he
    exact ⟨h, he⟩

theorem take (h : Chain key es true) (k : ℕ) : Chain key (es.take k) true := by
  induction es using List.reverseRecOn with
  | nil => rwa [List.take_nil]
  | append_singleton es e ih =>
    rcases Nat.lt_or_ge es.length k with hlt | hle
    · rwa [List.take_of_length_le (by simpa using Nat.succ_le_of_lt hlt)]
    · rw [take_append_of_le e hle]
      exact ih h.of_concat.1

theorem continues (h : Chain key es true) {j : ℕ} (hj : es[j]? = some e) :
    Continues key (tailOf (es.take j)) e := by
  have htake := h.take (j + 1)
  rw [List.take_add_one, hj, Option.toList_some] at htake
  exact htake.of_concat.2

theorem append_of_checkChain (h : Chain key es true)
    (hrest : checkChain key (es.length + 1) (tailOf es).hash (tailOf es).signature rest =
      .ok none) :
    Chain key (es ++ rest) true := by
  induction rest generalizing es with
  | nil => rwa [List.append_nil]
  | cons e rest ih =>
    obtain ⟨he, hrest⟩ := continues_of_checkChain hrest
    have hseq := h.sequence_eq rfl (Nat.le_refl es.length)
    rw [List.take_length] at hseq
    rw [Nat.cast_add_one, add_sub_cancel_right, ← hseq] at he
    have hchain := ih (h.snoc he) (by rwa [he.tailOf, List.length_append, List.length_singleton])
    rwa [List.append_assoc, List.singleton_append] at hchain

end Chain

/-- The check finds no fault if and only if every entry continues the chain of those before it. -/
theorem checkChain_eq_none_iff :
    checkChain key 1 genesis genesis es = .ok none ↔ Chain key es true := by
  constructor
  · exact fun h => Chain.append_of_checkChain .nil h
  · intro h
    obtain ⟨r, hcheck, hr⟩ := h.checkChain_eq
    rw [hcheck, hr.2 rfl]

theorem Continues.stored {tail : Tail} (h : Continues key tail e) :
    Continues key tail e.stored :=
  ⟨h.previousHash, h.sequence, h.entryHash.trans (congrArg some (Entry.contentHash_stored e).symm),
    h.signature⟩

theorem chain_map_stored_iff : Chain key (es.map Entry.stored) true ↔ Chain key es true := by
  rw [← checkChain_eq_none_iff, ← checkChain_eq_none_iff, checkChain_stored]

theorem exists_checkChain (hes : ∀ e ∈ es, ∃ tail, Continues key tail e) (index : ℕ)
    (hash signature : String) : ∃ r, checkChain key index hash signature es = .ok r := by
  induction es generalizing index hash signature with
  | nil => exact ⟨none, rfl⟩
  | cons e es ih =>
    obtain ⟨⟨tail, he⟩, hes⟩ := List.forall_mem_cons.1 hes
    obtain ⟨r, hr⟩ := ih hes (index + 1) e.contentHash (sealOf key e tail.signature)
    obtain ⟨same, hseal⟩ := exists_compareDigests_sealOf key e tail.signature signature
    rw [checkChain, he.entryHash, he.signature]
    simp only [compareDigests_contentHash, hseal, ok_bind, hr]
    split_ifs <;> exact ⟨_, rfl⟩

/-! ### Verdicts -/

/-- The verdict on a file, by what reading it gave. A fault that does not come from what the file
holds is none. -/
def verdictOf (key : Bytes) (entries : Except Failure (List Entry)) : Except Failure Verdict :=
  match entries >>= checkChain key 1 genesis genesis with
  | .ok none => .ok .valid
  | .ok (some fault) => .ok (.broken fault)
  | .error (.value (.ledgerEntry line path _)) => .ok (.unreadable line path)
  | .error .encoding => .ok .notText
  | .error e => .error e

theorem runOn_verify (l : Ledger) (h : Host) :
    runOn l.verify h = (verdictOf l.key (h.ledgerEntries l.path), h) := by
  rw [verify, runOn_tryCatch, runOn_bind, readEntries, Host.runOn_entriesAt, verdictOf]
  cases h.ledgerEntries l.path with
  | error e => cases e with
    | value e => cases e <;> rfl
    | _ => rfl
  | ok es =>
    simp only [ok_bind, runOn_bind]
    cases checkChain l.key 1 genesis genesis es with
    | error e => cases e with
      | value e => cases e <;> rfl
      | _ => rfl
    | ok r => cases r <;> rfl

theorem verdictOf_eq_valid_iff {r : Except Failure (List Entry)} :
    verdictOf key r = .ok .valid ↔ ∃ es, r = .ok es ∧ Chain key es true := by
  have hvalid : verdictOf key r = .ok .valid ↔
      r >>= checkChain key 1 genesis genesis = .ok none := by
    unfold verdictOf
    split <;> simp_all
  rw [hvalid, bind_eq_ok_iff]
  simp only [checkChain_eq_none_iff]

theorem Verdict.message_of_ne_valid {v : Verdict} (hv : v ≠ .valid) :
    v.isValid = false ∧ ∃ text, v.message = some text := by
  refine ⟨beq_eq_false_iff_ne.2 hv, ?_⟩
  cases v with
  | valid => exact absurd rfl hv
  | _ => exact ⟨_, rfl⟩

theorem runOn_readEntries (l : Ledger) (h : Host) :
    runOn l.readEntries h = (h.ledgerEntries l.path, h) := Host.runOn_entriesAt l.path h

/-- A ledger is found valid only if what is read from it is a chain without fault. -/
theorem chain_of_verify {l : Ledger} {h : Host} (hverify : (runOn l.verify h).1 = .ok .valid)
    (hread : (runOn l.readEntries h).1 = .ok es) : Chain l.key es true := by
  rw [runOn_verify, verdictOf_eq_valid_iff] at hverify
  obtain ⟨es', hes', hchain⟩ := hverify
  rw [runOn_readEntries, hes'] at hread
  exact Except.ok.inj hread ▸ hchain

end Ledger

end UpdateSeal
