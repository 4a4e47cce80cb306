import UpdateSeal.Ledger.Basic
import UpdateSeal.Proofs.Entries

/-!
# Chains of entries

Entries with one key are appended by several open ledgers, each of which continues the chain from
the end that it remembers. The chain is found sound if and only if every entry was made at the end
of the chain as it then was: the first one that was not carries a number that was taken before.
-/

namespace UpdateSeal

theorem Bytes.hex_ne_empty {b : Bytes} (hb : b ≠ []) : hex b ≠ "" := by
  obtain ⟨c, b, rfl⟩ := List.exists_cons_of_ne_nil hb
  intro h
  have hlist := congrArg String.toList h
  simp [hex, hexChars] at hlist

theorem sha256_ne_nil (b : Bytes) : sha256 b ≠ [] :=
  List.ne_nil_of_length_pos (by rw [length_sha256]; decide)

namespace Ledger

variable {key : Bytes} {tail : Tail} {e : Entry} {es rest : List Entry}

theorem isAscii_hex (b : Bytes) : compareDigests.isAscii (Bytes.hex b) := by
  rw [compareDigests.isAscii, List.all_eq_true, Bytes.hex, String.toList_ofList]
  exact fun c hc => decide_eq_true (Bytes.toNat_lt_of_mem_hexChars hc)

theorem compareDigests_hex (a b : Bytes) :
    compareDigests (Bytes.hex a) (Bytes.hex b) = .ok (Bytes.hex a == Bytes.hex b) := by
  rw [compareDigests, isAscii_hex, isAscii_hex]
  rfl

/-! ### Entries that continue a chain -/

/-- `e` continues a chain that ends with `tail`. -/
structure Continues (key : Bytes) (tail : Tail) (e : Entry) : Prop where
  previousHash : e.previousHash = tail.hash
  sequence : e.sequence = some (tail.sequence + 1)
  entryHash : e.entryHash = some e.contentHash
  signature : e.signature = some (sealOf key e tail.signature)

theorem continues_nextEntry (key : Bytes) (tail : Tail) (timestamp operation : String)
    (inputs outputs : List String) (args : Json.Members) :
    Continues key tail (nextEntry key tail timestamp operation inputs outputs args) :=
  ⟨rfl, rfl, rfl, rfl⟩

theorem contentHash_ne_empty (e : Entry) : e.contentHash ≠ "" :=
  Bytes.hex_ne_empty (sha256_ne_nil _)

theorem sealOf_ne_empty (key : Bytes) (e : Entry) (previousSeal : String) :
    sealOf key e previousSeal ≠ "" := Bytes.hex_ne_empty (sha256_ne_nil _)

theorem Continues.tailOf (h : Continues key tail e) (es : List Entry) :
    tailOf (es ++ [e]) = ⟨e.contentHash, tail.sequence + 1, sealOf key e tail.signature⟩ := by
  simp [Ledger.tailOf, h.entryHash, h.sequence, h.signature, contentHash_ne_empty, sealOf_ne_empty]

theorem tailOf_stored (es : List Entry) : tailOf (es.map Entry.stored) = tailOf es := by
  rw [tailOf, tailOf, List.getLast?_map, List.length_map]
  cases es.getLast? <;> rfl

/-! ### Checking -/

theorem compareDigests_contentHash (e : Entry) :
    compareDigests e.contentHash e.contentHash = .ok true := by
  rw [Entry.contentHash, compareDigests_hex, beq_self_eq_true]

theorem exists_compareDigests_sealOf (key : Bytes) (e : Entry) (previous previous' : String) :
    ∃ same, compareDigests (sealOf key e previous) (sealOf key e previous') = .ok same :=
  ⟨_, compareDigests_hex _ _⟩

variable {index : ℕ} {hash signature : String}

theorem Continues.checkChain (h : Continues key tail e) (hindex : tail.sequence + 1 = index)
    (rest : List Entry) :
    checkChain key index tail.hash tail.signature (e :: rest) =
      Ledger.checkChain key (index + 1) e.contentHash (sealOf key e tail.signature) rest := by
  have hseal : compareDigests (sealOf key e tail.signature) (sealOf key e tail.signature) =
      .ok true := by
    rw [sealOf, compareDigests_hex, beq_self_eq_true]
  rw [Ledger.checkChain, h.entryHash, h.signature]
  simp [compareDigests_contentHash, hseal, h.previousHash, h.sequence, hindex, bind, Except.bind]

theorem Continues.checkChain_stale (h : Continues key tail e) (hindex : tail.sequence + 1 ≠ index)
    (hash signature : String) :
    ∃ fault, ∀ rest, Ledger.checkChain key index hash signature (e :: rest) = .ok (some fault) := by
  obtain ⟨same, hseal⟩ := exists_compareDigests_sealOf key e tail.signature signature
  -- the link or the seal may fail first; where both hold, the number does not
  simp only [Ledger.checkChain, h.entryHash, h.signature, compareDigests_contentHash, hseal,
    h.sequence, bind, Except.bind]
  by_cases hlink : e.previousHash = hash
  · cases same with
    | false => exact ⟨_, fun rest => by simp [hlink]; rfl⟩
    | true => exact ⟨_, fun rest => by simp [hlink, hindex]; rfl⟩
  · exact ⟨_, fun rest => by simp [hlink]; rfl⟩

theorem checkChain_stored (es : List Entry) (key : Bytes) (index : ℕ) (hash signature : String) :
    checkChain key index hash signature (es.map Entry.stored) =
      checkChain key index hash signature es := by
  induction es generalizing index hash signature with
  | nil => rfl
  | cons e es ih =>
    have hseal : ∀ s, sealOf key e.stored s = sealOf key e s := fun s => rfl
    have hentry : e.stored.entryHash = e.entryHash := rfl
    have hsignature : e.stored.signature = e.signature := rfl
    have hprevious : e.stored.previousHash = e.previousHash := rfl
    have hsequence : e.stored.sequence = e.sequence := rfl
    rw [List.map_cons, checkChain, checkChain]
    simp only [hentry, hsignature, hprevious, hsequence, hseal, Entry.contentHash_stored, ih]

/-! ### Chains that several ledgers write -/

/-- Entries in the order in which they were appended, each continuing the chain as it was at some
time before. `sound` says that every one continued it at its end. -/
inductive Chain (key : Bytes) : List Entry → Bool → Prop where
  | nil : Chain key [] true
  | append {es : List Entry} {sound : Bool} {n : ℕ} {e : Entry} (h : Chain key es sound)
    (hn : n ≤ es.length) (he : Continues key (tailOf (es.take n)) e) :
    Chain key (es ++ [e]) (sound && n == es.length)

namespace Chain

variable {sound : Bool}

theorem take_append_of_le {n : ℕ} (e : Entry) (hn : n ≤ es.length) :
    (es ++ [e]).take n = es.take n := List.take_append_of_le_length hn

theorem sequence_bounds (h : Chain key es sound) {n : ℕ} (hn : n ≤ es.length) :
    0 ≤ (tailOf (es.take n)).sequence ∧ (tailOf (es.take n)).sequence ≤ n := by
  induction h generalizing n with
  | nil => simp [tailOf]
  | @append es _ m e _ hm he ih =>
    rcases Nat.lt_or_ge es.length n with hlt | hle
    · obtain rfl : n = es.length + 1 := by
        rw [List.length_append, List.length_singleton] at hn
        omega
      have hbounds := ih hm
      rw [List.take_of_length_le (by simp), he.tailOf]
      simp only
      omega
    · rw [take_append_of_le e hle]
      exact ih hle

theorem sequence_eq (h : Chain key es sound) (hsound : sound = true) {n : ℕ} (hn : n ≤ es.length) :
    (tailOf (es.take n)).sequence = n := by
  induction h generalizing n with
  | nil =>
    obtain rfl : n = 0 := by simpa using hn
    rfl
  | @append es _ m e _ hm he ih =>
    rw [Bool.and_eq_true, beq_iff_eq] at hsound
    obtain ⟨hsound, rfl⟩ := hsound
    rcases Nat.lt_or_ge es.length n with hlt | hle
    · obtain rfl : n = es.length + 1 := by
        rw [List.length_append, List.length_singleton] at hn
        omega
      rw [List.take_of_length_le (by simp), he.tailOf, ih hsound hm]
      rfl
    · rw [take_append_of_le e hle]
      exact ih hsound hle

theorem checkChain_of_sound (h : Chain key es sound) (hsound : sound = true) (rest : List Entry) :
    checkChain key 1 genesis genesis (es ++ rest) =
      checkChain key (es.length + 1) (tailOf es).hash (tailOf es).signature rest := by
  induction h generalizing rest with
  | nil => rfl
  | @append es sound m e h hm he ih =>
    rw [Bool.and_eq_true, beq_iff_eq] at hsound
    obtain ⟨hsound, rfl⟩ := hsound
    have hseq := h.sequence_eq hsound (Nat.le_refl es.length)
    rw [List.take_length] at he hseq
    have hindex : (tailOf es).sequence + 1 = (es.length + 1 : ℕ) := by
      rw [hseq]
      rfl
    rw [List.append_assoc, List.singleton_append, ih hsound, he.checkChain hindex, he.tailOf,
      List.length_append, List.length_singleton]

theorem checkChain_of_not_sound (h : Chain key es sound) (hsound : sound = false) :
    ∃ fault, ∀ rest, checkChain key 1 genesis genesis (es ++ rest) = .ok (some fault) := by
  induction h with
  | nil => cases hsound
  -- all entries before the first stale one pass, so it is this one that is found
  | @append es sound m e h hm he ih =>
    simp only [List.append_assoc, List.singleton_append]
    cases sound with
    | false =>
      obtain ⟨fault, hfault⟩ := ih rfl
      exact ⟨fault, fun rest => hfault (e :: rest)⟩
    | true =>
      rw [Bool.true_and, beq_eq_false_iff_ne] at hsound
      have hindex : (tailOf (es.take m)).sequence + 1 ≠ (es.length + 1 : ℕ) := by
        rw [h.sequence_eq rfl hm]
        omega
      simp only [h.checkChain_of_sound rfl]
      exact he.checkChain_stale hindex _ _

/-- A chain is found without fault if and only if it is sound. -/
theorem checkChain_eq (h : Chain key es sound) :
    ∃ r, checkChain key 1 genesis genesis es = .ok r ∧ (r = none ↔ sound = true) := by
  cases hsound : sound with
  | true =>
    have hcheck := h.checkChain_of_sound hsound []
    rw [List.append_nil] at hcheck
    exact ⟨none, hcheck, by simp⟩
  | false =>
    obtain ⟨fault, hfault⟩ := h.checkChain_of_not_sound hsound
    have hcheck := hfault []
    rw [List.append_nil] at hcheck
    exact ⟨some fault, hcheck, by simp⟩

end Chain

theorem writable_nextEntry {sound : Bool} (hchain : Chain key es sound) {n : ℕ}
    (hn : n ≤ es.length) {args : Json.Members} (hargs : (Json.Value.obj args).Named)
    (timestamp operation : String) (inputs outputs : List String) :
    (nextEntry key (tailOf (es.take n)) timestamp operation inputs outputs args).Writable := by
  have hversions : (toolVersions.map (·.1)).Nodup := by decide
  refine ⟨hargs, hversions, fun k hk => ?_⟩
  obtain rfl : (tailOf (es.take n)).sequence + 1 = k := Option.some.inj hk
  have hlower := (hchain.sequence_bounds hn).1
  omega

theorem storable_nextEntry {sound : Bool} (hchain : Chain key es sound) {n depth : ℕ}
    (hn : n ≤ es.length) (hcount : es.length + 1 < 10 ^ Json.maxDigits) {args : Json.Members}
    (hargs : (Json.Value.obj args).Storable depth) (timestamp operation : String)
    (inputs outputs : List String) :
    (nextEntry key (tailOf (es.take n)) timestamp operation inputs outputs args).Storable
      depth := by
  have hwritable := writable_nextEntry hchain hn hargs.named timestamp operation inputs outputs
  refine ⟨hargs, hwritable.versions, fun k hk => ?_⟩
  have hlower := hwritable.sequence k hk
  have hupper := (hchain.sequence_bounds hn).2
  obtain rfl : (tailOf (es.take n)).sequence + 1 = k := Option.some.inj hk
  obtain ⟨m, hm⟩ := Int.eq_ofNat_of_zero_le (a := (tailOf (es.take n)).sequence + 1) (by omega)
  exact ⟨hlower, hm ▸ Json.bounded_natCast.2 (by omega)⟩

end Ledger

end UpdateSeal
