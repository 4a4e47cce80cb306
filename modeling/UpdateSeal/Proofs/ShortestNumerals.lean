import UpdateSeal.Proofs.Grammar

/-!
# Numerals are exact and shortest

Every number that fits into ten groups of seven bits is read back from its shortest numeral, wherever
that stands, and no greater number is. Of the numerals that spell a number the shortest one is the
only one of its length. All others are longer: they are padded with groups of zero bits.
-/

namespace UpdateSeal.Varint

variable {n p q : Nat} {b : Bytes}

/-- Reads the numeral behind the first `p` bytes of `b`; returns its value and the position where it
ends. -/
def decodeAt (b : Bytes) (p : Nat) : Except Fault (Nat × Nat) :=
  (decode (b.drop p)).map fun r => (r.1, b.length - r.2.length)

/-! ### Lengths -/

theorem length_of_lt (h : n < 128) : length n = 1 := by
  rw [length, encode_of_lt h, List.length_singleton]

theorem length_of_le (h : 128 ≤ n) : length n = length (n / 128) + 1 := by
  rw [length, encode_of_le h, List.length_cons, length]

theorem length_pos (n : Nat) : 0 < length n :=
  List.length_pos_iff.2 (encode_ne_nil n)

/-- A number has at most `k + 1` groups of seven bits exactly if it is below the bound of so many. -/
theorem length_le_succ_iff {k : Nat} : length n ≤ k + 1 ↔ n < 128 ^ (k + 1) := by
  induction k generalizing n with
  | zero =>
    by_cases h : n < 128
    · simp [length_of_lt h, h]
    · have hpos := length_pos (n / 128)
      rw [length_of_le (by omega)]
      omega
  | succ k ih =>
    by_cases h : n < 128
    · have hpow : n < 128 ^ (k + 1 + 1) :=
        Nat.lt_of_lt_of_le h (Nat.le_self_pow (Nat.succ_ne_zero _) 128)
      simp [length_of_lt h, hpow]
    · rw [length_of_le (by omega), Nat.add_le_add_iff_right, ih, Nat.pow_succ 128 (k + 1),
        Nat.div_lt_iff_lt_mul (by decide)]

theorem Spells.length_pos (h : Spells n b) : 0 < b.length :=
  List.length_pos_iff.2 h.ne_nil

theorem Spells.lt_pow (h : Spells n b) : n < 128 ^ b.length := by
  induction h with
  | last hc => simpa [UInt8.lt_iff_toNat_lt] using hc
  | more _ _ ih =>
    rw [List.length_cons, Nat.pow_succ]
    omega

theorem Numeral.lt (h : Numeral n b) : n < 2 ^ 70 :=
  Nat.lt_of_lt_of_le h.1.lt_pow (Nat.pow_le_pow_right (by decide) h.2)

theorem Spells.length_le (h : Spells n b) : length n ≤ b.length := by
  obtain ⟨k, hk⟩ := Nat.exists_eq_add_one_of_ne_zero (Nat.ne_of_gt h.length_pos)
  have hlt := h.lt_pow
  rw [hk] at hlt ⊢
  exact length_le_succ_iff.2 hlt

/-! ### Padding -/

/-- A byte with its high bit set leads on to the groups above it, unless these are all zero. -/
theorem encode_group {c : UInt8} (hc : ¬ c < 128) (hn : n ≠ 0) :
    encode (c.toNat % 128 + 128 * n) = c :: encode n := by
  have hbyte : c.toNat < 256 := c.toNat_lt
  have hhigh : ¬ c.toNat < 128 := by rwa [UInt8.lt_iff_toNat_lt] at hc
  have hfirst : (c.toNat % 128 + 128 * n) % 128 + 128 = c.toNat := by omega
  have hrest : (c.toNat % 128 + 128 * n) / 128 = n := by omega
  rw [encode_of_le (by omega), hfirst, hrest, UInt8.ofNat_toNat]

theorem Spells.eq_encode (h : Spells n b) (hl : b.length = length n) : b = encode n := by
  induction h with
  | @last c hc =>
    rw [UInt8.lt_iff_toNat_lt] at hc
    rw [encode_of_lt hc, UInt8.ofNat_toNat]
  | @more c n b hc hb ih =>
    -- if all groups above were zero, the shortest numeral would end with this byte
    have hn : n ≠ 0 := by
      rintro rfl
      have hpos := hb.length_pos
      rw [length_of_lt (by omega), List.length_cons] at hl
      omega
    have hgroup := encode_group hc hn
    rw [length, hgroup, List.length_cons, List.length_cons] at hl
    rw [hgroup, ih (Nat.add_right_cancel hl)]

theorem Spells.length_eq_iff (h : Spells n b) : b.length = length n ↔ b = encode n :=
  ⟨h.eq_encode, fun hb => congrArg List.length hb⟩

/-! ### Positions -/

theorem decodeAt_eq_ok_iff :
    decodeAt b p = .ok (n, q) ↔ ∃ u front v, Numeral n front ∧ b = u ++ (front ++ v) ∧
      p = u.length ∧ q = u.length + front.length := by
  rw [decodeAt, map_eq_ok_iff]
  constructor
  · rintro ⟨⟨_, v⟩, hread, heq⟩
    simp only [Prod.mk.injEq] at heq
    obtain ⟨rfl, rfl⟩ := heq
    obtain ⟨front, hfront, hb⟩ := decode_eq_ok_iff.1 hread
    have hpos := hfront.1.length_pos
    have hlen := congrArg List.length hb
    rw [List.length_drop, List.length_append] at hlen
    have hp : (b.take p).length = p := List.length_take_of_le (by omega)
    refine ⟨b.take p, front, v, hfront, ?_, hp.symm, ?_⟩
    · rw [← hb, List.take_append_drop]
    · rw [hp]
      omega
  · rintro ⟨u, front, v, hfront, rfl, rfl, rfl⟩
    refine ⟨(n, v), decode_eq_ok_iff.2 ⟨front, hfront, List.drop_left⟩, ?_⟩
    rw [← List.append_assoc, List.length_append, Nat.add_sub_cancel, List.length_append]

theorem decodeAt_encode (hn : n < 2 ^ 70) (u v : Bytes) :
    decodeAt (u ++ encode n ++ v) u.length = .ok (n, u.length + length n) := by
  obtain ⟨front, hfront, happend⟩ := decode_eq_ok_iff.1 (decode_encode hn v)
  have hencode : encode n = front := List.append_cancel_right happend
  rw [length, hencode]
  exact decodeAt_eq_ok_iff.2 ⟨u, front, v, hfront, List.append_assoc _ _ _, rfl, rfl⟩

theorem decodeAt_encode_tooLong (hn : 2 ^ 70 ≤ n) (u v : Bytes) :
    decodeAt (u ++ encode n ++ v) u.length = .error .tooLong := by
  rw [decodeAt, List.append_assoc, List.drop_left, decode_encode_tooLong hn, Except.map]

/-- Numbers below 2^70 are read back from their shortest numerals, which end where the length of the
number says, and greater numbers are refused. What is read goes forward by at most ten bytes and stays
inside the byte string. It spells a number below 2^70 in no fewer bytes than the shortest numeral, and
in as few exactly if it is that. -/
theorem exact_and_shortest :
    (∀ n u v, n < 2 ^ 70 →
      decodeAt (u ++ encode n ++ v) u.length = .ok (n, u.length + length n)) ∧
    (∀ n u v, 2 ^ 70 ≤ n → decodeAt (u ++ encode n ++ v) u.length = .error .tooLong) ∧
    ∀ b p n q, decodeAt b p = .ok (n, q) →
      p < q ∧ q ≤ min b.length (p + 10) ∧ n < 2 ^ 70 ∧ length n ≤ q - p ∧
        (q - p = length n ↔ Bytes.slice p (q - p) b = encode n) := by
  refine ⟨fun n u v hn => decodeAt_encode hn u v, fun n u v hn => decodeAt_encode_tooLong hn u v,
    fun b p n q h => ?_⟩
  obtain ⟨u, front, v, hfront, rfl, rfl, rfl⟩ := decodeAt_eq_ok_iff.1 h
  have hforward : u.length < u.length + front.length :=
    Nat.lt_add_of_pos_right hfront.1.length_pos
  have hinside : u.length + front.length ≤ (u ++ (front ++ v)).length := by
    rw [← List.append_assoc, List.length_append, List.length_append]
    exact Nat.le_add_right _ _
  have hlimit : u.length + front.length ≤ u.length + 10 := Nat.add_le_add_left hfront.2 _
  rw [Nat.add_sub_cancel_left, Bytes.slice_append]
  exact ⟨hforward, Nat.le_min.2 ⟨hinside, hlimit⟩, hfront.lt, hfront.1.length_le,
    hfront.1.length_eq_iff⟩

/-- The greatest number that is read and the least one that is not, between other bytes, and a numeral
of 1 that is padded with two zero groups. -/
theorem exact_and_shortest_at_limit :
    decodeAt ([7] ++ encode (2 ^ 70 - 1) ++ [128]) 1 = .ok (2 ^ 70 - 1, 1 + length (2 ^ 70 - 1)) ∧
    decodeAt ([7] ++ encode (2 ^ 70) ++ [128]) 1 = .error .tooLong ∧
    decodeAt [7, 129, 128, 0, 5] 1 = .ok (1, 4) ∧ length 1 ≤ 3 ∧
      (3 = length 1 ↔ Bytes.slice 1 3 [7, 129, 128, 0, 5] = encode 1) := by
  have hread : decodeAt [7, 129, 128, 0, 5] 1 = .ok (1, 4) := by decide
  obtain ⟨-, -, -, hshort, hexact⟩ := exact_and_shortest.2.2 _ _ _ _ hread
  exact ⟨exact_and_shortest.1 _ [7] [128] (by decide),
    exact_and_shortest.2.1 _ [7] [128] (by decide), hread, hshort, hexact⟩

end UpdateSeal.Varint
