import UpdateSeal.Key.Document
import UpdateSeal.Proofs.Blocks

/-!
# Numbers in key documents

A length takes at most four bytes, so the modulus of a key that is read has fewer than 2^32 bytes.
-/

namespace UpdateSeal

theorem Rsa.byteLength_le {n k : Nat} (h : n < 256 ^ k) : Rsa.byteLength n ≤ k := by
  by_cases hn : n = 0
  · subst hn
    exact Nat.zero_le k
  · have hlt := (Nat.pow_lt_pow_iff_right (by decide)).1 (Nat.lt_of_le_of_lt (pow_byteLength_le hn) h)
    omega

namespace Der

variable {b rest content : Bytes} {n count : Nat} {ns : List Nat} {tag : UInt8} {e : Element}

theorem length?_lt (h : length? b = some (n, rest)) : n < 2 ^ 32 := by
  unfold length? at h
  split at h
  · cases h
  · next c tail =>
    split at h
    · have hc := c.toNat_lt
      obtain ⟨rfl, -⟩ := Prod.mk.inj (Option.some.inj h)
      omega
    · simp only at h
      split at h
      · cases h
      · next hwidth =>
        simp only [not_or, Nat.not_lt] at hwidth
        obtain ⟨rfl, -⟩ := Prod.mk.inj (Option.some.inj h)
        have hlen : (tail.take (c.toNat - 0x80)).length ≤ 4 := by
          rw [List.length_take]
          omega
        exact Nat.lt_of_lt_of_le (Bytes.toNat_lt _) (Nat.pow_le_pow_right (by decide) hlen)

theorem length_lt_of_element? (h : element? b = some (e, rest)) : e.content.length < 2 ^ 32 := by
  unfold element? at h
  split at h
  · cases h
  · obtain ⟨⟨n, tail⟩, hn, h⟩ := Option.bind_eq_some_iff.1 h
    have hlt := length?_lt hn
    simp only at h
    split at h
    · cases h
    · obtain ⟨rfl, -⟩ := Prod.mk.inj (Option.some.inj h)
      simp only [List.length_take]
      omega

theorem length_lt_of_expect? (h : expect? tag b = some (content, rest)) :
    content.length < 2 ^ 32 := by
  obtain ⟨⟨e, tail⟩, he, h⟩ := Option.bind_eq_some_iff.1 h
  simp only at h
  split at h
  · cases h
    exact length_lt_of_element? he
  · cases h

theorem number?_lt (h : number? b = some (n, rest)) : Rsa.byteLength n < 2 ^ 32 := by
  obtain ⟨⟨digits, tail⟩, hdigits, h⟩ := Option.bind_eq_some_iff.1 h
  have hlen := length_lt_of_expect? hdigits
  refine Nat.lt_of_le_of_lt (Rsa.byteLength_le ?_) hlen
  simp only at h
  split at h
  · cases h
  · split at h
    · cases h
      simpa using UInt8.toNat_lt _
    · cases h
  · split at h
    · cases h
    · cases h
      exact Bytes.toNat_lt _

theorem numbers?_lt (h : numbers? count b = some (ns, rest)) : ∀ n ∈ ns, Rsa.byteLength n < 2 ^ 32 := by
  induction count generalizing b ns with
  | zero =>
    cases h
    simp
  | succ count ih =>
    obtain ⟨⟨n, tail⟩, hn, h⟩ := Option.bind_eq_some_iff.1 h
    obtain ⟨⟨ns', tail'⟩, hns, h⟩ := Option.bind_eq_some_iff.1 h
    cases h
    exact List.forall_mem_cons.2 ⟨number?_lt hn, ih hns⟩

end Der

namespace KeyDocument

variable {b file algorithm content : Bytes} {key : Rsa.PrivateKey} {publicHalf : Rsa.PublicKey}

theorem privateNumbers?_lt (h : privateNumbers? b = some key) :
    Rsa.byteLength key.modulus < 2 ^ 32 := by
  obtain ⟨content, -, h⟩ := Option.bind_eq_some_iff.1 h
  obtain ⟨numbers, hnumbers, h⟩ := Option.bind_eq_some_iff.1 h
  split at h
  · split at h
    · cases h
      exact Der.numbers?_lt hnumbers _ (by simp)
    · cases h
  · cases h

theorem named?_eq_rsa {α : Type} {numbers? : Bytes → Option α} {k : α}
    (h : named? algorithm content numbers? = some (.rsa k)) : numbers? content = some k := by
  obtain ⟨⟨name, parameters⟩, -, h⟩ := Option.bind_eq_some_iff.1 h
  simp only at h
  split at h
  · split at h
    · obtain ⟨k', hk', h⟩ := Option.bind_eq_some_iff.1 h
      cases h
      exact hk'
    · cases h
  · split at h
    · obtain ⟨k', hk', h⟩ := Option.bind_eq_some_iff.1 h
      cases h
      exact hk'
    · split at h <;> cases h

theorem publicNumbers?_lt (h : publicNumbers? b = some publicHalf) :
    Rsa.byteLength publicHalf.modulus < 2 ^ 32 := by
  obtain ⟨content, -, h⟩ := Option.bind_eq_some_iff.1 h
  obtain ⟨numbers, hnumbers, h⟩ := Option.bind_eq_some_iff.1 h
  split at h
  · cases h
    exact Der.numbers?_lt hnumbers _ (by simp)
  · cases h

theorem publicInfo?_lt (h : publicInfo? b = some (.rsa publicHalf)) :
    Rsa.byteLength publicHalf.modulus < 2 ^ 32 := by
  obtain ⟨content, -, h⟩ := Option.bind_eq_some_iff.1 h
  obtain ⟨⟨algorithm, tail⟩, -, h⟩ := Option.bind_eq_some_iff.1 h
  obtain ⟨bits, -, h⟩ := Option.bind_eq_some_iff.1 h
  split at h
  · exact publicNumbers?_lt (named?_eq_rsa h)
  · cases h

theorem privateInfo?_lt (h : privateInfo? b = some (.rsa key)) :
    Rsa.byteLength key.modulus < 2 ^ 32 := by
  obtain ⟨content, -, h⟩ := Option.bind_eq_some_iff.1 h
  obtain ⟨version, -, h⟩ := Option.bind_eq_some_iff.1 h
  split at h
  · obtain ⟨⟨algorithm, tail⟩, -, h⟩ := Option.bind_eq_some_iff.1 h
    obtain ⟨⟨octets, attributes⟩, -, h⟩ := Option.bind_eq_some_iff.1 h
    simp only at h
    split at h
    · exact privateNumbers?_lt (named?_eq_rsa h)
    · obtain ⟨_, -, h⟩ := Option.bind_eq_some_iff.1 h
      exact privateNumbers?_lt (named?_eq_rsa h)
  · cases h

/-- The modulus of a public key has a size that four bytes can say. -/
theorem publicKey?_lt (h : publicKey? file = some (.rsa publicHalf)) :
    Rsa.byteLength publicHalf.modulus < 2 ^ 32 := by
  obtain ⟨block, -, h⟩ := Option.bind_eq_some_iff.1 h
  split at h
  · exact publicInfo?_lt h
  · split at h
    · split at h
      · next key hkey =>
        cases h
        exact publicNumbers?_lt hkey
      · obtain ⟨parsed, hparsed, h⟩ := Option.bind_eq_some_iff.1 h
        split at h
        · cases h
          exact publicInfo?_lt hparsed
        · cases h
    · cases h

theorem privateKey?_lt (h : privateKey? file = some (.rsa key)) :
    Rsa.byteLength key.modulus < 2 ^ 32 := by
  obtain ⟨blocks, -, h⟩ := Option.bind_eq_some_iff.1 h
  obtain ⟨block, -, h⟩ := Option.bind_eq_some_iff.1 h
  split at h
  · cases h
  · split at h
    · exact privateInfo?_lt h
    · split at h
      · obtain ⟨key', hkey, h⟩ := Option.bind_eq_some_iff.1 h
        cases h
        exact privateNumbers?_lt hkey
      · split at h
        · cases h
        · obtain ⟨_, -, h⟩ := Option.bind_eq_some_iff.1 h
          cases h

end KeyDocument

end UpdateSeal
