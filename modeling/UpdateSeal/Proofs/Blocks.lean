import Mathlib.Data.Nat.ModEq
import UpdateSeal.Key.Rsa
import UpdateSeal.Proofs.Numerals

/-!
# Blocks and their RSA transforms

Exactly the framed blocks are recognised, each with what it carries. A block spells a number below
every modulus of its size, so the two transforms of a key pair undo each other on blocks.
-/

namespace UpdateSeal

namespace Padding

variable {info info' block digest : Bytes} {size : Int}

/-- The block with `k` bytes of filler. -/
def blockOf (k : Nat) (info : Bytes) : Bytes := 0x00 :: 0x01 :: (List.replicate k 0xff ++ 0x00 :: info)

theorem length_blockOf (k : Nat) (info : Bytes) : (blockOf k info).length = info.length + 3 + k := by
  simp [blockOf]
  omega

theorem frame_eq_ok_iff :
    frame info size = .ok block ↔
      ∃ k, minFiller ≤ k ∧ size = info.length + 3 + k ∧ block = blockOf k info := by
  simp only [frame]
  constructor
  · intro h
    split at h
    · cases h
    · next hk =>
      cases h
      refine ⟨(size - info.length - 3).toNat, by omega, by omega, rfl⟩
  · rintro ⟨k, hk, hsize, rfl⟩
    have hfiller : size - info.length - 3 = k := by omega
    rw [hfiller, if_neg (by omega), Int.toNat_natCast]
    rfl

theorem length_of_frame (h : frame info size = .ok block) : (block.length : Int) = size := by
  obtain ⟨k, -, hsize, rfl⟩ := frame_eq_ok_iff.1 h
  rw [length_blockOf, hsize]
  omega

theorem unframe_blockOf {k : Nat} (hk : minFiller ≤ k) (info : Bytes) :
    unframe (blockOf k info) = some info := by
  have htake : (List.replicate k (0xff : UInt8) ++ 0x00 :: info).takeWhile (· == 0xff) =
      List.replicate k 0xff := by
    rw [List.takeWhile_append_of_pos (by simp), List.takeWhile_cons_of_neg (by decide),
      List.append_nil]
  have hdrop : (List.replicate k (0xff : UInt8) ++ 0x00 :: info).drop k = 0x00 :: info :=
    List.drop_left' List.length_replicate
  simp only [unframe, blockOf, htake, List.length_replicate, hdrop, if_neg (Nat.not_lt.2 hk)]

theorem eq_blockOf_of_unframe (h : unframe block = some info) :
    ∃ k, minFiller ≤ k ∧ block = blockOf k info := by
  unfold unframe at h
  split at h
  · next body =>
    simp only at h
    split at h
    · next info' hdrop =>
      split at h
      · cases h
      · next hk =>
        cases h
        refine ⟨_, Nat.le_of_not_lt hk, ?_⟩
        have hfiller : body.takeWhile (· == 0xff) =
            List.replicate (body.takeWhile (· == 0xff)).length 0xff := by
          apply List.eq_replicate_of_mem
          intro c hc
          exact beq_iff_eq.1 (List.all_eq_true.1 List.all_takeWhile c hc)
        have hbody : body = body.takeWhile (· == 0xff) ++ 0x00 :: info := by
          rw [← hdrop]
          exact (List.prefix_iff_eq_append.1 (List.takeWhile_prefix _)).symm
        rw [blockOf, ← hfiller, ← hbody]
    · cases h
  · cases h

theorem unframe_eq_some_iff : unframe block = some info ↔ frame info block.length = .ok block := by
  rw [frame_eq_ok_iff]
  constructor
  · intro h
    obtain ⟨k, hk, rfl⟩ := eq_blockOf_of_unframe h
    refine ⟨k, hk, ?_, rfl⟩
    rw [length_blockOf]
    omega
  · rintro ⟨k, hk, -, rfl⟩
    exact unframe_blockOf hk info

theorem pad_eq_ok_iff :
    pad digest size = .ok block ↔
      digest.length = digestSize ∧ frame (digestLead ++ digest) size = .ok block := by
  unfold pad
  split
  · next h => simp [h]
  · next h => simp [Decidable.not_not.1 h]

theorem exists_pad (hd : digest.length = digestSize) (hsize : 62 ≤ size) :
    ∃ block, pad digest size = .ok block := by
  refine ⟨blockOf (size - 54).toNat (digestLead ++ digest), ?_⟩
  rw [pad_eq_ok_iff, frame_eq_ok_iff]
  have hlead : (digestLead ++ digest).length = 51 := by
    rw [List.length_append, hd]
    rfl
  refine ⟨hd, _, ?_, ?_, rfl⟩
  · simp only [minFiller]
    omega
  · rw [hlead]
    omega

/-- The block for a digest takes at least 62 bytes, and only the number of its `FF` bytes is free. -/
theorem pad_eq_ok_iff_block :
    pad digest size = .ok block ↔ digest.length = digestSize ∧ 62 ≤ size ∧
      block = [0x00, 0x01] ++ List.replicate (size - 54).toNat 0xff ++ [0x00] ++ digestLead ++ digest := by
  have hlead : digestLead.length = 19 := rfl
  rw [pad_eq_ok_iff, frame_eq_ok_iff]
  refine and_congr_right fun hd => ?_
  have hinfo : (digestLead ++ digest).length = 51 := by rw [List.length_append, hd, hlead, digestSize]
  rw [hinfo]
  constructor
  · rintro ⟨k, hk, rfl, rfl⟩
    have hfiller : ((51 : ℕ) + 3 + k - 54 : Int).toNat = k := by omega
    rw [hfiller]
    simp only [minFiller] at hk
    refine ⟨by omega, ?_⟩
    simp [blockOf]
  · rintro ⟨hsize, rfl⟩
    refine ⟨(size - 54).toNat, ?_, by omega, by simp [blockOf]⟩
    simp only [minFiller]
    omega

theorem unpad_of_pad (h : pad digest size = .ok block) : unpad block size = some digest := by
  obtain ⟨hd, hframe⟩ := pad_eq_ok_iff.1 h
  obtain ⟨k, hk, hsize, rfl⟩ := frame_eq_ok_iff.1 hframe
  have hlen := length_of_frame hframe
  have hdrop : (blockOf k (digestLead ++ digest)).drop
      ((blockOf k (digestLead ++ digest)).length - digestSize) = digest := by
    have hsplit : blockOf k (digestLead ++ digest) =
        (0x00 :: 0x01 :: (List.replicate k 0xff ++ 0x00 :: digestLead)) ++ digest := by
      simp [blockOf]
    rw [hsplit]
    apply List.drop_left'
    rw [List.length_append, hd, Nat.add_sub_cancel]
  have hlong : digestSize ≤ (blockOf k (digestLead ++ digest)).length := by
    rw [length_blockOf, List.length_append, hd]
    omega
  simp only [unpad, hdrop, h]
  rw [if_neg (by omega)]
  simp

theorem unpad_eq_some_iff : unpad block size = some digest ↔ pad digest size = .ok block := by
  constructor
  · intro h
    unfold unpad at h
    split at h
    · cases h
    · simp only at h
      split at h
      · cases h
      · next expected hexpected =>
        split at h
        · next hblock =>
          cases h
          rw [hexpected, hblock]
        · cases h
  · exact unpad_of_pad

/-- What a block carries is read off it, so two blocks are the same only if they carry the same. -/
theorem frame_injective (h : frame info size = .ok block) (h' : frame info' size = .ok block) :
    info = info' := by
  have hlen := length_of_frame h
  rw [← hlen, ← unframe_eq_some_iff] at h h'
  exact Option.some.inj (h.symm.trans h')

/-- A block is recognised, as that of a digest, exactly if it is the block of its size for that
digest, and every digest has one in every size from 62 on. Blocks of any contents that are framed to
one size have that size, and differ where their contents do. -/
theorem unpad_exact (size : Int) :
    (∀ block digest, unpad block size = some digest ↔
      digest.length = 32 ∧ 62 ≤ size ∧ pad digest size = .ok block) ∧
    (∀ digest block, pad digest size = .ok block ↔ digest.length = 32 ∧ 62 ≤ size ∧
      block = [0x00, 0x01] ++ List.replicate (size - 54).toNat 0xff ++ [0x00] ++ digestLead ++
        digest) ∧
    ∀ info info' block block', frame info size = .ok block → frame info' size = .ok block' →
      (block.length : Int) = size ∧ (block'.length : Int) = size ∧ (block = block' → info = info') := by
  refine ⟨fun block digest => ?_, fun digest block => pad_eq_ok_iff_block, ?_⟩
  · rw [unpad_eq_some_iff]
    constructor
    · intro hpad
      obtain ⟨hd, hsize, -⟩ := pad_eq_ok_iff_block.1 hpad
      exact ⟨hd, hsize, hpad⟩
    · exact fun hpad => hpad.2.2
  · intro info info' block block' h h'
    refine ⟨length_of_frame h, length_of_frame h', ?_⟩
    rintro rfl
    exact frame_injective h h'

theorem unpad_smallest :
    unpad ([0x00, 0x01] ++ List.replicate 8 0xff ++ [0x00] ++ digestLead ++ List.replicate 32 7) 62 =
        some (List.replicate 32 7) ∧
      ∃ block block', frame [5] 20 = .ok block ∧ frame [0xff, 0x00, 5] 20 = .ok block' ∧
        (block.length : Int) = 20 ∧ (block'.length : Int) = 20 ∧ block ≠ block' := by
  constructor
  · obtain ⟨hunpad, hpad, -⟩ := unpad_exact 62
    have hd : (List.replicate 32 (7 : UInt8)).length = 32 := List.length_replicate
    exact (hunpad _ _).2 ⟨hd, by decide, (hpad _ _).2 ⟨hd, by decide, rfl⟩⟩
  · obtain ⟨-, -, hframe⟩ := unpad_exact 20
    have hshort : frame [5] 20 = .ok (blockOf 16 [5]) := rfl
    have hlong : frame [0xff, 0x00, 5] 20 = .ok (blockOf 14 [0xff, 0x00, 5]) := rfl
    obtain ⟨hlen, hlen', hinj⟩ := hframe _ _ _ _ hshort hlong
    exact ⟨_, _, hshort, hlong, hlen, hlen', fun heq => absurd (hinj heq) (by decide)⟩

/-- A block starts with a zero, so it spells a number below all that need as many bytes. -/
theorem toNat_lt_of_frame (h : frame info size = .ok block) :
    Bytes.toNat block < 256 ^ (size.toNat - 1) := by
  obtain ⟨k, -, hsize, rfl⟩ := frame_eq_ok_iff.1 h
  have hlen := length_blockOf k info
  have htail := Bytes.toNat_lt (0x01 :: (List.replicate k 0xff ++ 0x00 :: info))
  rw [blockOf, Bytes.toNat_cons]
  simp only [UInt8.toNat_zero, Nat.zero_mul, Nat.zero_add]
  apply Nat.lt_of_lt_of_le htail
  apply Nat.pow_le_pow_right (by decide)
  simp
  omega

end Padding

namespace Rsa

theorem powMod_eq (b e m : Nat) : powMod b e m = b ^ e % m := by
  fun_induction powMod b e m with
  | case1 b => rw [Nat.pow_zero]
  | case2 b e h0 half heven ih =>
    have he : e = 2 * (e / 2) := by omega
    calc
      half = (b * b) ^ (e / 2) % m := ih.trans (Nat.pow_mod _ _ _).symm
      _ = b ^ e % m := by rw [← Nat.pow_two, ← Nat.pow_mul, ← he]
  | case3 b e h0 half hodd ih =>
    have he : e = 2 * (e / 2) + 1 := by omega
    have hhalf : half = (b * b) ^ (e / 2) % m := ih.trans (Nat.pow_mod _ _ _).symm
    calc
      b * half % m = b * (b * b) ^ (e / 2) % m := by rw [hhalf, Nat.mul_mod_mod]
      _ = b ^ e % m := by rw [← Nat.pow_two, ← Nat.pow_mul, ← Nat.pow_add_one', ← he]

theorem pow_256 (k : Nat) : 256 ^ k = 2 ^ (8 * k) := by rw [Nat.pow_mul]

theorem lt_pow_byteLength (n : Nat) : n < 256 ^ byteLength n := by
  by_cases hn : n = 0
  · subst hn
    decide
  · have hlog : n < 2 ^ (n.log2 + 1) := Nat.lt_log2_self
    have hle : n.log2 + 1 ≤ 8 * byteLength n := by
      simp only [byteLength, bitLength, if_neg hn]
      omega
    rw [pow_256]
    exact Nat.lt_of_lt_of_le hlog (Nat.pow_le_pow_right (by decide) hle)

theorem pow_byteLength_le {n : Nat} (hn : n ≠ 0) : 256 ^ (byteLength n - 1) ≤ n := by
  have hle : 8 * (byteLength n - 1) ≤ n.log2 := by
    simp only [byteLength, bitLength, if_neg hn]
    omega
  rw [pow_256]
  exact Nat.le_trans (Nat.pow_le_pow_right (by decide) hle) (Nat.log2_self_le hn)

theorem ne_zero_of_pad {digest block : Bytes} {n : Nat}
    (h : Padding.pad digest (byteLength n) = .ok block) : n ≠ 0 := by
  rintro rfl
  obtain ⟨k, -, hsize, -⟩ := Padding.frame_eq_ok_iff.1 (Padding.pad_eq_ok_iff.1 h).2
  have hzero : byteLength 0 = 0 := by decide
  rw [hzero] at hsize
  omega

theorem toNat_lt_of_pad {digest block : Bytes} {n : Nat}
    (h : Padding.pad digest (byteLength n) = .ok block) : Bytes.toNat block < n := by
  have hn := ne_zero_of_pad h
  have hlt := Padding.toNat_lt_of_frame (Padding.pad_eq_ok_iff.1 h).2
  rw [Int.toNat_natCast] at hlt
  exact Nat.lt_of_lt_of_le hlt (pow_byteLength_le hn)

theorem length_transform (modulus exponent : Nat) (b : Bytes) :
    (transform modulus exponent b).length = byteLength modulus :=
  Bytes.length_ofNat _ _

theorem toNat_transform {modulus : Nat} (hn : modulus ≠ 0) (exponent : Nat) (b : Bytes) :
    Bytes.toNat (transform modulus exponent b) = Bytes.toNat b ^ exponent % modulus := by
  rw [transform, powMod_eq]
  apply Bytes.toNat_ofNat_of_lt
  exact Nat.lt_trans (Nat.mod_lt _ (Nat.pos_of_ne_zero hn)) (lt_pow_byteLength modulus)

/-- `data` fits `digest`: it spells a number below the modulus, in as many bytes, and its transform
is the block for the digest. -/
structure PublicKey.Fits (key : PublicKey) (digest data : Bytes) : Prop where
  length_eq : data.length = byteLength key.modulus
  lt_modulus : Bytes.toNat data < key.modulus
  pad_eq : Padding.pad digest (byteLength key.modulus) =
    .ok (Bytes.ofNat (byteLength key.modulus) (Bytes.toNat data ^ key.exponent % key.modulus))

/-- `data` is a signature over `digest`: it fits, and the key can be used to find this out. -/
structure PublicKey.Signs (key : PublicKey) (digest data : Bytes) : Prop extends
    key.Fits digest data where
  canTransform : key.canTransform

theorem PublicKey.signs_iff {key : PublicKey} {digest data block : Bytes}
    (h : Padding.pad digest (byteLength key.modulus) = .ok block) :
    key.Signs digest data ↔ key.canTransform ∧ data.length = byteLength key.modulus ∧
      Bytes.toNat data < key.modulus ∧ transform key.modulus key.exponent data = block := by
  rw [transform, powMod_eq]
  constructor
  · exact fun hs => ⟨hs.canTransform, hs.length_eq, hs.lt_modulus, Except.ok.inj (hs.pad_eq.symm.trans h)⟩
  · exact fun ⟨hcan, hlen, hlt, hblock⟩ => ⟨⟨hlen, hlt, by rw [h, hblock]⟩, hcan⟩

theorem PublicKey.recover_eq_some_iff {key : PublicKey} {data info : Bytes}
    (hlen : data.length = byteLength key.modulus) :
    key.recover data = some info ↔ key.canTransform ∧ Bytes.toNat data < key.modulus ∧
      Padding.frame info (byteLength key.modulus) =
        .ok (transform key.modulus key.exponent data) := by
  have ht := length_transform key.modulus key.exponent data
  unfold recover
  cases key.canTransform with
  | false => simp
  | true =>
    by_cases hlt : Bytes.toNat data < key.modulus
    · rw [if_neg (by decide), if_neg (by omega), Padding.unframe_eq_some_iff, ht]
      simp only [hlt, true_and]
    · rw [if_neg (by decide), if_pos (by omega)]
      simp only [hlt, false_and, and_false, reduceCtorEq]

/-- The public half. -/
def PrivateKey.publicHalf (key : PrivateKey) : PublicKey := ⟨key.modulus, key.publicExponent⟩

/-- The two transforms undo each other on the numbers below the modulus. -/
def PrivateKey.Inverts (key : PrivateKey) : Prop :=
  ∀ m, m < key.modulus → (m ^ key.exponent) ^ key.publicExponent % key.modulus = m

theorem PrivateKey.fits_transform {key : PrivateKey} {digest block : Bytes} (hkey : key.Inverts)
    (h : Padding.pad digest (byteLength key.modulus) = .ok block) :
    key.publicHalf.Fits digest (transform key.modulus key.exponent block) := by
  have hn := ne_zero_of_pad h
  have hblock := toNat_lt_of_pad h
  have hlen := Padding.length_of_frame (Padding.pad_eq_ok_iff.1 h).2
  refine ⟨length_transform _ _ _, ?_, ?_⟩
  · rw [toNat_transform hn]
    exact Nat.mod_lt _ (Nat.pos_of_ne_zero hn)
  · have hinv : (Bytes.toNat block ^ key.exponent % key.modulus) ^ key.publicExponent %
        key.modulus = Bytes.toNat block := by
      rw [← Nat.pow_mod]
      exact hkey _ hblock
    simp only [PrivateKey.publicHalf]
    rw [toNat_transform hn, hinv, h, ← Int.ofNat.inj hlen, Bytes.ofNat_toNat]

theorem PrivateKey.signs_transform {key : PrivateKey} {digest block : Bytes} (hkey : key.Inverts)
    (hpublic : key.publicHalf.canTransform)
    (h : Padding.pad digest (byteLength key.modulus) = .ok block) :
    key.publicHalf.Signs digest (transform key.modulus key.exponent block) :=
  ⟨fits_transform hkey h, hpublic⟩

end Rsa

end UpdateSeal
