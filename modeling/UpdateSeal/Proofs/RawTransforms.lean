import UpdateSeal.Proofs.Applications

/-!
# The transforms of loaded keys

A loaded key never sees a raw block: signing takes the digest out of a block and frames it anew, and
recovering strips the frame of a block and builds it again. Both come to the bare power modulo the
modulus, on the blocks for digests when signing and on all framed blocks when recovering, under a key
that can transform.
-/

namespace UpdateSeal

open UpdateSeal.Action

namespace KeySizes

variable {s : KeySizes} {h : Host} {p : Path} {block data : Bytes}
variable {key : Rsa.PublicKey} {secret : Rsa.PrivateKey}

/-- `00 01`, at least eight bytes `FF`, `00`, and anything. -/
def Framed (block : Bytes) : Prop :=
  ∃ filler info, 8 ≤ filler ∧
    block = [0x00, 0x01] ++ List.replicate filler 0xff ++ [0x00] ++ info

theorem framed_iff {size : Int} (hsize : (block.length : Int) = size) :
    Framed block ↔ ∃ info, Padding.frame info size = .ok block := by
  constructor
  · intro hframed
    obtain ⟨filler, info, hfiller, rfl⟩ := hframed
    refine ⟨info, Padding.frame_eq_ok_iff.2 ⟨filler, hfiller, ?_, by simp [Padding.blockOf]⟩⟩
    rw [← hsize]
    simp only [List.length_append, List.length_cons, List.length_nil, List.length_replicate]
    omega
  · intro hframed
    obtain ⟨info, hframed⟩ := hframed
    obtain ⟨filler, hfiller, -, rfl⟩ := Padding.frame_eq_ok_iff.1 hframed
    exact ⟨filler, info, hfiller, by simp [Padding.blockOf]⟩

theorem sign_eq_ok_iff (hs : s.Supports secret.modulus) :
    s.sign (.loaded ⟨p, Rsa.byteLength secret.modulus, .privateKey secret⟩) block = .ok data ↔
      (∃ digest, Padding.pad digest (Rsa.byteLength secret.modulus) = .ok block) ∧
        data = Rsa.transform secret.modulus secret.exponent block := by
  constructor
  · intro hsign
    cases hunpad : Padding.unpad block (Rsa.byteLength secret.modulus) with
    | none =>
      simp only [sign, check_eq_ok_iff.2 hs, ok_bind, hunpad] at hsign
      cases hsign
    | some digest =>
      have hpad := Padding.unpad_eq_some_iff.1 hunpad
      rw [sign_eq hs hpad] at hsign
      exact ⟨⟨digest, hpad⟩, (Except.ok.inj hsign).symm⟩
  · rintro ⟨⟨digest, hpad⟩, rfl⟩
    exact sign_eq hs hpad

/-- Recovering always answers, and gives exactly the framed blocks that a power comes to. -/
theorem answers_recover_framed (hs : s.Supports key.modulus) (data : Bytes) (h : Host) :
    ∃ r, Answers (s.recover (.loaded ⟨p, Rsa.byteLength key.modulus, .publicKey key⟩) data) h
        (.ok r) ∧
      ∀ block, r = some block ↔ key.canTransform ∧ data.length = Rsa.byteLength key.modulus ∧
        Bytes.toNat data < key.modulus ∧ Rsa.transform key.modulus key.exponent data = block ∧
        Framed block := by
  obtain ⟨r, hr, hblock⟩ := answers_recover hs
  refine ⟨r, hr, fun block => (hblock block).trans ?_⟩
  refine and_congr_right fun _ => and_congr_right fun _ => and_congr_right fun _ =>
    and_congr_right fun htransform => ?_
  exact (framed_iff (by rw [← htransform, Rsa.length_transform])).symm

theorem answers_recover_of_sign {p' : Path} (hs : s.Supports secret.modulus)
    (hkey : secret.Inverts) (hcan : secret.publicHalf.canTransform)
    (hsign : s.sign (.loaded ⟨p, Rsa.byteLength secret.modulus, .privateKey secret⟩) block =
      .ok data) (h : Host) :
    Answers (s.recover
      (.loaded ⟨p', Rsa.byteLength secret.modulus, .publicKey secret.publicHalf⟩) data) h
        (.ok (some block)) := by
  obtain ⟨⟨digest, hpad⟩, rfl⟩ := (sign_eq_ok_iff hs).1 hsign
  have hpublic : Padding.pad digest (Rsa.byteLength secret.publicHalf.modulus) = .ok block := hpad
  obtain ⟨-, hlen, hlt, htransform⟩ :=
    (Rsa.PublicKey.signs_iff hpublic).1 (Rsa.PrivateKey.signs_transform hkey hcan hpad)
  have hlength := Padding.length_of_frame (Padding.pad_eq_ok_iff.1 hpad).2
  have hframed : Framed block := (framed_iff hlength).2 ⟨_, (Padding.pad_eq_ok_iff.1 hpad).2⟩
  have hs' : s.Supports secret.publicHalf.modulus := hs
  obtain ⟨r, hr, hblock⟩ := answers_recover_framed (p := p') hs' _ h
  rw [(hblock block).2 ⟨hcan, hlen, hlt, htransform, hframed⟩] at hr
  exact hr

/-- The two halves of a key of a supported size, loaded from anywhere. The private half signs exactly
the blocks of digests, each as its power by the private exponent. The public half always answers, and
if the library can transform by it, it recovers a block exactly from a signature that is as long as
the modulus and spells a number below it whose power is that block, if the block is framed. So it
recovers every block that the private half signed. -/
theorem sign_and_recover (hs : s.Supports secret.modulus) (hkey : secret.Inverts) (p p' : Path) :
    (∀ block data,
      s.sign (.loaded ⟨p, Rsa.byteLength secret.modulus, .privateKey secret⟩) block = .ok data ↔
        (∃ digest, digest.length = 32 ∧
          Padding.pad digest (Rsa.byteLength secret.modulus) = .ok block) ∧
        data = Bytes.ofNat (Rsa.byteLength secret.modulus)
          (Bytes.toNat block ^ secret.exponent % secret.modulus)) ∧
    (∀ data h, ∃ r,
      Answers (s.recover
        (.loaded ⟨p', Rsa.byteLength secret.modulus, .publicKey secret.publicHalf⟩) data) h
          (.ok r) ∧
      (secret.publicHalf.canTransform → ∀ block, r = some block ↔
        data.length = Rsa.byteLength secret.modulus ∧
        Bytes.toNat data < secret.modulus ∧
        Bytes.ofNat (Rsa.byteLength secret.modulus)
          (Bytes.toNat data ^ secret.publicExponent % secret.modulus) = block ∧
        Framed block)) ∧
    (secret.publicHalf.canTransform → ∀ block data h,
      s.sign (.loaded ⟨p, Rsa.byteLength secret.modulus, .privateKey secret⟩) block = .ok data →
      Answers (s.recover
        (.loaded ⟨p', Rsa.byteLength secret.modulus, .publicKey secret.publicHalf⟩) data) h
          (.ok (some block))) := by
  refine ⟨fun block data => ?_, fun data h => ?_, fun hcan block data h hsign => ?_⟩
  · rw [sign_eq_ok_iff hs, Rsa.transform, Rsa.powMod_eq]
    have hlength : (∃ digest, Padding.pad digest (Rsa.byteLength secret.modulus) = .ok block) ↔
        ∃ digest, digest.length = 32 ∧
          Padding.pad digest (Rsa.byteLength secret.modulus) = .ok block :=
      exists_congr fun digest => (and_iff_right_of_imp fun hpad => (Padding.pad_eq_ok_iff.1 hpad).1).symm
    rw [hlength]
  · have hs' : s.Supports secret.publicHalf.modulus := hs
    obtain ⟨r, hr, hblock⟩ := answers_recover_framed (p := p') hs' data h
    refine ⟨r, hr, fun hcan => ?_⟩
    simp only [hcan, true_and, Rsa.transform, Rsa.powMod_eq] at hblock
    exact hblock
  · exact answers_recover_of_sign hs hkey hcan hsign h

theorem sample_sign_and_recover :
    (Sample.app.toolkit.keySizes.Supports Sample.privateKey.modulus ∧
      Sample.privateKey.Inverts ∧ Sample.privateKey.publicHalf.canTransform) ∧
    ∃ block data,
      Sample.app.toolkit.keySizes.sign (.loaded ⟨⟨false, ["key"]⟩,
        Rsa.byteLength Sample.privateKey.modulus, .privateKey Sample.privateKey⟩) block = .ok data ∧
      Answers (Sample.app.toolkit.keySizes.recover (.loaded ⟨⟨false, ["public"]⟩,
        Rsa.byteLength Sample.privateKey.modulus, .publicKey Sample.privateKey.publicHalf⟩) data) {}
          (.ok (some block)) := by
  have hs : Sample.app.toolkit.keySizes.Supports Sample.privateKey.modulus := Sample.supports
  have hsize : (62 : Int) ≤ Rsa.byteLength Sample.privateKey.modulus :=
    Int.ofNat_le.2 (Sample.app_started.room_for_block Sample.privateKey.modulus hs)
  obtain ⟨block, hpad⟩ := Padding.exists_pad (length_sha256 []) hsize
  obtain ⟨-, -, hrecover⟩ :=
    sign_and_recover hs Sample.inverts ⟨false, ["key"]⟩ ⟨false, ["public"]⟩
  have hsign := sign_eq (p := ⟨false, ["key"]⟩) hs hpad
  exact ⟨⟨hs, Sample.inverts, Sample.canTransform⟩, block, _, hsign,
    hrecover Sample.canTransform block _ {} hsign⟩

end KeySizes

end UpdateSeal
