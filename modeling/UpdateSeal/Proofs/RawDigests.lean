import UpdateSeal.Proofs.AnyKey

/-!
# Digests read off signatures

The digest that a bare signature was made over can be read off it with the public key. This agrees
with verifying: a container with that signature alone is accepted for the digest that is read off it
and for no other. So a signature stands for at most one digest under a key, whatever its bytes are.
-/

namespace UpdateSeal

open UpdateSeal.Action

variable {t : Toolkit} {h : Host} {p : Path} {key : Rsa.PublicKey} {digest data : Bytes}

theorem Rsa.PublicKey.Signs.unique {digest' : Bytes} (hs : key.Signs digest data)
    (hs' : key.Signs digest' data) : digest = digest' := by
  have hunpad := Padding.unpad_of_pad hs.pad_eq
  rw [Padding.unpad_of_pad hs'.pad_eq] at hunpad
  exact (Option.some.inj hunpad).symm

theorem KeySizes.PublicAt.byteLength_lt (hk : t.keySizes.PublicAt h p key) :
    Rsa.byteLength key.modulus < 2 ^ 32 := by
  obtain ⟨file, -, hkey, -⟩ := publicAt_iff.1 hk
  exact KeyDocument.publicKey?_lt hkey

/-- A container with one current signature is signed by a key as that signature is. A signature that
is too long for a container is not as long as the modulus of any key. -/
theorem Container.signedBy_encode_iff (hkey : Rsa.byteLength key.modulus < 2 ^ 32) :
    SignedBy [key] digest (encode [⟨Signature.currentVersion, data⟩]) ↔ key.Signs digest data := by
  by_cases hfits : Fits ⟨Signature.currentVersion, data⟩
  · have hdecode : decode (encode [⟨Signature.currentVersion, data⟩]) = .ok [⟨_, data⟩] :=
      decode_encode (by simpa using hfits)
    simp [signedBy_iff_of_decode hdecode]
  · refine iff_of_false (not_signedBy_of_error (decode_encode_of_not_fits hfits [])) ?_
    intro hsigns
    apply hfits
    apply fits_of_addressable
    rw [Bytes.Addressable, hsigns.length_eq]
    omega

namespace Verify

/-- Reading the digest off a bare signature always answers, with the digest that it is a signature
over, if there is one. -/
theorem answers_rawDigest (hk : t.keySizes.PublicAt h p key) (data : Bytes) :
    ∃ raw, Answers (rawDigest t data p) h (.ok raw) ∧
      ∀ digest, raw = some digest ↔ key.Signs digest data := by
  obtain ⟨file, -, -, hs⟩ := KeySizes.publicAt_iff.1 hk
  obtain ⟨r, hrecover, hblock⟩ : ∃ r, Answers (t.keySizes.recover
      (.loaded ⟨p, Rsa.byteLength key.modulus, .publicKey key⟩) data) h (.ok r) ∧ _ :=
    KeySizes.answers_recover hs
  simp only [Rsa.transform, Rsa.powMod_eq] at hblock
  cases r with
  | none =>
    refine ⟨none, Answers.bind hk (hrecover.bind (answers_pure none h)), fun digest => ?_⟩
    refine iff_of_false (Option.some_ne_none digest).symm fun hsigns => ?_
    -- the block of a digest is framed, so it would have been recovered
    obtain ⟨⟨hlen, hlt, hpad⟩, hcan⟩ := hsigns
    have hframe := (Padding.pad_eq_ok_iff.1 hpad).2
    cases (hblock _).2 ⟨hcan, hlen, hlt, rfl, _, hframe⟩
  | some block =>
    refine ⟨_, Answers.bind hk (hrecover.bind (answers_pure _ h)), fun digest => ?_⟩
    obtain ⟨hcan, hlen, hlt, htransform, -⟩ := (hblock block).1 rfl
    rw [Padding.unpad_eq_some_iff]
    exact ⟨fun hpad => ⟨⟨hlen, hlt, htransform ▸ hpad⟩, hcan⟩, fun hsigns => htransform ▸ hsigns.pad_eq⟩

theorem answers_verifyDigest_alone (hk : t.keySizes.PublicAt h p key)
    (hsize : 62 ≤ Rsa.byteLength key.modulus) (hd : digest.length = digestSize) (data : Bytes) :
    ∃ accepted,
      Answers (verifyDigest t (Container.encode [⟨Signature.currentVersion, data⟩]) [p] digest) h
        (.ok accepted) ∧ (accepted = true ↔ key.Signs digest data) := by
  have hkeys : List.Forall₂ (t.keySizes.PublicAt h) [p] [key] := .cons hk .nil
  obtain ⟨accepted, haccepted, hsigned⟩ :=
    answers_verifyDigest (by simpa using hsize) hd hkeys
      (Container.encode [⟨Signature.currentVersion, data⟩])
  exact ⟨accepted, haccepted, hsigned.trans (Container.signedBy_encode_iff hk.byteLength_lt)⟩

theorem signs_of_verifyDigest_alone (hk : t.keySizes.PublicAt h p key)
    (hsize : 62 ≤ Rsa.byteLength key.modulus) (hd : digest.length = digestSize)
    (htrue : Answers
      (verifyDigest t (Container.encode [⟨Signature.currentVersion, data⟩]) [p] digest) h
        (.ok true)) : key.Signs digest data := by
  obtain ⟨accepted, haccepted, hsigns⟩ := answers_verifyDigest_alone hk hsize hd data
  cases haccepted.unique htrue
  exact hsigns.1 rfl

/-- For every key that loads and has room for the block of a digest, and for any bytes as a
signature. The digest that is read off the signature is the one for which a container with that
signature alone is accepted, so a container with one signature is never accepted for two digests. -/
theorem rawDigest_agrees (hk : t.keySizes.PublicAt h p key)
    (hsize : 62 ≤ Rsa.byteLength key.modulus) (data : Bytes) :
    ∃ raw, Answers (rawDigest t data p) h (.ok raw) ∧
      (∀ digest, digest.length = digestSize → ∃ accepted,
        Answers (verifyDigest t (Container.encode [⟨Signature.currentVersion, data⟩]) [p] digest) h
          (.ok accepted) ∧
        (raw = some digest ↔ accepted = true)) ∧
      ∀ digest digest', digest.length = digestSize → digest'.length = digestSize →
        Answers (verifyDigest t (Container.encode [⟨Signature.currentVersion, data⟩]) [p] digest) h
          (.ok true) →
        Answers (verifyDigest t (Container.encode [⟨Signature.currentVersion, data⟩]) [p] digest') h
          (.ok true) →
        digest = digest' := by
  obtain ⟨raw, hanswers, hraw⟩ := answers_rawDigest hk data
  refine ⟨raw, hanswers, fun digest hd => ?_, fun digest digest' hd hd' htrue htrue' => ?_⟩
  · obtain ⟨accepted, haccepted, hsigns⟩ := answers_verifyDigest_alone hk hsize hd data
    exact ⟨accepted, haccepted, (hraw digest).trans hsigns.symm⟩
  · have hsigns := signs_of_verifyDigest_alone hk hsize hd htrue
    have hsigns' := signs_of_verifyDigest_alone hk hsize hd' htrue'
    exact hsigns.unique hsigns'

theorem sample_rawDigest_agrees :
    ∃ data, Answers (rawDigest Sample.app.toolkit data ⟨false, ["public"]⟩) (Sample.host [])
        (.ok (some (sha256 []))) ∧
      Answers (verifyDigest Sample.app.toolkit
        (Container.encode [⟨Signature.currentVersion, data⟩]) [⟨false, ["public"]⟩] (sha256 []))
        (Sample.host []) (.ok true) := by
  have hsize : 62 ≤ Rsa.byteLength Sample.privateKey.publicHalf.modulus :=
    Sample.app_started.room_for_block _ Sample.supports
  obtain ⟨block, hpad⟩ := Padding.exists_pad (length_sha256 []) (Int.ofNat_le.2 hsize)
  have hsigns := Rsa.PrivateKey.signs_transform Sample.inverts Sample.canTransform hpad
  obtain ⟨raw, hraw, hverify, -⟩ := rawDigest_agrees (Sample.publicAt []) hsize
    (Rsa.transform Sample.privateKey.modulus Sample.privateKey.exponent block)
  obtain ⟨accepted, haccepted, hiff⟩ := hverify _ (length_sha256 [])
  obtain ⟨raw', hraw', hread⟩ := answers_rawDigest (Sample.publicAt [])
    (Rsa.transform Sample.privateKey.modulus Sample.privateKey.exponent block)
  cases hraw.unique hraw'
  have hsome := (hread _).2 hsigns
  rw [hiff.1 hsome] at haccepted
  rw [hsome] at hraw
  exact ⟨_, hraw, haccepted⟩

end Verify

end UpdateSeal
