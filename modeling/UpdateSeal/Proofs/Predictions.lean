import UpdateSeal.Proofs.Applications
import UpdateSeal.Proofs.Containers
import UpdateSeal.Proofs.Documents
import UpdateSeal.Signing.Sign

/-!
# Predicted containers

Predicting the size of a container and filling it go through the same keys in the same order. So
one returns exactly if the other does, a key that does not load stops both with one fault, and the
container has the predicted size and a current signature for each key.
-/

namespace UpdateSeal

open UpdateSeal.Action

variable {h : Host} {p : Path} {keys : List Path} {secret : Rsa.PrivateKey} {digest : Bytes}

namespace KeySizes

variable {s : KeySizes}

theorem loadPrivate_answers (s : KeySizes) (h : Host) (p : Path) :
    (∃ secret, s.PrivateAt h p secret) ∨ ∃ e, Answers (s.loadPrivate p) h (.error e) := by
  cases hr : h.files.read h.workingDirectory p with
  | error reason =>
    have hread : Answers (readKeyFile p) h (.error (.key (.unreadable p ⟨reason, some p⟩))) :=
      (answers_read_error hr).tryCatch_error (answers_throw _ h)
    exact .inr ⟨_, hread.bind_error⟩
  | ok file =>
    have hfile : Answers (readKeyFile p) h (.ok file) := answers_readKeyFile hr
    cases hhandle : s.privateHandle p file with
    | error e => exact .inr ⟨_, hfile.bind (answers_liftExcept_error hhandle h)⟩
    | ok k =>
      have hload : Answers (s.loadPrivate p) h (.ok k) := hfile.bind (answers_liftExcept_ok hhandle h)
      obtain ⟨file, key, -, -, -, rfl⟩ := loadPrivate_answers_iff.1 hload
      exact .inl ⟨key, hload⟩

theorem PrivateAt.supports (hk : s.PrivateAt h p secret) : s.Supports secret.modulus := by
  obtain ⟨-, -, -, hs⟩ := privateAt_iff.1 hk
  exact hs

theorem PrivateAt.byteLength_lt (hk : s.PrivateAt h p secret) :
    Rsa.byteLength secret.modulus < 2 ^ 32 := by
  obtain ⟨file, -, hkey, -⟩ := privateAt_iff.1 hk
  exact KeyDocument.privateKey?_lt hkey

end KeySizes

namespace Container

/-- Sizes are refused with the first of them that is not positive. If there is none, the predicted
length is that of every container of current signatures whose data have these sizes, in order. -/
theorem encodedLength_exact (sizes : List Int) :
    ((∃ size ∈ sizes, size ≤ 0) → ∃ size, sizes.find? (· ≤ 0) = some size ∧
      (encodedLength sizes).mapError ValueFault.sizeNotPositive = .error (.sizeNotPositive size)) ∧
    ((∀ size ∈ sizes, 0 < size) → ∃ length, encodedLength sizes = .ok length ∧
      ∀ entries : List Signature, (∀ s ∈ entries, s.version = Signature.currentVersion) →
        (entries.map fun s => (s.data.length : Int)) = sizes → (encode entries).length = length) := by
  constructor
  · intro hsize
    have hsome : (sizes.find? (· ≤ 0)).isSome := List.find?_isSome.2 (by simpa using hsize)
    obtain ⟨size, hfirst⟩ := Option.isSome_iff_exists.1 hsome
    refine ⟨size, hfirst, ?_⟩
    rw [encodedLength_of_find? hfirst]
    rfl
  · intro hpos
    refine ⟨_, encodedLength_of_pos hpos, ?_⟩
    rintro entries hversion rfl
    rw [length_encode hversion, List.map_map]
    rfl

theorem encodedLength_at_boundary :
    (∃ size, [127, 0, -3].find? (· ≤ (0 : Int)) = some size ∧
      (encodedLength [127, 0, -3]).mapError ValueFault.sizeNotPositive =
        .error (.sizeNotPositive size)) ∧
    encodedLength [127, 128] =
      .ok (encode [⟨1, List.replicate 127 0⟩, ⟨1, List.replicate 128 10⟩]).length := by
  constructor
  · exact (encodedLength_exact [127, 0, -3]).1 ⟨0, by decide, by decide⟩
  · obtain ⟨length, hlength, hentries⟩ := (encodedLength_exact [127, 128]).2 (by decide)
    rw [hlength, hentries _ (by simp [Signature.currentVersion]) (by simp)]

end Container

namespace Sign

variable {t : Toolkit} {secrets : List Rsa.PrivateKey} {entries : List Signature}

/-- `s` is the signature over `digest` that the key at `p` makes. -/
def MadeBy (t : Toolkit) (h : Host) (digest : Bytes) (p : Path) (s : Signature) : Prop :=
  ∃ secret block, t.keySizes.PrivateAt h p secret ∧
    Padding.pad digest (Rsa.byteLength secret.modulus) = .ok block ∧
      s = ⟨Signature.currentVersion, Rsa.transform secret.modulus secret.exponent block⟩

/-- `s` is a current signature, as long as the modulus of the key at `p`. -/
def SizedBy (t : Toolkit) (h : Host) (p : Path) (s : Signature) : Prop :=
  s.version = Signature.currentVersion ∧
    ∃ secret, t.keySizes.PrivateAt h p secret ∧ s.data.length = Rsa.byteLength secret.modulus

theorem MadeBy.sizedBy {s : Signature} (hs : MadeBy t h digest p s) : SizedBy t h p s := by
  obtain ⟨secret, block, hk, -, rfl⟩ := hs
  exact ⟨rfl, secret, hk, Rsa.length_transform _ _ _⟩

theorem answers_size (hk : t.keySizes.PrivateAt h p secret) :
    Answers (do return (← t.keySizes.loadPrivate p).modulusSize) h
      (.ok (Rsa.byteLength secret.modulus : Int)) :=
  Answers.bind hk (answers_pure _ h)

theorem answers_signWith (hk : t.keySizes.PrivateAt h p secret)
    (hsize : 62 ≤ Rsa.byteLength secret.modulus) (hd : digest.length = digestSize) :
    ∃ s, Answers (signWith t digest p) h (.ok s) ∧ MadeBy t h digest p s ∧
      s.data.length = Rsa.byteLength secret.modulus := by
  have hsize' : (62 : Int) ≤ Rsa.byteLength secret.modulus := by omega
  obtain ⟨block, hblock⟩ := Padding.exists_pad hd hsize'
  have hsign := KeySizes.sign_eq (p := p) hk.supports hblock
  refine ⟨_, ?_, ⟨secret, block, hk, hblock, rfl⟩, Rsa.length_transform _ _ _⟩
  exact Answers.bind hk ((answers_liftExcept_ok hblock h).bind
    ((answers_liftExcept_ok hsign h).bind (answers_pure _ h)))

/-- Keys are gone through up to the first that does not load, in both cases with one outcome. -/
theorem answers_sizes_and_signatures
    (hblock : ∀ modulus, t.keySizes.Supports modulus → 62 ≤ Rsa.byteLength modulus)
    (hd : digest.length = digestSize) (keys : List Path) :
    (∃ entries, Answers (keys.mapM (signWith t digest)) h (.ok entries) ∧
      Answers (Plan.signatureSizes t keys) h (.ok (entries.map fun s => (s.data.length : Int))) ∧
      List.Forall₂ (MadeBy t h digest) keys entries) ∨
    ∃ e, Answers (keys.mapM (signWith t digest)) h (.error e) ∧
      Answers (Plan.signatureSizes t keys) h (.error e) := by
  unfold Plan.signatureSizes
  induction keys with
  | nil => exact .inl ⟨[], answers_pure [] h, answers_pure [] h, .nil⟩
  | cons p keys ih =>
    simp only [List.mapM_cons]
    -- the first key that fails decides, before any later key is looked at
    cases t.keySizes.loadPrivate_answers h p with
    | inr hfails =>
      obtain ⟨e, he⟩ := hfails
      exact .inr ⟨e, he.bind_error.bind_error, he.bind_error.bind_error⟩
    | inl hloads =>
      obtain ⟨secret, hk⟩ := hloads
      obtain ⟨s, hsign, hmade, hlen⟩ := answers_signWith hk (hblock _ hk.supports) hd
      have hsize := answers_size hk
      cases ih with
      | inr hfails =>
        obtain ⟨e, hsigns, hsizes⟩ := hfails
        exact .inr ⟨e, hsign.bind hsigns.bind_error, hsize.bind hsizes.bind_error⟩
      | inl hloads =>
        obtain ⟨entries, hsigns, hsizes, hentries⟩ := hloads
        refine .inl ⟨_, hsign.bind (hsigns.bind (answers_pure _ h)), ?_, .cons hmade hentries⟩
        rw [List.map_cons, hlen]
        exact hsize.bind (hsizes.bind (answers_pure _ h))

theorem exists_sizedBy (hs : List.Forall₂ (MadeBy t h digest) keys entries) :
    ∀ s ∈ entries, ∃ p, SizedBy t h p s := by
  have hboth := hs.flip.imp fun s p hmade =>
    (⟨⟨p, MadeBy.sizedBy hmade⟩, trivial⟩ : (∃ p, SizedBy t h p s) ∧ True)
  exact ((List.forall₂_and_left _ _).1 hboth).1

theorem decode_encode_signatures (hs : List.Forall₂ (MadeBy t h digest) keys entries) :
    Container.decode (Container.encode entries) = .ok entries := by
  apply Container.decode_encode
  intro s hmem
  obtain ⟨p, -, secret, hk, hlen⟩ := exists_sizedBy hs s hmem
  have hlt := hk.byteLength_lt
  apply Container.fits_of_addressable
  rw [Bytes.Addressable, hlen]
  omega

theorem blobLengthOfSizes_encode
    (hblock : ∀ modulus, t.keySizes.Supports modulus → 62 ≤ Rsa.byteLength modulus)
    (hs : List.Forall₂ (MadeBy t h digest) keys entries) (hne : keys ≠ []) :
    Plan.blobLengthOfSizes (entries.map fun s => (s.data.length : Int)) =
      .ok (Container.encode entries).length := by
  have hall : ∀ s ∈ entries, s.version = Signature.currentVersion ∧ s.data ≠ [] := by
    intro s hmem
    obtain ⟨p, hversion, secret, hk, hlen⟩ := exists_sizedBy hs s hmem
    refine ⟨hversion, List.ne_nil_of_length_pos ?_⟩
    have := hblock _ hk.supports
    omega
  have hempty : (entries.map fun s => (s.data.length : Int)).isEmpty = false := by
    cases hs with
    | nil => exact absurd rfl hne
    | cons => rfl
  have hlength := Container.encodedLength_eq (fun s hmem => (hall s hmem).1)
    (fun s hmem => (hall s hmem).2)
  rw [Plan.blobLengthOfSizes, hempty, if_neg Bool.false_ne_true, hlength]
  rfl

/-- The predicted size is the sum of the sizes of the entries. -/
theorem answers_blobLength (hk : List.Forall₂ (t.keySizes.PrivateAt h) keys secrets)
    (hpos : ∀ secret ∈ secrets, 0 < Rsa.byteLength secret.modulus) (hne : keys ≠ []) :
    Answers (Plan.blobLength t keys) h
      (.ok (secrets.map fun s => Container.entryLength (Rsa.byteLength s.modulus)).sum) := by
  have hsizes : Answers (Plan.signatureSizes t keys) h
      (.ok (secrets.map fun s => (Rsa.byteLength s.modulus : Int))) :=
    answers_mapM (List.forall₂_map_right_iff.2 (hk.imp fun _ _ => answers_size))
  have hlength : Plan.blobLengthOfSizes (secrets.map fun s => (Rsa.byteLength s.modulus : Int)) =
      .ok (secrets.map fun s => Container.entryLength (Rsa.byteLength s.modulus)).sum := by
    have hempty : (secrets.map fun s => (Rsa.byteLength s.modulus : Int)).isEmpty = false := by
      cases hk with
      | nil => exact absurd rfl hne
      | cons => rfl
    rw [Plan.blobLengthOfSizes, hempty, if_neg Bool.false_ne_true,
      Container.encodedLength_of_pos (by simpa using hpos), List.map_map]
    rfl
  exact hsizes.bind ((answers_liftExcept_ok hlength h).bind
    ((answers_record _ _ h).bind (answers_pure _ h)))

/-- What signing with keys comes to: their signatures, and the sizes and the size that were
predicted. -/
structure Signed (t : Toolkit) (h : Host) (digest : Bytes) (keys : List Path)
    (entries : List Signature) : Prop where
  made : List.Forall₂ (MadeBy t h digest) keys entries
  decode : Container.decode (Container.encode entries) = .ok entries
  sizes : Answers (Plan.signatureSizes t keys) h (.ok (entries.map fun s => (s.data.length : Int)))
  length : Plan.blobLengthOfSizes (entries.map fun s => (s.data.length : Int)) =
    .ok (Container.encode entries).length
  predicted : Answers (Plan.blobLength t keys) h (.ok (Container.encode entries).length)
  blob : Answers (signDigest t digest keys) h (.ok (Container.encode entries))

/-- Signing with keys makes a container of the predicted size, or stops with the fault that
predicting stops with. -/
theorem signed_or_fault
    (hblock : ∀ modulus, t.keySizes.Supports modulus → 62 ≤ Rsa.byteLength modulus)
    (hd : digest.length = digestSize) (hne : keys ≠ []) :
    (∃ entries, Signed t h digest keys entries) ∨
      ∃ e, Answers (signDigest t digest keys) h (.error e) ∧
        Answers (Plan.blobLength t keys) h (.error e) := by
  have hsign : signDigest t digest keys =
      keys.mapM (signWith t digest) >>= fun entries => pure (Container.encode entries) := by
    rw [signDigest, if_neg (not_not.2 hd), List.isEmpty_eq_false_iff.2 hne,
      if_neg Bool.false_ne_true]
  cases answers_sizes_and_signatures (h := h) hblock hd keys with
  | inl hloads =>
    obtain ⟨entries, hsigns, hsizes, hmade⟩ := hloads
    have hlength := blobLengthOfSizes_encode hblock hmade hne
    refine .inl ⟨entries, hmade, decode_encode_signatures hmade, hsizes, hlength, ?_, ?_⟩
    · exact hsizes.bind ((answers_liftExcept_ok hlength h).bind
        ((answers_record _ _ h).bind (answers_pure _ h)))
    · rw [hsign]
      exact hsigns.bind (answers_pure _ h)
  | inr hfails =>
    obtain ⟨e, hsigns, hsizes⟩ := hfails
    refine .inr ⟨e, ?_, hsizes.bind_error⟩
    rw [hsign]
    exact hsigns.bind_error

/-- What predicting and signing with `keys` come to together: a container and its size, one fault,
or the two ways to report that there is no key. -/
inductive Outcome (t : Toolkit) (h : Host) (keys : List Path) :
    Except Failure Nat → Except Failure Bytes → Prop where
  | signed {entries : List Signature} {blob : Bytes} (hdecode : Container.decode blob = .ok entries)
      (hs : List.Forall₂ (SizedBy t h) keys entries) : Outcome t h keys (.ok blob.length) (.ok blob)
  | fault (hne : keys ≠ []) (e : Failure) : Outcome t h keys (.error e) (.error e)
  | noKeys (hnil : keys = []) :
      Outcome t h keys (.error (.value .noSizes)) (.error (.value .noKeys))

/-- Predicting the size of a container returns exactly if filling it does. The container then has
the predicted size and holds a current signature for each key in order, as long as its modulus. -/
theorem blobLength_agrees_with_signDigest {app : Application} (ha : app.Started)
    (hd : digest.length = digestSize) (keys : List Path) (h : Host) :
    ∃ predicted made, Answers (Plan.blobLength app.toolkit keys) h predicted ∧
      Answers (signDigest app.toolkit digest keys) h made ∧
      Outcome app.toolkit h keys predicted made := by
  by_cases hne : keys = []
  · subst hne
    have hsizes : Answers (Plan.signatureSizes app.toolkit []) h (.ok []) := answers_pure [] h
    have hsign : signDigest app.toolkit digest [] = throw (.value .noKeys) := by
      rw [signDigest, if_neg (not_not.2 hd)]
      rfl
    exact ⟨_, _, hsizes.bind (answers_throw _ h), hsign ▸ answers_throw _ h, .noKeys rfl⟩
  · cases signed_or_fault (h := h) ha.room_for_block hd hne with
    | inl hsigned =>
      obtain ⟨entries, hs⟩ := hsigned
      exact ⟨_, _, hs.predicted, hs.blob, .signed hs.decode (hs.made.imp fun _ _ => MadeBy.sizedBy)⟩
    | inr hfails =>
      obtain ⟨e, hsigns, hpredict⟩ := hfails
      exact ⟨_, _, hpredict, hsigns, .fault hne e⟩

theorem sample_blobLength_agrees : ∃ predicted made,
    Answers (Plan.blobLength Sample.app.toolkit [⟨false, ["key"]⟩, ⟨false, ["key"]⟩])
      (Sample.host []) predicted ∧
    Answers (signDigest Sample.app.toolkit (List.replicate 32 7)
      [⟨false, ["key"]⟩, ⟨false, ["key"]⟩]) (Sample.host []) made ∧
    Outcome Sample.app.toolkit (Sample.host []) [⟨false, ["key"]⟩, ⟨false, ["key"]⟩] predicted
      made :=
  blobLength_agrees_with_signDigest Sample.app_started (List.length_replicate ..) _ _

end Sign

end UpdateSeal
