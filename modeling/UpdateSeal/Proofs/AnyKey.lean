import UpdateSeal.Proofs.Grammar
import UpdateSeal.Proofs.Observations
import UpdateSeal.Proofs.Verifications

/-!
# Any key and any signature

Verifying a digest tries every key on every signature of a container, and stops at the first that
fits. All keys are loaded first, so one that does not load is a fault wherever it stands. Otherwise
the answer is whether one of the keys accepts the container on its own: neither the order of the keys
nor that of the signatures matters, and containers one behind the other are accepted if one of them
is.
-/

namespace UpdateSeal

open UpdateSeal.Action

namespace Container

variable {keys : List Rsa.PublicKey} {digest blob blob' : Bytes} {entries entries' : List Signature}

theorem signedBy_iff_exists_key :
    SignedBy keys digest blob ↔ ∃ key ∈ keys, SignedBy [key] digest blob := by
  simp only [SignedBy, List.mem_singleton, exists_eq_left]
  constructor
  · intro hsigned
    obtain ⟨entries, hdecode, s, hs, hv, key, hkey, hsigns⟩ := hsigned
    exact ⟨key, hkey, entries, hdecode, s, hs, hv, hsigns⟩
  · intro hsigned
    obtain ⟨key, hkey, entries, hdecode, s, hs, hv, hsigns⟩ := hsigned
    exact ⟨entries, hdecode, s, hs, hv, key, hkey, hsigns⟩

theorem signedBy_iff_of_decode (h : decode blob = .ok entries) :
    SignedBy keys digest blob ↔
      ∃ s ∈ entries, s.version = Signature.currentVersion ∧ ∃ key ∈ keys, key.Signs digest s.data := by
  simp [SignedBy, h]

theorem not_signedBy_of_error {e : ContainerFault} (h : decode blob = .error e) :
    ¬ SignedBy keys digest blob := by
  simp [SignedBy, h]

theorem signedBy_congr_of_perm (h : decode blob = .ok entries) (h' : decode blob' = .ok entries')
    (hperm : entries.Perm entries') : SignedBy keys digest blob' ↔ SignedBy keys digest blob := by
  simp only [signedBy_iff_of_decode h, signedBy_iff_of_decode h', hperm.mem_iff]

theorem signedBy_append (h : decode blob = .ok entries) (h' : decode blob' = .ok entries') :
    SignedBy keys digest (blob ++ blob') ↔
      SignedBy keys digest blob ∨ SignedBy keys digest blob' := by
  rw [signedBy_iff_of_decode h, signedBy_iff_of_decode h', signedBy_iff_of_decode (decode_append h h')]
  simp only [List.mem_append, or_and_right, exists_or]

theorem not_signedBy_append_of_error {e : ContainerFault} (h : decode blob = .ok entries)
    (h' : decode blob' = .error e) : ¬ SignedBy keys digest (blob ++ blob') := by
  intro hsigned
  obtain ⟨all, hall, -⟩ := hsigned
  obtain ⟨entries', hentries'⟩ := exists_decode_of_append h hall
  rw [hentries'] at h'
  cases h'

end Container

namespace Verify

variable {t : Toolkit} {h : Host} {p : Path} {paths paths' : List Path}
variable {digest block blob : Bytes} {key : Rsa.PublicKey} {keys : List Rsa.PublicKey}

/-! ### One key -/

theorem answers_verifyBlock (hk : t.keySizes.PublicAt h p key)
    (hb : Padding.pad digest (Rsa.byteLength key.modulus) = .ok block) (blob : Bytes) :
    ∃ b, Answers (verifyBlock t blob p block) h (.ok b) ∧
      (b = true ↔ Container.SignedBy [key] digest blob) := by
  obtain ⟨file, -, -, hs⟩ := KeySizes.publicAt_iff.1 hk
  have hread := answers_readContainer blob h
  obtain ⟨b, hmatch, hb⟩ : ∃ b, Answers (matchFrom t.keySizes
      ⟨p, Rsa.byteLength key.modulus, .publicKey key⟩ block 0
      ((Container.decode blob).toOption.getD [])) h (.ok b) ∧
      (b = true ↔ ∃ e ∈ (Container.decode blob).toOption.getD [],
        e.version = Signature.currentVersion ∧ key.Signs digest e.data) := answers_matchFrom hs hb 0
  refine ⟨b, Answers.bind hk (hread.bind hmatch), hb.trans ?_⟩
  cases hdecode : Container.decode blob with
  | error e => simp [Container.not_signedBy_of_error hdecode, Except.toOption]
  | ok entries => simp [Container.signedBy_iff_of_decode hdecode, Except.toOption]

/-! ### Many keys -/

/-- The keys at `paths` load as `keyOf` says, each with room for the block of a digest. -/
def Loaded (t : Toolkit) (h : Host) (paths : List Path) (keyOf : Path → Rsa.PublicKey) : Prop :=
  ∀ p ∈ paths, t.keySizes.PublicAt h p (keyOf p) ∧ 62 ≤ Rsa.byteLength (keyOf p).modulus

theorem observes_loadPublic (s : KeySizes) (p : Path) : Observes (s.loadPublic p) :=
  ((observes_read p).tryCatch fun e => by
    split
    · exact observes_throw _
    · exact observes_throw _).bind fun _ => observes_liftExcept _ _

/-- A key that does not load is a fault, wherever it stands and whatever the container is. -/
theorem verifyDigest_fails {e : Failure} (hp : p ∈ paths)
    (he : Answers (t.keySizes.loadPublic p) h (.error e)) (blob digest : Bytes) :
    ∃ e, Answers (verifyDigest t blob paths digest) h (.error e) := by
  obtain ⟨r, hload⟩ := Observes.mapM (observes_loadPublic t.keySizes) paths h
  cases r with
  | error e => exact ⟨e, hload.bind_error⟩
  | ok handles =>
    obtain ⟨log, hrun⟩ := hload.runOn
    have hall := forall₂_of_mapM (observes_loadPublic t.keySizes) hrun
    obtain ⟨i, hi, rfl⟩ := List.getElem_of_mem hp
    have hi' : i < handles.length := hall.length_eq ▸ hi
    cases he.unique (List.Forall₂.get hall hi hi')

theorem exists_loaded (hload : ∀ p ∈ paths, ∀ e, ¬ Answers (t.keySizes.loadPublic p) h (.error e))
    (hbits : ∀ p ∈ paths, ∀ key, t.keySizes.PublicAt h p key → 1024 ≤ Rsa.bitLength key.modulus) :
    ∃ keyOf, Loaded t h paths keyOf := by
  have hkey : ∀ p ∈ paths, ∃ key, t.keySizes.PublicAt h p key := by
    intro p hp
    obtain ⟨r, hr⟩ := observes_loadPublic t.keySizes p h
    cases r with
    | error e => exact absurd hr (hload p hp e)
    | ok k => exact KeySizes.exists_publicAt hr
  have : Nonempty Rsa.PublicKey := ⟨⟨0, 0⟩⟩
  choose! keyOf hkeyOf using hkey
  refine ⟨keyOf, fun p hp => ⟨hkeyOf p hp, ?_⟩⟩
  have := Rsa.byteLength_of_bitLength (hbits p hp _ (hkeyOf p hp))
  omega

variable {keyOf : Path → Rsa.PublicKey}

theorem Loaded.congr (hk : Loaded t h paths keyOf) (hmem : ∀ p, p ∈ paths' ↔ p ∈ paths) :
    Loaded t h paths' keyOf := fun p hp => hk p ((hmem p).1 hp)

theorem Loaded.answers_verifyDigest (hk : Loaded t h paths keyOf)
    (hd : digest.length = digestSize) (blob : Bytes) :
    ∃ b, Answers (verifyDigest t blob paths digest) h (.ok b) ∧
      (b = true ↔ ∃ p ∈ paths, Container.SignedBy [keyOf p] digest blob) := by
  have hkeys : List.Forall₂ (t.keySizes.PublicAt h) paths (paths.map keyOf) := by
    rw [List.forall₂_map_right_iff, List.forall₂_same]
    exact fun p hp => (hk p hp).1
  have hsize : ∀ key ∈ paths.map keyOf, 62 ≤ Rsa.byteLength key.modulus := by
    rw [List.forall_mem_map]
    exact fun p hp => (hk p hp).2
  obtain ⟨b, hverify, hb⟩ := Verify.answers_verifyDigest hsize hd hkeys blob
  refine ⟨b, hverify, hb.trans ?_⟩
  rw [Container.signedBy_iff_exists_key]
  simp only [List.mem_map, exists_exists_and_eq_and]

/-- What verifying `digest` with the keys at `paths` answers, for every container. -/
structure AnyOf (t : Toolkit) (h : Host) (paths : List Path) (digest : Bytes)
    (single : Path → Bytes → Bool) (answer : Bytes → Bool) : Prop where
  /-- Each key answers on its own, with its block for the digest. -/
  alone : ∀ p ∈ paths, ∃ key block, Answers (t.keySizes.loadPublic p) h (.ok key) ∧
    Padding.pad digest key.modulusSize = .ok block ∧
    ∀ blob, Answers (verifyBlock t blob p block) h (.ok (single p blob))
  any : ∀ blob, answer blob = paths.any fun p => single p blob
  /-- The keys may stand in any order, and more than once. -/
  answers : ∀ paths', (∀ p, p ∈ paths' ↔ p ∈ paths) → ∀ blob,
    Answers (verifyDigest t blob paths' digest) h (.ok (answer blob))
  perm : ∀ blob blob' entries entries', Container.decode blob = .ok entries →
    Container.decode blob' = .ok entries' → entries.Perm entries' → answer blob' = answer blob
  append : ∀ blob blob' entries entries', Container.decode blob = .ok entries →
    Container.decode blob' = .ok entries' → answer (blob ++ blob') = (answer blob || answer blob')
  append_unreadable : ∀ blob blob' entries e, Container.decode blob = .ok entries →
    Container.decode blob' = .error e → answer (blob ++ blob') = false

open Classical in
theorem Loaded.anyOf (hk : Loaded t h paths keyOf) (hd : digest.length = digestSize) :
    AnyOf t h paths digest (fun p blob => decide (Container.SignedBy [keyOf p] digest blob))
      fun blob => paths.any fun p => decide (Container.SignedBy [keyOf p] digest blob) := by
  -- the answer in terms of the keys, which is how the laws of containers are stated
  have hanswer : ∀ blob,
      (paths.any fun p => decide (Container.SignedBy [keyOf p] digest blob)) =
        decide (Container.SignedBy (paths.map keyOf) digest blob) := by
    intro blob
    rw [Bool.eq_iff_iff, List.any_eq_true, decide_eq_true_iff, Container.signedBy_iff_exists_key]
    simp only [List.mem_map, exists_exists_and_eq_and, decide_eq_true_iff]
  constructor
  case alone =>
    intro p hp
    obtain ⟨hkey, hsize⟩ := hk p hp
    obtain ⟨block, hpad⟩ := Padding.exists_pad hd (Int.ofNat_le.2 hsize)
    refine ⟨_, block, hkey, hpad, fun blob => ?_⟩
    obtain ⟨b, hverify, hb⟩ := answers_verifyBlock hkey hpad blob
    rwa [← Bool.eq_iff_iff.2 (hb.trans decide_eq_true_iff.symm)]
  case any => exact fun blob => rfl
  case answers =>
    intro paths' hmem blob
    obtain ⟨b, hverify, hb⟩ := (hk.congr hmem).answers_verifyDigest hd blob
    have hb' : b = paths.any fun p => decide (Container.SignedBy [keyOf p] digest blob) := by
      rw [Bool.eq_iff_iff, hb, List.any_eq_true]
      simp only [hmem, decide_eq_true_iff]
    rwa [← hb']
  case perm =>
    intro blob blob' entries entries' hdecode hdecode' hperm
    simp only [hanswer]
    exact decide_eq_decide.2 (Container.signedBy_congr_of_perm hdecode hdecode' hperm)
  case append =>
    intro blob blob' entries entries' hdecode hdecode'
    simp only [hanswer]
    rw [← Bool.decide_or]
    exact decide_eq_decide.2 (Container.signedBy_append hdecode hdecode')
  case append_unreadable =>
    intro blob blob' entries e hdecode hdecode'
    simp only [hanswer]
    exact decide_eq_false (Container.not_signedBy_append_of_error hdecode hdecode')

/-- Verifying a digest with keys of which those that load have at least 1024 bits. If one does not
load, verifying raises for every container. Otherwise it answers for every container whether one of
the keys accepts it, and the orders of keys and signatures make no difference. -/
theorem verifyDigest_any (hd : digest.length = digestSize)
    (hbits : ∀ p ∈ paths, ∀ key, t.keySizes.PublicAt h p key → 1024 ≤ Rsa.bitLength key.modulus) :
    ((∃ p ∈ paths, ∃ e, Answers (t.keySizes.loadPublic p) h (.error e)) →
      ∀ blob, ∃ e, Answers (verifyDigest t blob paths digest) h (.error e)) ∧
    ((¬ ∃ p ∈ paths, ∃ e, Answers (t.keySizes.loadPublic p) h (.error e)) →
      ∃ single answer, AnyOf t h paths digest single answer) := by
  constructor
  · intro hfails blob
    obtain ⟨p, hp, e, he⟩ := hfails
    exact verifyDigest_fails hp he blob digest
  · intro hload
    obtain ⟨keyOf, hk⟩ := exists_loaded (fun p hp e he => hload ⟨p, hp, e, he⟩) hbits
    exact ⟨_, _, hk.anyOf hd⟩

/-- What a key answers on its own. -/
theorem AnyOf.single_iff {single : Path → Bytes → Bool} {answer : Bytes → Bool}
    (ha : AnyOf t h paths digest single answer) (hp : p ∈ paths) (hk : t.keySizes.PublicAt h p key)
    (blob : Bytes) : single p blob = true ↔ Container.SignedBy [key] digest blob := by
  obtain ⟨key', block, hload, hpad, hverify⟩ := ha.alone p hp
  obtain rfl := Except.ok.inj (hload.unique hk)
  obtain ⟨b, hverify', hb⟩ := answers_verifyBlock hk hpad blob
  rwa [Except.ok.inj ((hverify blob).unique hverify')]

end Verify

namespace Sample

/-- A key of 1800 bits, longer than the one that signs. -/
def longerKey : Rsa.PublicKey := ⟨(2 ^ 1279 - 1) * (2 ^ 521 - 1), 257⟩

def longerFile : Bytes :=
  Pem.write "RSA PUBLIC KEY" (Der.writeNumbers [longerKey.modulus, longerKey.exponent])

def twoSizes : Toolkit := { app.toolkit with keySizes := .ofList [1128, 1800] }

def twoKeys : Host :=
  { files := ⟨[(["longer"], .file longerFile FileTree.plainMode),
      (["public"], .file publicFile FileTree.plainMode)]⟩ }

theorem twoSizes_supports {modulus : Nat} :
    twoSizes.keySizes.Supports modulus ↔ (Rsa.bitLength modulus : Int) ∈ [1128, 1800] := by
  rw [KeySizes.Supports, twoSizes, KeySizes.contains_ofList, List.contains_iff_mem]

theorem publicAt_longer :
    twoSizes.keySizes.PublicAt twoKeys ⟨false, ["longer"]⟩ longerKey :=
  KeySizes.publicAt_iff.2 ⟨longerFile, rfl, KeyDocument.publicKey?_write (by decide +kernel),
    twoSizes_supports.2 (by decide +kernel)⟩

theorem publicAt_public :
    twoSizes.keySizes.PublicAt twoKeys ⟨false, ["public"]⟩ privateKey.publicHalf :=
  KeySizes.publicAt_iff.2 ⟨publicFile, rfl, publicKey?_publicFile,
    twoSizes_supports.2 (by decide +kernel)⟩

/-- A container of the one key, which the longer one does not accept. -/
theorem exists_signedBy_one (digest : Bytes) (hd : digest.length = digestSize) :
    ∃ blob, Container.SignedBy [privateKey.publicHalf] digest blob ∧
      ¬ Container.SignedBy [longerKey] digest blob := by
  have hsize : (62 : Int) ≤ Rsa.byteLength privateKey.modulus := by decide +kernel
  obtain ⟨block, hblock⟩ := Padding.exists_pad hd hsize
  have hfits := Rsa.PrivateKey.fits_transform inverts hblock
  have hlength := hfits.length_eq
  generalize Rsa.transform privateKey.modulus privateKey.exponent block = s at hfits hlength
  have hdecode : Container.decode (Container.encode [⟨Signature.currentVersion, s⟩]) =
      .ok [⟨Signature.currentVersion, s⟩] := by
    apply Container.decode_encode_of_addressable
    rw [List.forall_mem_singleton, Bytes.Addressable, hlength]
    decide +kernel
  refine ⟨_, ⟨_, hdecode, _, List.mem_singleton_self _, rfl, _, List.mem_singleton_self _, hfits,
    canTransform⟩, ?_⟩
  rw [Container.signedBy_iff_of_decode hdecode]
  intro hsigned
  obtain ⟨s', hs', -, key, hkey, hsigns⟩ := hsigned
  obtain rfl := List.mem_singleton.1 hs'
  obtain rfl := List.mem_singleton.1 hkey
  have hsame := hlength.symm.trans hsigns.length_eq
  exact absurd hsame (by decide +kernel)

end Sample

namespace Verify

/-- Of two keys the second accepts. -/
theorem sample_verifyDigest_any :
    ∃ single answer blob, AnyOf Sample.twoSizes Sample.twoKeys
        [⟨false, ["longer"]⟩, ⟨false, ["public"]⟩] (sha256 []) single answer ∧
      single ⟨false, ["longer"]⟩ blob = false ∧ single ⟨false, ["public"]⟩ blob = true ∧
        answer blob = true := by
  obtain ⟨blob, hsigned, hnot⟩ := Sample.exists_signedBy_one (sha256 []) (length_sha256 [])
  obtain ⟨single, answer, hany⟩ : ∃ single answer, AnyOf Sample.twoSizes Sample.twoKeys
      [⟨false, ["longer"]⟩, ⟨false, ["public"]⟩] (sha256 []) single answer := by
    refine (verifyDigest_any (length_sha256 []) ?_).2 ?_
    · intro p hp key hk
      obtain ⟨file, -, -, hs⟩ := KeySizes.publicAt_iff.1 hk
      have hbits := Sample.twoSizes_supports.1 hs
      simp only [List.mem_cons, List.not_mem_nil, or_false] at hbits
      omega
    · rintro ⟨p, hp, e, he⟩
      simp only [List.mem_cons, List.not_mem_nil, or_false] at hp
      rcases hp with rfl | rfl
      · cases he.unique Sample.publicAt_longer
      · cases he.unique Sample.publicAt_public
  have hlonger : single ⟨false, ["longer"]⟩ blob = false := by
    rw [Bool.eq_false_iff, ne_eq, hany.single_iff (by simp) Sample.publicAt_longer]
    exact hnot
  have hpublic := (hany.single_iff (by simp) Sample.publicAt_public blob).2 hsigned
  refine ⟨single, answer, blob, hany, hlonger, hpublic, ?_⟩
  rw [hany.any, List.any_cons, List.any_cons, hlonger, hpublic]
  rfl

end Verify

end UpdateSeal
