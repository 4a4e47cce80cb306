import Mathlib.Data.List.Sort
import UpdateSeal.Proofs.Blocks
import UpdateSeal.Proofs.Storage
import UpdateSeal.Signing.Verify

/-!
# Keys that load

A key loads if its file holds an RSA key of a supported size. Loaded keys of at least 62 bytes sign
every digest, and recovering never fails: it gives a block exactly for the signatures over its
digest.
-/

namespace UpdateSeal

open UpdateSeal.Action

namespace KeySizes

variable {s : KeySizes} {h : Host} {p : Path} {file data digest block : Bytes}
variable {key : Rsa.PublicKey} {secret : Rsa.PrivateKey}

theorem contains_ofList (sizes : List Int) (bits : Int) :
    (ofList sizes).sizes.contains bits = sizes.contains bits := by
  rw [Bool.eq_iff_iff, List.contains_iff_mem, List.contains_iff_mem, ofList]
  simp only [List.mem_eraseDups, List.mem_mergeSort]

/-- Loading the public key at `p` gives `key`. -/
def PublicAt (s : KeySizes) (h : Host) (p : Path) (key : Rsa.PublicKey) : Prop :=
  Answers (s.loadPublic p) h (.ok ⟨p, Rsa.byteLength key.modulus, .publicKey key⟩)

/-- Loading the private key at `p` gives `key`. -/
def PrivateAt (s : KeySizes) (h : Host) (p : Path) (key : Rsa.PrivateKey) : Prop :=
  Answers (s.loadPrivate p) h (.ok ⟨p, Rsa.byteLength key.modulus, .privateKey key⟩)

/-- Keys with this modulus are of a supported size. -/
def Supports (s : KeySizes) (modulus : Nat) : Prop := s.sizes.contains (Rsa.bitLength modulus : Int)

theorem check_eq_ok_iff {modulus : Nat} :
    s.check (Rsa.bitLength modulus) p = .ok () ↔ s.Supports modulus := by
  unfold check
  split <;> simp_all [Supports]

theorem answers_readKeyFile (hr : h.Holds p file) : Answers (readKeyFile p) h (.ok file) :=
  (answers_read hr).tryCatch_ok

theorem load_answers_iff {handle : Bytes → Except Failure LoadedKey} {k : LoadedKey} :
    Answers (readKeyFile p >>= fun file => liftExcept id (handle file)) h (.ok k) ↔
      ∃ file, h.Holds p file ∧ handle file = .ok k := by
  constructor
  · intro ha
    cases hr : h.files.read h.workingDirectory p with
    | error reason =>
      have hread : Answers (readKeyFile p) h (.error (.key (.unreadable p ⟨reason, some p⟩))) :=
        (answers_read_error hr).tryCatch_error (answers_throw _ h)
      cases hread.bind_error.unique ha
    | ok file =>
      have hhandle : Answers (liftExcept id (handle file)) h ((handle file).mapError id) :=
        answers_liftExcept id (handle file) h
      have hload := (answers_readKeyFile hr).bind (f := fun file => liftExcept id (handle file)) hhandle
      exact ⟨file, hr, mapError_eq_ok_iff.1 (hload.unique ha)⟩
  · rintro ⟨file, hr, hk⟩
    exact (answers_readKeyFile hr).bind (answers_liftExcept_ok hk h)

theorem handleOf_eq_ok_iff {α : Type} {half : KeyHalf} {parsed : Option (KeyDocument.Parsed α)}
    {modulus : α → Nat} {wrap : α → KeyMaterial} {k : LoadedKey} :
    s.handleOf half p parsed modulus wrap = .ok k ↔
      ∃ a, parsed = some (.rsa a) ∧ s.Supports (modulus a) ∧
        k = ⟨p, Rsa.byteLength (modulus a), wrap a⟩ := by
  unfold handleOf
  split
  · simp
  · simp
  · next a =>
    simp only [bind_eq_ok_iff, mapError_eq_ok_iff, pure_eq_ok_iff]
    constructor
    · rintro ⟨_, hs, rfl⟩
      exact ⟨a, rfl, check_eq_ok_iff.1 hs, rfl⟩
    · rintro ⟨_, ⟨⟩, hs, rfl⟩
      exact ⟨(), check_eq_ok_iff.2 hs, rfl⟩

theorem loadPublic_answers_iff {k : LoadedKey} :
    Answers (s.loadPublic p) h (.ok k) ↔
      ∃ file key, h.Holds p file ∧ KeyDocument.publicKey? file = some (.rsa key) ∧
        s.Supports key.modulus ∧ k = ⟨p, Rsa.byteLength key.modulus, .publicKey key⟩ := by
  rw [loadPublic, load_answers_iff]
  simp only [publicHandle, handleOf_eq_ok_iff]
  exact ⟨fun ⟨file, hr, key, hk⟩ => ⟨file, key, hr, hk⟩, fun ⟨file, key, hr, hk⟩ => ⟨file, hr, key, hk⟩⟩

theorem loadPrivate_answers_iff {k : LoadedKey} :
    Answers (s.loadPrivate p) h (.ok k) ↔
      ∃ file key, h.Holds p file ∧ KeyDocument.privateKey? file = some (.rsa key) ∧
        s.Supports key.modulus ∧ k = ⟨p, Rsa.byteLength key.modulus, .privateKey key⟩ := by
  rw [loadPrivate, load_answers_iff]
  simp only [privateHandle, handleOf_eq_ok_iff]
  exact ⟨fun ⟨file, hr, key, hk⟩ => ⟨file, key, hr, hk⟩, fun ⟨file, key, hr, hk⟩ => ⟨file, hr, key, hk⟩⟩

theorem publicAt_iff :
    s.PublicAt h p key ↔
      ∃ file, h.Holds p file ∧ KeyDocument.publicKey? file = some (.rsa key) ∧
        s.Supports key.modulus := by
  rw [PublicAt, loadPublic_answers_iff]
  constructor
  · rintro ⟨file, key', hr, hk, hs, hkey⟩
    obtain rfl := KeyMaterial.publicKey.inj (LoadedKey.mk.inj hkey).2.2
    exact ⟨file, hr, hk, hs⟩
  · rintro ⟨file, hr, hk, hs⟩
    exact ⟨file, key, hr, hk, hs, rfl⟩

theorem exists_publicAt {k : LoadedKey} (hk : Answers (s.loadPublic p) h (.ok k)) :
    ∃ key, s.PublicAt h p key := by
  obtain ⟨file, key, hread, hparsed, hs, -⟩ := loadPublic_answers_iff.1 hk
  exact ⟨key, publicAt_iff.2 ⟨file, hread, hparsed, hs⟩⟩

theorem privateAt_iff :
    s.PrivateAt h p secret ↔
      ∃ file, h.Holds p file ∧ KeyDocument.privateKey? file = some (.rsa secret) ∧
        s.Supports secret.modulus := by
  rw [PrivateAt, loadPrivate_answers_iff]
  constructor
  · rintro ⟨file, secret', hr, hk, hs, hkey⟩
    obtain rfl := KeyMaterial.privateKey.inj (LoadedKey.mk.inj hkey).2.2
    exact ⟨file, hr, hk, hs⟩
  · rintro ⟨file, hr, hk, hs⟩
    exact ⟨file, secret, hr, hk, hs, rfl⟩

/-! ### Recovering and signing -/

theorem answers_recover (hs : s.Supports key.modulus) :
    ∃ r, Answers (s.recover (.loaded ⟨p, Rsa.byteLength key.modulus, .publicKey key⟩) data) h
        (.ok r) ∧
      ∀ block, r = some block ↔ key.canTransform ∧ data.length = Rsa.byteLength key.modulus ∧
        Bytes.toNat data < key.modulus ∧ Rsa.transform key.modulus key.exponent data = block ∧
        ∃ info, Padding.frame info (Rsa.byteLength key.modulus) = .ok block := by
  have hcheck : Answers (liftExcept .rsa (s.check (Rsa.bitLength key.modulus) p)) h (.ok ()) :=
    answers_liftExcept_ok (check_eq_ok_iff.2 hs) h
  unfold recover
  by_cases hlen : data.length = Rsa.byteLength key.modulus
  · have hlen' : ¬ (data.length : Int) ≠ Rsa.byteLength key.modulus := by omega
    cases hrecover : key.recover data with
    | none =>
      refine ⟨none, hcheck.bind ?_, ?_⟩
      · rw [if_neg hlen', hrecover]
        exact answers_pure none h
      · intro block
        refine ⟨fun hb => (by cases hb), ?_⟩
        intro hb
        obtain ⟨hcan, -, hlt, rfl, info, hinfo⟩ := hb
        rw [(Rsa.PublicKey.recover_eq_some_iff hlen).2 ⟨hcan, hlt, hinfo⟩] at hrecover
        cases hrecover
    | some info =>
      obtain ⟨hcan, hlt, hinfo⟩ := (Rsa.PublicKey.recover_eq_some_iff hlen).1 hrecover
      refine ⟨some (Rsa.transform key.modulus key.exponent data), hcheck.bind ?_, ?_⟩
      · rw [if_neg hlen', hrecover]
        exact (answers_liftExcept_ok hinfo h).bind (answers_pure _ h)
      · intro block
        constructor
        · intro hb
          cases hb
          exact ⟨hcan, hlen, hlt, rfl, info, hinfo⟩
        · intro hb
          rw [hb.2.2.2.1]
  · refine ⟨none, hcheck.bind ?_, ?_⟩
    · rw [if_pos (by omega)]
      exact (answers_record _ _ h).bind (answers_pure none h)
    · intro block
      exact ⟨fun hb => (by cases hb), fun hb => absurd hb.2.1 hlen⟩

theorem answers_recoversTo (hs : s.Supports key.modulus)
    (hb : Padding.pad digest (Rsa.byteLength key.modulus) = .ok block) :
    ∃ b, Answers (Verify.recoversTo s ⟨p, Rsa.byteLength key.modulus, .publicKey key⟩ block data) h
      (.ok b) ∧ (b = true ↔ key.Signs digest data) := by
  obtain ⟨r, hr, hblock⟩ := answers_recover hs
  refine ⟨r == some block, hr.bind (answers_pure _ h), ?_⟩
  have hframe := (Padding.pad_eq_ok_iff.1 hb).2
  rw [beq_iff_eq, hblock, Rsa.PublicKey.signs_iff hb]
  constructor
  · intro hd
    exact ⟨hd.1, hd.2.1, hd.2.2.1, hd.2.2.2.1⟩
  · intro hd
    exact ⟨hd.1, hd.2.1, hd.2.2.1, hd.2.2.2, _, hframe⟩

theorem sign_eq (hs : s.Supports secret.modulus)
    (hb : Padding.pad digest (Rsa.byteLength secret.modulus) = .ok block) :
    s.sign (.loaded ⟨p, Rsa.byteLength secret.modulus, .privateKey secret⟩) block =
      .ok (Rsa.transform secret.modulus secret.exponent block) := by
  have hsign : secret.sign digest = some (Rsa.transform secret.modulus secret.exponent block) := by
    rw [Rsa.PrivateKey.sign, hb]
  have hlen := Rsa.length_transform secret.modulus secret.exponent block
  simp only [sign, check_eq_ok_iff.2 hs, ok_bind, Padding.unpad_of_pad hb, hsign]
  rw [if_neg (by omega)]
  rfl

end KeySizes

end UpdateSeal
