import UpdateSeal.Proofs.OfflineSigning
import UpdateSeal.Proofs.PrefixFree
import UpdateSeal.Proofs.Resigning

/-!
# Where signing and verifying stop

A container is signed only if its size has a place in the metadata, which for a payload of version 2
bounds the number of keys. What is signed with a key fits its public half, but nothing is verified
by public halves under which the library does not transform. Where operations are recorded nothing
is signed or verified with names that cannot be written.
-/

namespace UpdateSeal

open UpdateSeal.Action PayloadFile

namespace Sign

variable {t : Toolkit} {app : Application} {path out : Path} {paths keys : List Path}
variable {publics : List Rsa.PublicKey} {sink sink' : Sink} {h h' : Host} {l : Layout} {F : Bytes}
variable {n : ℕ} {r : HashSet × Sink}

/-! ### Sizes -/

/-- What is signed has a container whose size was predicted and has a place in the metadata. -/
theorem exists_blobLength_lt (hchunk : 0 < t.chunk) (hP : h.Holds path F)
    (hl : Layout.ofContent path.text F = .ok l)
    (hr : runOn ((signPayload t path keys out).run sink) h = (.ok r, h')) :
    ∃ n, Answers (Plan.blobLength t keys) h (.ok n) ∧
      n < if l.header.major = 2 then 2 ^ 32 else 10 ^ Json.maxDigits := by
  obtain ⟨s, M, l', h₁, ⟨⟨sizes, hsizes, hhashes⟩, -, -⟩, -⟩ := exists_of_signPayload hr
  obtain ⟨md, sig, data, tail, hs⟩ := Layout.splits_of_ofContent hl
  obtain ⟨n, metadata, hn, hmetadata, -⟩ :=
    Plan.signingHashes_eq_ok ((Plan.answers_hashForSigning hchunk hP hs).unique hhashes)
  refine ⟨n, ?_, lt_of_signedMetadata hs hmetadata⟩
  exact hsizes.bind ((answers_liftExcept_ok hn h).bind
    ((answers_record _ _ h).bind (answers_pure _ h)))

/-- A container is longer than the smallest signatures of its keys together. -/
theorem length_mul_le_blobLength (ha : app.Started)
    (hn : Answers (Plan.blobLength app.toolkit keys) h (.ok n)) : keys.length * 128 ≤ n := by
  obtain ⟨entries, hs, rfl⟩ :=
    signed_of_predicted ha.room_for_block hn (length_sha256 ([] : Bytes))
  have hall := exists_sizedBy hs.made
  rw [hs.made.length_eq, Container.length_encode fun s hmem => ?_]
  · have hlong : ∀ size ∈ entries.map fun s => Container.entryLength s.data.length, 128 ≤ size := by
      intro size hsize
      obtain ⟨s, hmem, rfl⟩ := List.mem_map.1 hsize
      obtain ⟨p, -, secret, hk, hlen⟩ := hall s hmem
      have hle := ha.byteLength_le hk.supports
      rw [← hlen] at hle
      exact hle.trans (Container.le_entryLength _)
    have hsum := List.card_nsmul_le_sum _ 128 hlong
    rwa [List.length_map, smul_eq_mul] at hsum
  · obtain ⟨p, hversion, -⟩ := hall s hmem
    exact hversion

/-- A payload of version 2 is not signed with `2 ^ 25` keys or more. -/
theorem not_signPayload_of_many (ha : app.Started) (hP : h.Holds path F)
    (hl : Layout.ofContent path.text F = .ok l) (h2 : l.header.major = 2)
    (hmany : 2 ^ 25 ≤ keys.length) :
    ¬ ∃ r h', runOn ((signPayload app.toolkit path keys out).run sink) h = (.ok r, h') := by
  intro hr
  obtain ⟨r, h', hr⟩ := hr
  obtain ⟨n, hn, hlt⟩ := exists_blobLength_lt ha.chunk_pos hP hl hr
  -- the signatures of so many keys, of 128 bytes at the least, are too long for a field of 32 bits
  have hle := length_mul_le_blobLength ha hn
  rw [if_pos h2] at hlt
  omega

/-! ### Keys and names -/

/-- Nothing is verified by keys under which the library does not transform. -/
theorem not_verifyPayload_of_not_canTransform (ha : app.Started)
    (hk : List.Forall₂ (app.toolkit.keySizes.PublicAt h) paths publics)
    (hcan : ∀ key ∈ publics, ¬ key.canTransform) :
    ¬ ∃ sink' h', runOn ((verifyPayload app.toolkit path paths).run sink) h =
      (.ok (true, sink'), h') := by
  intro hv
  obtain ⟨sink', h', hv⟩ := hv
  have hv := verifyFile_of_verifyPayload hv
  obtain ⟨log, hrun⟩ := hv.runOn
  obtain ⟨l, _, hl, -⟩ := (observes_readLayout path).runOn_bind hrun
  obtain ⟨F, hF, hl⟩ := exists_of_readLayout hl
  obtain ⟨b, hverify, hb⟩ := answers_verifyFile ha.chunk_pos ha.room_for_block hF hl hk
  obtain ⟨_, _, -, -, -, -, hsigned⟩ := (hb.1 (Except.ok.inj (hverify.unique hv))).payload
  obtain ⟨entries, -, s, -, -, key, hmem, hsigns⟩ := hsigned
  exact hcan key hmem hsigns.canTransform

/-- What is verified has names that can be recorded. -/
theorem spells_of_verifyPayload {b : Bool}
    (hv : runOn ((verifyPayload t path paths).run sink) h = (.ok (b, sink'), h')) :
    sink.Spells (path :: paths) := by
  have hverify := verifyFile_of_verifyPayload hv
  obtain ⟨-, hrecord⟩ := (exists_verifyPayload_iff hverify).1 ⟨sink', h', hv⟩
  exact hrecord.spells

/-! ### What signing asks for -/

/-- A payload is laid out with room for the container of keys that load and undo their transforms,
and another file than those of the keys and of the ledger can be written, and then the ledger. -/
structure Prepared (app : Application) (h : Host) (path : Path) (keys : List Path) (out : Path)
    (sink : Sink) : Prop where
  started : app.Started
  payload : ∃ F l n, h.Holds path F ∧ F.Addressable ∧ Layout.ofContent path.text F = .ok l ∧
    Answers (Plan.blobLength app.toolkit keys) h (.ok n) ∧ l.HasRoom n
  inverts : ∀ p ∈ keys, ∀ secret, app.toolkit.keySizes.PrivateAt h p secret → secret.Inverts
  apart : ∀ p ∈ keys, h.placeOf p ≠ h.placeOf out
  writable : ∀ content, ∃ h', runOn (writeAtomically out content) h = (.ok (), h') ∧
    sink.Spares h' out ∧ ∀ ledger, sink = .audit ledger → h'.Admits ledger.path

/-- The file at `path` has signatures that fit a key that loads at `public`, but with that key it is
not verified. -/
def Unverified (app : Application) (h : Host) (path : Path) (publicPath : Path)
    (key : Rsa.PublicKey) (sink : Sink) : Prop :=
  ∃ F l, h.Holds path F ∧ app.toolkit.keySizes.PublicAt h publicPath key ∧
    Layout.ofContent path.text F = .ok l ∧ l.SignedWith (Container.FitBy key) F ∧
    ¬ ∃ sink' h', runOn ((verifyPayload app.toolkit path [publicPath]).run sink) h =
      (.ok (true, sink'), h')

end Sign

/-! ### A key under which the library does not transform -/

namespace Sample

/-- A key of 3560 bits, whose public exponent has 65. -/
def largeModulus : ℕ := (2 ^ 2281 - 1) * (2 ^ 1279 - 1)

def largePublicExponent : ℕ := 2 ^ 64 + 13

/-- The inverse of the public exponent. The factor is the least for which the division leaves
nothing. -/
def largeExponent : ℕ :=
  (1 + 17660465467385204559 * Nat.lcm (2 ^ 2281 - 2) (2 ^ 1279 - 2)) / largePublicExponent

/-- The sum of the powers of `2 ^ 1279` below the 1614th, by which its predecessor divides
`2 ^ (1279 * 1614) - 1`. -/
def largeInverse : ℕ := (2 ^ (1279 * 1614) - 1) / (2 ^ 1279 - 1) % (2 ^ 2281 - 1)

def largeKey : Rsa.PrivateKey := ⟨largeModulus, largePublicExponent, largeExponent⟩

def largeNumbers : List ℕ :=
  let p := 2 ^ 2281 - 1
  let q := 2 ^ 1279 - 1
  [0, largeModulus, largePublicExponent, largeExponent, p, q, largeExponent % (p - 1),
    largeExponent % (q - 1), largeInverse]

def largePrivateFile : Bytes := Pem.write "RSA PRIVATE KEY" (Der.writeNumbers largeNumbers)

def largePublicFile : Bytes :=
  Pem.write "RSA PUBLIC KEY" (Der.writeNumbers [largeModulus, largePublicExponent])

theorem largeKey_consistent :
    Rsa.consistent largeModulus largePublicExponent largeExponent (mersenne 2281) (mersenne 1279)
      (largeExponent % (2 ^ 2281 - 2)) (largeExponent % (2 ^ 1279 - 2)) largeInverse = true := by
  decide +kernel

theorem largeKey_inverts : largeKey.Inverts :=
  Rsa.inverts_of_consistent largeKey_consistent
    (lucas_lehmer_sufficiency 2281 (by norm_num) (by norm_num))
    (lucas_lehmer_sufficiency 1279 (by norm_num) (by norm_num))

theorem not_canTransform_largeKey : ¬ largeKey.publicHalf.canTransform := by decide +kernel

theorem byteLength_largeKey : Rsa.byteLength largeKey.modulus = 445 := by decide +kernel

theorem privateKey?_largePrivateFile :
    KeyDocument.privateKey? largePrivateFile = some (.rsa largeKey) :=
  KeyDocument.privateKey?_write (by decide +kernel)

theorem publicKey?_largePublicFile :
    KeyDocument.publicKey? largePublicFile = some (.rsa largeKey.publicHalf) :=
  KeyDocument.publicKey?_write (by decide +kernel)

def largeSettings : Settings := { auditEnabled := false, keySizes := [3560] }

def largeApp : Application := ⟨largeSettings, Application.toolkitOf largeSettings, .silent⟩

theorem largeApp_started : largeApp.Started :=
  ⟨[("audit_enabled", .bool false), (Settings.listName, .arr [.int 3560])], {}, {}, {}, {}, rfl, rfl⟩

theorem largeApp_supports : largeApp.toolkit.keySizes.Supports largeModulus := by
  show (KeySizes.ofList [3560]).sizes.contains _ = true
  rw [KeySizes.contains_ofList]
  decide +kernel

def largeHost : Host :=
  { files := ⟨[(["payload"], .file payload FileTree.plainMode),
      (["key"], .file largePrivateFile FileTree.plainMode),
      (["public"], .file largePublicFile FileTree.plainMode)]⟩ }

theorem privateAt_largeHost :
    largeApp.toolkit.keySizes.PrivateAt largeHost ⟨false, ["key"]⟩ largeKey :=
  KeySizes.privateAt_iff.2
    ⟨largePrivateFile, rfl, privateKey?_largePrivateFile, largeApp_supports⟩

/-! ### Where they stop -/

open Sign (Prepared Unverified)

variable {h : Host} {key : Path} {secret : Rsa.PrivateKey} {sink : Sink} {k : ℕ}

theorem prepared {app : Application} (ha : app.Started)
    (hP : h.Holds ⟨false, ["payload"]⟩ payload) (hk : app.toolkit.keySizes.PrivateAt h key secret)
    (hinv : secret.Inverts) (hne : k ≠ 0) (hapart : h.placeOf key ≠ h.placeOf ⟨false, ["signed"]⟩)
    (hw : ∀ content, ∃ h', runOn (writeAtomically ⟨false, ["signed"]⟩ content) h = (.ok (), h') ∧
      sink.Spares h' ⟨false, ["signed"]⟩ ∧
        ∀ ledger, sink = .audit ledger → h'.Admits ledger.path) :
    Prepared app h ⟨false, ["payload"]⟩ (List.replicate k key) ⟨false, ["signed"]⟩ sink := by
  have hloads : List.Forall₂ (app.toolkit.keySizes.PrivateAt h) (List.replicate k key)
      (List.replicate k secret) := by
    -- for `k = 0` there is nothing to load, so the induction must not assume a key
    clear hne
    induction k with
    | zero => exact .nil
    | succ k ih => exact .cons hk ih
  have hpos : ∀ s ∈ List.replicate k secret, 0 < Rsa.byteLength s.modulus := by
    intro s hs
    obtain rfl := List.eq_of_mem_replicate hs
    have := ha.room_for_block _ hk.supports
    omega
  constructor
  case started => exact ha
  case payload =>
    exact ⟨payload, layout, _, hP, payload_addressable, payload_splits.ofContent_eq _,
      Sign.answers_blobLength hloads hpos (by simpa using hne), layout_hasRoom _⟩
  case inverts =>
    intro p hp secret' hk'
    obtain rfl := List.eq_of_mem_replicate hp
    obtain rfl := hk.unique hk'
    exact hinv
  case apart =>
    intro p hp
    obtain rfl := List.eq_of_mem_replicate hp
    exact hapart
  case writable => exact hw

/-- One key of a moderate size signs the payload. -/
theorem exists_signed {app : Application} (ha : app.Started)
    (hP : h.Holds ⟨false, ["payload"]⟩ payload) (hk : app.toolkit.keySizes.PrivateAt h key secret)
    (hinv : secret.Inverts) (hsize : Rsa.byteLength secret.modulus ≤ 2 ^ 16)
    (hw : ∀ content, ∃ h', runOn (writeAtomically ⟨false, ["signed"]⟩ content) h = (.ok (), h') ∧
      sink.CanRecord ["payload", "signed", key.spelling] h' ∧
        sink.Spares h' ⟨false, ["signed"]⟩) :
    ∃ hashes sink' h' l signed, runOn ((Sign.signPayload app.toolkit ⟨false, ["payload"]⟩ [key]
        ⟨false, ["signed"]⟩).run sink) h = (.ok (hashes, sink'), h') ∧
      h'.Holds ⟨false, ["signed"]⟩ signed ∧ Layout.ofContent "signed" signed = .ok l ∧
      l.SignedWith (Container.FitBy secret.publicHalf) signed := by
  have hpos : ∀ s ∈ [secret], 0 < Rsa.byteLength s.modulus := by
    have := ha.room_for_block _ hk.supports
    simpa using (by omega : 0 < Rsa.byteLength secret.modulus)
  have hn := Sign.answers_blobLength (.cons hk .nil) hpos (List.cons_ne_nil key [])
  have hbound : Container.entryLength (Rsa.byteLength secret.modulus) < 2 ^ 32 := by
    have := Container.entryLength_le (Rsa.byteLength secret.modulus)
    omega
  rw [List.map_singleton, List.sum_singleton] at hn
  obtain ⟨hashes, sink', h', l, signed, hrun, hholds, hl, -, -, hfits⟩ :=
    Sign.signPayload_fits ha.chunk_pos ha.room_for_block hP payload_addressable
      (payload_splits.ofContent_eq _) hn (layout_hasRoom _) hbound hw
  exact ⟨hashes, sink', h', l, signed, hrun, hholds, hl,
    hfits key List.mem_cons_self secret hk hinv⟩

theorem large_not_verified :
    ∃ hashes sink' h', runOn ((Sign.signPayload largeApp.toolkit ⟨false, ["payload"]⟩
        [⟨false, ["key"]⟩] ⟨false, ["signed"]⟩).run .silent) largeHost = (.ok (hashes, sink'), h') ∧
      Unverified largeApp h' ⟨false, ["signed"]⟩ ⟨false, ["public"]⟩ largeKey.publicHalf sink' := by
  have hsize : Rsa.byteLength largeKey.modulus ≤ 2 ^ 16 := by
    rw [byteLength_largeKey]
    decide
  obtain ⟨hashes, sink', h', l, signed, hrun, hholds, hl, hfits⟩ := exists_signed (h := largeHost)
    largeApp_started rfl privateAt_largeHost largeKey_inverts hsize
    fun content => ⟨_, rfl, Sink.canRecord_silent _ _, Sink.spares_silent _ _⟩
  have hpublic : largeApp.toolkit.keySizes.PublicAt h' ⟨false, ["public"]⟩ largeKey.publicHalf :=
    KeySizes.publicAt_iff.2 ⟨largePublicFile, Sign.signPayload_keeps hrun rfl (by decide) nofun,
      publicKey?_largePublicFile, largeApp_supports⟩
  refine ⟨hashes, sink', h', hrun, signed, l, hholds, hpublic, hl, hfits, ?_⟩
  exact Sign.not_verifyPayload_of_not_canTransform largeApp_started (.cons hpublic .nil)
    (by simpa using not_canTransform_largeKey)

/-- A name that ends in a byte 255. -/
def unspelledPublic : Path := ⟨false, [.broken "public" (.ofByte 255) ""]⟩

/-- A host with keys whose names cannot be written. -/
def unspelledKeys : Host :=
  { files := ⟨[(["payload"], .file payload FileTree.plainMode),
      (["key"], .file privateFile FileTree.plainMode),
      (unspelledKey.parts, .file privateFile FileTree.plainMode),
      (unspelledPublic.parts, .file publicFile FileTree.plainMode)]⟩ }

theorem privateAt_unspelledKeys (hkey : key = ⟨false, ["key"]⟩ ∨ key = unspelledKey) :
    app.toolkit.keySizes.PrivateAt unspelledKeys key privateKey := by
  refine KeySizes.privateAt_iff.2 ⟨privateFile, ?_, privateKey?_privateFile, supports⟩
  rcases hkey with rfl | rfl <;> rfl

theorem unspelledKeys_writable (content : Bytes) :
    ∃ h', runOn (writeAtomically ⟨false, ["signed"]⟩ content) unspelledKeys = (.ok (), h') ∧
      Sink.Spares (.audit ⟨Ledger.ledgerPath, [7], {}⟩) h' ⟨false, ["signed"]⟩ ∧
        h'.Admits Ledger.ledgerPath := by
  have hw : ∃ h', runOn (writeAtomically ⟨false, ["signed"]⟩ content) unspelledKeys = (.ok (), h') ∧
      h'.workingDirectory = [] ∧ h'.Admits Ledger.ledgerPath := ⟨_, rfl, rfl, ["ledger"], rfl, nofun⟩
  obtain ⟨h', hw, hbase, hadmits⟩ := hw
  refine ⟨h', hw, Sink.spares_of_placeOf_ne (holds_of_writeAtomically hw) fun l hl => ?_, hadmits⟩
  cases hl
  rw [Host.placeOf, Host.placeOf, hbase]
  decide

theorem prepared_unspelledKeys (hkey : key = ⟨false, ["key"]⟩ ∨ key = unspelledKey) :
    Prepared app unspelledKeys ⟨false, ["payload"]⟩ [key] ⟨false, ["signed"]⟩
      (.audit ⟨Ledger.ledgerPath, [7], {}⟩) := by
  refine prepared (k := 1) app_started rfl (privateAt_unspelledKeys hkey) inverts (by decide) ?_ ?_
  · rcases hkey with rfl | rfl <;> decide
  · intro content
    obtain ⟨h', hw, hspares, hadmits⟩ := unspelledKeys_writable content
    refine ⟨h', hw, hspares, fun ledger hl => ?_⟩
    cases hl
    exact hadmits

theorem unspelled_not_signed :
    ¬ ∃ r h', runOn ((Sign.signPayload app.toolkit ⟨false, ["payload"]⟩ [unspelledKey]
      ⟨false, ["signed"]⟩).run (.audit ⟨Ledger.ledgerPath, [7], {}⟩)) unspelledKeys =
        (.ok r, h') := by
  intro hr
  obtain ⟨⟨hashes, sink'⟩, h', hr⟩ := hr
  have hspells := Sign.spells_of_signPayload hr _ rfl unspelledKey (by simp)
  exact absurd hspells (show ¬ unspelledKey.spelling.isString by decide)

theorem unspelled_not_verified :
    ∃ hashes sink' h', runOn ((Sign.signPayload app.toolkit ⟨false, ["payload"]⟩
        [⟨false, ["key"]⟩] ⟨false, ["signed"]⟩).run (.audit ⟨Ledger.ledgerPath, [7], {}⟩))
          unspelledKeys = (.ok (hashes, sink'), h') ∧
      Unverified app h' ⟨false, ["signed"]⟩ unspelledPublic privateKey.publicHalf sink' := by
  have hsize : Rsa.byteLength privateKey.modulus ≤ 2 ^ 16 := by decide +kernel
  have hw : ∀ content, ∃ h', runOn (writeAtomically ⟨false, ["signed"]⟩ content) unspelledKeys =
      (.ok (), h') ∧ Sink.CanRecord (.audit ⟨Ledger.ledgerPath, [7], {}⟩)
        ["payload", "signed", "key"] h' ∧
        Sink.Spares (.audit ⟨Ledger.ledgerPath, [7], {}⟩) h' ⟨false, ["signed"]⟩ := by
    intro content
    obtain ⟨h', hw, hspares, hadmits⟩ := unspelledKeys_writable content
    exact ⟨h', hw, Sink.canRecord_audit_iff.2 ⟨hadmits, by decide⟩, hspares⟩
  obtain ⟨hashes, sink', h', l, signed, hrun, hholds, hl, hfits⟩ := exists_signed
    (h := unspelledKeys) app_started rfl (privateAt_unspelledKeys (.inl rfl)) inverts hsize hw
  have hpublic : app.toolkit.keySizes.PublicAt h' unspelledPublic privateKey.publicHalf := by
    refine KeySizes.publicAt_iff.2 ⟨publicFile, ?_, publicKey?_publicFile, supports⟩
    refine Sign.signPayload_keeps hrun rfl (by decide) fun ledger hl => ?_
    cases hl
    decide
  refine ⟨hashes, sink', h', hrun, signed, l, hholds, hpublic, hl, hfits, fun hv => ?_⟩
  obtain ⟨sink'', h'', hv⟩ := hv
  obtain ⟨ledger, rfl, -⟩ := Sign.signPayload_ledger hrun
  have hspells := Sign.spells_of_verifyPayload hv _ rfl unspelledPublic (by simp)
  exact absurd hspells (show ¬ unspelledPublic.spelling.isString by decide)

/-- Signing stops at too many keys, and with a ledger at the name of a key; what was signed with a
key is not verified by it if the library does not transform under it, or with a ledger if its name
cannot be written. -/
theorem signing_stops :
    (Prepared app (host payload) ⟨false, ["payload"]⟩ (List.replicate (2 ^ 25) ⟨false, ["key"]⟩)
        ⟨false, ["signed"]⟩ .silent ∧
      ¬ ∃ r h', runOn ((Sign.signPayload app.toolkit ⟨false, ["payload"]⟩
        (List.replicate (2 ^ 25) ⟨false, ["key"]⟩) ⟨false, ["signed"]⟩).run .silent)
          (host payload) = (.ok r, h')) ∧
    (Prepared largeApp largeHost ⟨false, ["payload"]⟩ [⟨false, ["key"]⟩] ⟨false, ["signed"]⟩
        .silent ∧
      ∃ hashes sink' h', runOn ((Sign.signPayload largeApp.toolkit ⟨false, ["payload"]⟩
          [⟨false, ["key"]⟩] ⟨false, ["signed"]⟩).run .silent) largeHost =
            (.ok (hashes, sink'), h') ∧
        Unverified largeApp h' ⟨false, ["signed"]⟩ ⟨false, ["public"]⟩ largeKey.publicHalf sink') ∧
    (Prepared app unspelledKeys ⟨false, ["payload"]⟩ [unspelledKey] ⟨false, ["signed"]⟩
        (.audit ⟨Ledger.ledgerPath, [7], {}⟩) ∧
      ¬ ∃ r h', runOn ((Sign.signPayload app.toolkit ⟨false, ["payload"]⟩ [unspelledKey]
        ⟨false, ["signed"]⟩).run (.audit ⟨Ledger.ledgerPath, [7], {}⟩)) unspelledKeys =
          (.ok r, h')) ∧
    Prepared app unspelledKeys ⟨false, ["payload"]⟩ [⟨false, ["key"]⟩] ⟨false, ["signed"]⟩
        (.audit ⟨Ledger.ledgerPath, [7], {}⟩) ∧
      ∃ hashes sink' h', runOn ((Sign.signPayload app.toolkit ⟨false, ["payload"]⟩
          [⟨false, ["key"]⟩] ⟨false, ["signed"]⟩).run (.audit ⟨Ledger.ledgerPath, [7], {}⟩))
            unspelledKeys = (.ok (hashes, sink'), h') ∧
        Unverified app h' ⟨false, ["signed"]⟩ unspelledPublic privateKey.publicHalf sink' := by
  refine ⟨⟨?_, ?_⟩, ⟨?_, large_not_verified⟩, ⟨prepared_unspelledKeys (.inr rfl),
    unspelled_not_signed⟩, prepared_unspelledKeys (.inl rfl), unspelled_not_verified⟩
  · exact prepared app_started rfl (privateAt payload) inverts (by decide) (by decide)
      fun content => ⟨_, rfl, Sink.spares_silent _ _, nofun⟩
  · exact Sign.not_signPayload_of_many app_started (show (host payload).Holds _ payload from rfl)
      (payload_splits.ofContent_eq _) rfl (Nat.le_of_eq List.length_replicate.symm)
  · exact prepared (k := 1) largeApp_started rfl privateAt_largeHost largeKey_inverts (by decide)
      (by decide) fun content => ⟨_, rfl, Sink.spares_silent _ _, nofun⟩

/-- A payload with signatures that fit a key is not verified by it if the library does not transform
under the key, or if the operation cannot be recorded. -/
theorem fitting_not_verified :
    (largeApp.Started ∧ ∃ h sink, Unverified largeApp h ⟨false, ["signed"]⟩ ⟨false, ["public"]⟩
      largeKey.publicHalf sink) ∧
    app.Started ∧ ∃ h sink, Unverified app h ⟨false, ["signed"]⟩ unspelledPublic
      privateKey.publicHalf sink := by
  obtain ⟨_, sink, h, -, hlarge⟩ := large_not_verified
  obtain ⟨_, sink', h', -, hunspelled⟩ := unspelled_not_verified
  exact ⟨⟨largeApp_started, h, sink, hlarge⟩, app_started, h', sink', hunspelled⟩

end Sample

end UpdateSeal
