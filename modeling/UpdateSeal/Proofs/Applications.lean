import UpdateSeal.Application
import UpdateSeal.Proofs.Fields
import UpdateSeal.Proofs.KeyPairs
import UpdateSeal.Proofs.Keys

/-!
# What a started application can rely on

Settings are checked before an application is started with them. So files are read in pieces of at
least 4096 bytes, and every key that loads has room for the block of a digest.
-/

namespace UpdateSeal

open UpdateSeal.Action

namespace Settings

open Validation

/-- The rules for settings that signing depends on. -/
structure Valid (s : Settings) : Prop where
  keySizes : ∀ bits ∈ s.keySizes, isKeySize bits
  readChunkSize : 4096 ≤ s.readChunkSize

theorem isKeySize_of_checkKeySizes {sizes r : List Int} (h : checkKeySizes sizes = .ok r) :
    ∀ bits ∈ r, isKeySize bits := by
  unfold checkKeySizes at h
  split at h
  · cases h
  · split at h
    · cases h
    · next hnone =>
      cases h
      intro bits hbits
      simpa using List.find?_eq_none.1 hnone bits hbits

theorem valid_of_ofMembers {ms : Json.Members} {s : Settings} (h : ofMembers ms = .ok s) :
    s.Valid := by
  obtain ⟨⟨⟨_, _⟩, ⟨keySizes, _⟩, _, readChunkSize⟩, hall, rfl⟩ := map_eq_ok_iff.1 h
  obtain ⟨-, hlast⟩ := Checked.and_eq_ok_iff.1 hall
  obtain ⟨hsigning, hsizes⟩ := Checked.and_eq_ok_iff.1 hlast
  obtain ⟨hkeys, -⟩ := Checked.and_eq_ok_iff.1 hsigning
  obtain ⟨-, hchunk⟩ := Checked.and_eq_ok_iff.1 hsizes
  constructor
  · rcases optional_eq_ok hkeys with hdefault | ⟨v, -, hv⟩
    · intro bits hbits
      simp only at hdefault hbits
      rw [hdefault] at hbits
      revert bits
      decide
    · obtain ⟨sizes, -, hcheck⟩ := bind_eq_ok_iff.1 hv
      exact isKeySize_of_checkKeySizes (Checked.at_eq_ok_iff.1 hcheck)
  · rcases optional_eq_ok hchunk with hdefault | ⟨v, -, hv⟩
    · simp only at hdefault ⊢
      rw [hdefault]
      decide
    · exact (integerFrom_eq_ok_iff.1 (Checked.at_eq_ok_iff.1 hv)).2

theorem valid_of_load {given : Json.Members} {s : Settings} {h h' : Host}
    (hload : runOn (load given) h = (.ok s, h')) : s.Valid := by
  obtain ⟨_, _, -, hload⟩ := runOn_bind_eq_ok.1 hload
  obtain ⟨_, _, -, hload⟩ := runOn_bind_eq_ok.1 hload
  obtain ⟨_, -, hload⟩ := runOn_liftExcept_bind_eq_ok.1 hload
  obtain ⟨_, -, hload⟩ := runOn_liftExcept_bind_eq_ok.1 hload
  obtain ⟨hmembers, -⟩ := runOn_liftExcept_eq_ok.1 hload
  exact valid_of_ofMembers hmembers

end Settings

theorem Rsa.byteLength_of_bitLength {modulus : Nat} (h : 1024 ≤ Rsa.bitLength modulus) :
    128 ≤ Rsa.byteLength modulus := by
  unfold Rsa.byteLength
  omega

namespace Application

variable {app : Application}

/-- The application was started with settings that were loaded, on whatever hosts. -/
def Started (app : Application) : Prop :=
  ∃ given h h₁ h₂ h₃, runOn (Settings.load given) h = (.ok app.settings, h₁) ∧
    runOn (start app.settings) h₂ = (.ok app, h₃)

theorem Started.valid (ha : app.Started) :
    app.settings.Valid ∧ app.toolkit = toolkitOf app.settings := by
  obtain ⟨given, h, h₁, h₂, h₃, hload, hstart⟩ := ha
  obtain ⟨sink, h₄, -, hstart⟩ := runOn_bind_eq_ok.1 hstart
  have happ := congrArg Prod.fst hstart
  refine ⟨Settings.valid_of_load hload, ?_⟩
  exact (congrArg Application.toolkit (Except.ok.inj happ)).symm

theorem Started.chunk_pos (ha : app.Started) : 0 < app.toolkit.chunk := by
  obtain ⟨hvalid, htoolkit⟩ := ha.valid
  have hchunk := hvalid.readChunkSize
  rw [htoolkit]
  show 0 < app.settings.readChunkSize
  omega

theorem byteLength_le_of_valid {s : Settings} (hs : s.Valid) {modulus : Nat}
    (hsupports : (toolkitOf s).keySizes.Supports modulus) : 128 ≤ Rsa.byteLength modulus := by
  rw [KeySizes.Supports, toolkitOf, KeySizes.contains_ofList, List.contains_iff_mem] at hsupports
  have hsize := hs.keySizes _ hsupports
  simp only [Settings.isKeySize, Bool.and_eq_true, decide_eq_true_eq] at hsize
  exact Rsa.byteLength_of_bitLength (by omega)

theorem Started.byteLength_le (ha : app.Started) {modulus : Nat}
    (hs : app.toolkit.keySizes.Supports modulus) : 128 ≤ Rsa.byteLength modulus := by
  obtain ⟨hvalid, htoolkit⟩ := ha.valid
  rw [htoolkit] at hs
  exact byteLength_le_of_valid hvalid hs

theorem Started.room_for_block (ha : app.Started) (modulus : Nat)
    (hs : app.toolkit.keySizes.Supports modulus) : 62 ≤ Rsa.byteLength modulus := by
  have := ha.byteLength_le hs
  omega

end Application

/-! ### A small application -/

namespace Sample

/-- Settings for keys of one small size, without a ledger. -/
def settings : Settings := { auditEnabled := false, keySizes := [1128] }

def app : Application := ⟨settings, Application.toolkitOf settings, .silent⟩

theorem app_started : app.Started :=
  ⟨[("audit_enabled", .bool false), (Settings.listName, .arr [.int 1128])], {}, {}, {}, {}, rfl, rfl⟩

theorem supports : app.toolkit.keySizes.Supports modulus := by
  show (KeySizes.ofList [1128]).sizes.contains _ = true
  rw [KeySizes.contains_ofList]
  decide +kernel

theorem privateAt (payload : Bytes) :
    app.toolkit.keySizes.PrivateAt (host payload) ⟨false, ["key"]⟩ privateKey :=
  KeySizes.privateAt_iff.2 ⟨privateFile, rfl, privateKey?_privateFile, supports⟩

theorem publicAt (payload : Bytes) :
    app.toolkit.keySizes.PublicAt (host payload) ⟨false, ["public"]⟩ privateKey.publicHalf :=
  KeySizes.publicAt_iff.2 ⟨publicFile, rfl, publicKey?_publicFile, supports⟩

end Sample

end UpdateSeal
