import UpdateSeal.Proofs.Operations
import UpdateSeal.Proofs.Plans

/-!
# Signing with the same keys

The containers that are made for a payload depend on its hashes, its major version and the keys. So
the same containers are made for two payloads that are to be signed alike, on two hosts where the
keys are the same.
-/

namespace UpdateSeal

open UpdateSeal.Action PayloadFile

variable {t : Toolkit} {path path' : Path} {keys : List Path} {h h' : Host} {l l' : Layout}
variable {hashes : HashSet} {s F F' md md' sig sig' data tail tail' : Bytes} {M : Option Bytes}

namespace KeySizes

/-- A key that loads on `h` loads on `h'` too, as the same key. -/
def StillLoad (k : KeySizes) (keys : List Path) (h h' : Host) : Prop :=
  ∀ p ∈ keys, ∀ secret, k.PrivateAt h p secret → k.PrivateAt h' p secret

theorem stillLoad_of_holds {k : KeySizes} (hfiles : ∀ p ∈ keys, ∀ b, h.Holds p b → h'.Holds p b) :
    k.StillLoad keys h h' := by
  intro p hp secret hk
  obtain ⟨file, hfile, hkey, hs⟩ := privateAt_iff.1 hk
  exact privateAt_iff.2 ⟨file, hfiles p hp file hfile, hkey, hs⟩

variable (hkeys : t.keySizes.StillLoad keys h h')
include hkeys

theorem StillLoad.signatureSizes {sizes : List Int}
    (hs : Answers (Plan.signatureSizes t keys) h (.ok sizes)) :
    Answers (Plan.signatureSizes t keys) h' (.ok sizes) := by
  refine answers_mapM_of_imp (fun p => ?_) hs fun p hp n hn => ?_
  · exact (t.keySizes.observes_loadPrivate p).bind fun _ => observes_pure _
  · obtain ⟨log, hn⟩ := hn.runOn
    obtain ⟨key, log, hkey, hn⟩ := (t.keySizes.observes_loadPrivate p).runOn_bind hn
    obtain ⟨file, secret, -, -, -, rfl⟩ := loadPrivate_answers_iff.1 hkey
    cases hn
    exact Sign.answers_size (hkeys p hp secret hkey)

theorem StillLoad.blobLength {n : ℕ} (hn : Answers (Plan.blobLength t keys) h (.ok n)) :
    Answers (Plan.blobLength t keys) h' (.ok n) := by
  obtain ⟨log, hn⟩ := hn.runOn
  obtain ⟨sizes, log, hsizes, hn⟩ := (Plan.observes_signatureSizes t keys).runOn_bind hn
  obtain ⟨length, hlength, hn⟩ := runOn_liftExcept_bind_eq_ok.1 hn
  cases hn
  exact (hkeys.signatureSizes hsizes).bind ((answers_liftExcept_ok hlength h').bind
    ((answers_record _ _ h').bind (answers_pure _ h')))

theorem StillLoad.signDigest {digest blob : Bytes}
    (hs : Answers (Sign.signDigest t digest keys) h (.ok blob)) :
    Answers (Sign.signDigest t digest keys) h' (.ok blob) := by
  rw [Sign.signDigest_eq] at hs ⊢
  split at hs
  · cases (answers_throw _ h).unique hs
  · next hlength =>
    rw [if_neg hlength]
    split at hs
    · cases (answers_throw _ h).unique hs
    · next hne =>
      rw [if_neg hne]
      obtain ⟨log, hs⟩ := hs.runOn
      obtain ⟨entries, log, hentries, hs⟩ :=
        (Observes.mapM (Sign.observes_signWith t digest) keys).runOn_bind hs
      cases hs
      refine (answers_mapM_of_imp (Sign.observes_signWith t digest) hentries ?_).bind
        (answers_pure _ h')
      intro p hp s hs
      obtain ⟨secret, block, hk, hblock⟩ := Sign.answers_signWith_iff.1 hs
      exact Sign.answers_signWith_iff.2 ⟨secret, block, hkeys p hp secret hk, hblock⟩

theorem StillLoad.signMetadata {major : Int} {digest : Bytes}
    (hM : Answers (Sign.signMetadata t major digest keys) h (.ok M)) :
    Answers (Sign.signMetadata t major digest keys) h' (.ok M) := by
  unfold Sign.signMetadata at hM ⊢
  by_cases h2 : major = 2
  · rw [if_pos h2] at hM ⊢
    obtain ⟨log, hM⟩ := hM.runOn
    obtain ⟨m, log, hm, hM⟩ := (Sign.observes_signDigest t digest keys).runOn_bind hM
    cases hM
    exact (hkeys.signDigest hm).bind (answers_pure _ h')
  · rw [if_neg h2] at hM ⊢
    cases (answers_pure none h).unique hM
    exact answers_pure none h'

end KeySizes

namespace Sign

theorem Made.congr (hmade : Made t h path keys hashes s M) (hchunk : 0 < t.chunk)
    (hkeys : t.keySizes.StillLoad keys h h') (halike : l.Alike l') (hr : h.Holds path F)
    (hs : l.Splits F md sig data tail) (hr' : h'.Holds path' F')
    (hs' : l'.Splits F' md' sig' data tail') : Made t h' path' keys hashes s M := by
  obtain ⟨⟨sizes, hsizes, hhashes⟩, hpayload, l₀, hl₀, hM⟩ := hmade
  have hlayout := answers_readLayout hr
  have hlayout' := answers_readLayout hr'
  rw [hs.ofContent_eq] at hlayout
  rw [hs'.ofContent_eq] at hlayout'
  obtain rfl := Except.ok.inj (hl₀.unique hlayout)
  have hhashes' : Answers (Plan.hashForSigning t path' sizes) h' (l'.signingHashes data sizes) :=
    Plan.answers_hashForSigning hchunk hr' hs'
  rw [Plan.signingHashes_congr halike hs hs',
    (Plan.answers_hashForSigning hchunk hr hs).unique hhashes] at hhashes'
  rw [← halike.major_eq] at hM
  exact ⟨⟨sizes, hkeys.signatureSizes hsizes, hhashes'⟩, hkeys.signDigest hpayload, l', hlayout',
    hkeys.signMetadata hM⟩

end Sign

end UpdateSeal
