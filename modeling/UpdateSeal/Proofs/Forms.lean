import UpdateSeal.Proofs.Lifecycles
import UpdateSeal.Proofs.Resigning

/-!
# Signing a payload in any form

What signing writes depends on the data of a payload, on two numbers of its manifest and on the keys,
but not on the signatures that the payload has or has room for. So unsigned, with room for signatures
or signed before, a payload becomes one file.
-/

namespace UpdateSeal

open UpdateSeal.Action PayloadFile

variable {t : Toolkit} {path path' out out' p : Path} {keys : List Path} {sink sink' : Sink}
variable {h h' : Host} {b c sig data metadata metadata' : Bytes} {n : ℕ}

/-! ### Payloads as they are written -/

variable {w : PayloadWriter} {x y : Write}

namespace Write.Assembled

variable {major : ℤ}

/-- What is to be signed comes from the writer, the data and the size of the signatures. -/
theorem signedMetadata_eq (hx : x.Assembled w major data metadata) (n : ℕ) :
    Plan.signedMetadata x.layout n = buildMetadata major
      ⟨w.blockSize, w.minorVersion, some data.length, some n⟩ (if major = 2 then n else 0) := by
  have hmanifest : signedManifest x.layout.manifest data.length n =
      ⟨x.layout.manifest.blockSize, x.layout.manifest.minorVersion, some data.length, some n⟩ := rfl
  rw [Plan.signedMetadata_eq hx.splits, hmanifest, hx.major_eq, hx.blockSize_eq, hx.minorVersion_eq]

theorem alike (hx : x.Assembled w major data metadata) (hy : y.Assembled w major data metadata') :
    x.layout.Alike y.layout :=
  ⟨hy.major_eq.trans hx.major_eq.symm, hy.blockSize_eq.trans hx.blockSize_eq.symm,
    hy.minorVersion_eq.trans hx.minorVersion_eq.symm⟩

theorem length_payloadRegion (hx : x.Assembled w major data metadata) {r : Region}
    (hr : x.layout.payloadSignatureRegion = .ok (some r)) :
    x.payloadSignature ≠ [] ∧ r.length = x.payloadSignature.length := by
  have hne : x.payloadSignature ≠ [] := by
    intro hnil
    obtain ⟨r', hr', hplace⟩ := hx.splits.payloadSignatureRegion_eq_ok
    obtain ⟨-, hpos, hle, -⟩ := hplace r (Except.ok.inj (hr'.symm.trans hr))
    rw [hnil, List.length_nil] at hle
    omega
  rw [hx.payloadSignatureRegion_eq hne] at hr
  cases hr
  exact ⟨hne, rfl⟩

theorem length_metadataRegion (hx : x.Assembled w major data metadata) {r : Region}
    (hr : x.layout.metadataSignatureRegion = .ok (some r)) :
    x.metadataSignature ≠ [] ∧ r.length = x.metadataSignature.length := by
  rw [hx.splits.metadataSignatureRegion_eq] at hr
  split at hr
  · cases hr
  · next hne =>
    cases hr
    exact ⟨hne, rfl⟩

end Write.Assembled

namespace PayloadFile

variable {major : Option ℤ}

/-- `b` is a payload as it is written, with `reserved` bytes set aside for its signatures. -/
def Written (w : PayloadWriter) (data : Bytes) (major reserved : Option ℤ) (b : Bytes) : Prop :=
  ∃ path l h h', runOn (writePayload w path data major reserved) h = (.ok l, h') ∧ h'.Holds path b

section

variable {manifest : Manifest}

theorem exists_writeParts {v : ℤ} {tail : Bytes} (hm : manifest.Valid)
    (hb : buildMetadata v manifest sig.length = .ok metadata) :
    ∃ l h', runOn (writeParts ⟨false, ["payload"]⟩ v manifest sig data tail) {} = (.ok l, h') ∧
      h'.Holds ⟨false, ["payload"]⟩ (metadata ++ sig ++ data ++ tail) := by
  have hwrite : ∀ content, runOn (writeAtomically ⟨false, ["payload"]⟩ content) {} =
    (.ok (), Lifecycle.writtenHost content) := fun _ => rfl
  obtain ⟨l, hparts⟩ := writeParts_returns hm hb (hwrite _)
  obtain ⟨log, hrun⟩ := hparts.runOn
  exact ⟨l, _, hrun, rfl⟩

theorem exists_sizeOfMajor {v : ℤ} (hm : manifest.Valid)
    (hb : buildMetadata v manifest sig.length = .ok metadata) :
    ∃ size, Header.sizeOfMajor v = .ok size := by
  obtain ⟨header, hv, rfl, -⟩ := buildMetadata_eq_ok hm hb
  rcases hv.major_eq with h1 | h2
  · exact ⟨20, by rw [h1]; rfl⟩
  · exact ⟨24, by rw [h2]; rfl⟩

theorem written_plain (hnew : newManifest w = .ok manifest) (hm : manifest.Valid)
    (hb : buildMetadata (major.getD w.major) manifest ([] : Bytes).length = .ok metadata) :
    Written w data major none (metadata ++ [] ++ data ++ []) := by
  obtain ⟨size, hsize⟩ := exists_sizeOfMajor hm hb
  obtain ⟨l, h', hparts, hholds⟩ := exists_writeParts hm hb
  refine ⟨⟨false, ["payload"]⟩, l, {}, h', ?_, hholds⟩
  refine runOn_liftExcept_bind_eq_ok.2 ⟨size, hsize, ?_⟩
  exact runOn_liftExcept_bind_eq_ok.2 ⟨manifest, hnew, hparts⟩

theorem written_reserved (hnew : newManifest w = .ok manifest) (hn : n ≠ 0)
    (hm : (signedManifest manifest data.length n).Valid)
    (hsig : sig = if major.getD w.major = 2 then List.replicate n 0 else [])
    (hb : buildMetadata (major.getD w.major) (signedManifest manifest data.length n) sig.length =
      .ok metadata) :
    Written w data major (some n) (metadata ++ sig ++ data ++ List.replicate n 0) := by
  obtain ⟨size, hsize⟩ := exists_sizeOfMajor hm hb
  obtain ⟨l, h', hparts, hholds⟩ := exists_writeParts hm hb
  rw [hsig] at hparts
  refine ⟨⟨false, ["payload"]⟩, l, {}, h', ?_, hholds⟩
  refine runOn_liftExcept_bind_eq_ok.2 ⟨size, hsize, ?_⟩
  refine runOn_liftExcept_bind_eq_ok.2 ⟨manifest, hnew, ?_⟩
  have hzero : (some (n : ℤ)).getD 0 ≠ 0 := by simpa using hn
  simp only
  rw [if_neg hzero]
  refine runOn_liftExcept_bind_eq_ok.2 ⟨List.replicate n 0, ?_, hparts⟩
  rw [zeros, if_neg (by simp)]
  rfl

end

theorem Written.exists_plain (hb : Written w data major none b) :
    ∃ (x : Write) (metadata : Bytes), x.Assembled w (major.getD w.major) data metadata ∧
      b = x.content metadata data ∧ x.metadataSignature = [] ∧ x.payloadSignature = [] := by
  obtain ⟨path, l, h, h', hwrite, hb⟩ := hb
  have hzeros : [] = List.replicate ((none : Option ℤ).getD 0).toNat (0 : UInt8) := rfl
  obtain ⟨metadata, hx, hholds⟩ := Write.assembled_of_writePayload hzeros hwrite
  exact ⟨_, metadata, hx, Except.ok.inj (hb.symm.trans hholds), ite_self _, rfl⟩

theorem Written.exists_reserved (hb : Written w data major (some n) b) :
    ∃ (x : Write) (metadata : Bytes), x.Assembled w (major.getD w.major) data metadata ∧
      b = x.content metadata data ∧
      (x.metadataSignature.length : ℤ) = (if major.getD w.major = 2 then (n : ℤ) else 0) ∧
      x.payloadSignature.length = n := by
  obtain ⟨path, l, h, h', hwrite, hb⟩ := hb
  have hzeros : List.replicate n 0 = List.replicate ((some (n : ℤ)).getD 0).toNat (0 : UInt8) := rfl
  obtain ⟨metadata, hx, hholds⟩ := Write.assembled_of_writePayload hzeros hwrite
  refine ⟨_, metadata, hx, Except.ok.inj (hb.symm.trans hholds), ?_, List.length_replicate⟩
  simp only
  split
  · rw [List.length_replicate]
  · rfl

end PayloadFile

namespace Sign

variable {major : Option ℤ}

/-- A payload is signed to one file whether it was written with room for its signatures or without. -/
theorem signPayload_of_written (hchunk : 0 < t.chunk)
    (hblock : ∀ modulus, t.keySizes.Supports modulus → 62 ≤ Rsa.byteLength modulus)
    (hb : Written w data major none b) (hc : Written w data major (some n) c)
    (hn : Answers (Plan.blobLength t keys) h (.ok n)) (hkeys : t.keySizes.StillLoad keys h h')
    (hr : h.Holds path b) (hr' : h'.Holds path' c) (hw : Accepts sink h path keys out)
    (hw' : Accepts sink' h' path' keys out') :
    ∃ hashes signed sink₁ sink₁' h₁ h₁',
      runOn ((signPayload t path keys out).run sink) h = (.ok (hashes, sink₁), h₁) ∧
      runOn ((signPayload t path' keys out').run sink') h' = (.ok (hashes, sink₁'), h₁') ∧
      (sink₁.Spares h₁ out → h₁.Holds out signed) ∧
      (sink₁'.Spares h₁' out' → h₁'.Holds out' signed) := by
  obtain ⟨x, mx, hx, rfl, hxm, hxs⟩ := hb.exists_plain
  obtain ⟨y, my, hy, rfl, hym, hys⟩ := hc.exists_reserved
  have hne : y.payloadSignature ≠ [] := by
    obtain ⟨entries, hsigned, rfl⟩ := signed_of_predicted hblock hn (length_sha256 [])
    rw [← List.length_pos_iff, hys, List.length_pos_iff]
    exact hsigned.encode_ne_nil
  have hmetadata : Plan.signedMetadata y.layout n = .ok my := by
    have hbuilt := hy.built
    rw [hy.major_eq, hy.manifest_eq hne, hym, hys] at hbuilt
    rw [hy.signedMetadata_eq, hbuilt]
  have hmetadata' : Plan.signedMetadata x.layout n = .ok my := by
    rw [hx.signedMetadata_eq, ← hy.signedMetadata_eq, hmetadata]
  -- room for signatures has the size that is predicted for the keys
  have hpayload : ∀ r, y.layout.payloadSignatureRegion = .ok (some r) → r.length = n := by
    intro r hr
    rw [(hy.length_payloadRegion hr).2, hys]
  have hregion : ∀ r, y.layout.metadataSignatureRegion = .ok (some r) → r.length = n := by
    intro r hr
    obtain ⟨hne, hlength⟩ := hy.length_metadataRegion hr
    rw [hlength, hym]
    split
    · rfl
    · next h2 =>
      rw [if_neg h2] at hym
      exact absurd (List.length_eq_zero_iff.1 (Int.ofNat_eq_zero.1 hym)) hne
  obtain ⟨hashes, s, M, sink₁, h₁, hmade, hlength, hrun, hholds⟩ := signPayload_returns hchunk
    hblock hr hx.splits hn hmetadata' (fun r hr => absurd hxs (hx.length_payloadRegion hr).1)
    (fun r hr => absurd hxm (hx.length_metadataRegion hr).1) hw
  obtain ⟨hashes', s', M', sink₁', h₁', hmade', hlength', hrun', hholds'⟩ := signPayload_returns
    hchunk hblock hr' hy.splits (hkeys.blobLength hn) hmetadata hpayload hregion hw'
  have hsame := hmade.congr hchunk hkeys (hx.alike hy) hr hx.splits hr' hy.splits
  cases (answers_makeContainers_iff.2 hsame).unique (answers_makeContainers_iff.2 hmade')
  exact ⟨hashes, _, sink₁, sink₁', h₁, h₁', hrun, hrun', hholds, hholds'⟩

/-- Signing a signed file again returns the same hashes and writes the same file, as long as the keys
load as before, which they do where their files are not written. A payload is signed to one file
whether there was room for its signatures or not, and its own file is left alone. The files that are
compared are not the ledger. -/
theorem signPayload_ignores_form {app : Application} (ha : app.Started) (keys : List Path) :
    (∀ path out again sink sink₁ hashes h h₁,
      runOn ((signPayload app.toolkit path keys out).run sink) h = (.ok (hashes, sink₁), h₁) →
      app.toolkit.keySizes.StillLoad keys h h₁ →
      (∀ content, ∃ h₂, runOn (writeAtomically again content) h₁ = (.ok (), h₂)) →
      sink₁.Spells [again] →
      ∃ sink₂ h₂,
        runOn ((signPayload app.toolkit out keys again).run sink₁) h₁ = (.ok (hashes, sink₂), h₂) ∧
        (sink₁.Spares h₁ out → sink₂.Spares h₂ again →
          ∃ b, h₁.Holds out b ∧ h₂.Holds out b ∧ h₂.Holds again b)) ∧
    (∀ path out sink sink₁ hashes h h₁,
      runOn ((signPayload app.toolkit path keys out).run sink) h = (.ok (hashes, sink₁), h₁) →
      (∀ p ∈ keys, h.placeOf p ≠ h.placeOf out ∧
        ∀ ledger, sink = .audit ledger → h.placeOf p ≠ h.placeOf ledger.path) →
      app.toolkit.keySizes.StillLoad keys h h₁) ∧
    (∀ w data major (n : ℕ) b c path path' out out' sink sink' h h',
      Written w data major none b → Written w data major (some n) c →
      Answers (Plan.blobLength app.toolkit keys) h (.ok n) →
      app.toolkit.keySizes.StillLoad keys h h' → h.Holds path b → h'.Holds path' c →
      Accepts sink h path keys out → Accepts sink' h' path' keys out' →
      ∃ hashes signed sink₁ sink₁' h₁ h₁',
        runOn ((signPayload app.toolkit path keys out).run sink) h = (.ok (hashes, sink₁), h₁) ∧
        runOn ((signPayload app.toolkit path' keys out').run sink') h' =
          (.ok (hashes, sink₁'), h₁') ∧
        (sink₁.Spares h₁ out → h₁.Holds out signed) ∧
        (sink₁'.Spares h₁' out' → h₁'.Holds out' signed)) ∧
    ∀ path out sink sink₁ hashes h h₁ b,
      runOn ((signPayload app.toolkit path keys out).run sink) h = (.ok (hashes, sink₁), h₁) →
      h.Holds path b → h.placeOf path ≠ h.placeOf out →
      (∀ ledger, sink = .audit ledger → h.placeOf path ≠ h.placeOf ledger.path) →
      h₁.Holds path b := by
  refine ⟨?_, ?_, ?_, ?_⟩
  · intro path out again sink sink₁ hashes h h₁ hr hkeys hw hspells
    exact signPayload_again ha.chunk_pos hr hkeys hw hspells
  · intro path out sink sink₁ hashes h h₁ hr hapart
    exact stillLoad_of_signPayload hr hapart
  · intro w data major n b c path path' out out' sink sink' h h' hb hc hn hkeys hr hr' hw hw'
    exact signPayload_of_written ha.chunk_pos ha.room_for_block hb hc hn hkeys hr hr' hw hw'
  · intro path out sink sink₁ hashes h h₁ b hr hb hout hledger
    exact signPayload_keeps hr hb hout hledger

end Sign

namespace Sample

open Sign

/-- The marks of a block that has no label. -/
def unnamed : Bytes := Pem.beginMark ++ (Pem.dashes ++ (Pem.endMark ++ Pem.dashes))

theorem privateKey?_unnamed (hb : 45 ∉ b) (rest : Bytes) :
    KeyDocument.privateKey? (b ++ unnamed ++ rest) = none := by
  obtain ⟨hbegin, hend, hdashes⟩ := Pem.head?_marks
  have hcut : Pem.cut? (b ++ unnamed ++ rest) = some (⟨[], [], []⟩, rest) := by
    have hfirst : Pem.splitAt? Pem.beginMark (b ++ unnamed ++ rest) =
        some (b, [] ++ (Pem.dashes ++ (Pem.endMark ++ (Pem.dashes ++ rest)))) := by
      rw [← Pem.splitAt?_append hbegin hb]
      simp [unnamed]
    have hblank : (Pem.endMark ++ (Pem.dashes ++ rest)).dropWhile Pem.isBlankByte =
      [] ++ (Pem.endMark ++ ([] ++ (Pem.dashes ++ rest))) := rfl
    simp only [Pem.cut?, hfirst, Option.bind_eq_bind, Option.bind_some,
      Pem.splitAt?_append hdashes List.not_mem_nil, hblank,
      Pem.splitAt?_append hend List.not_mem_nil]
    rfl
  have hraw : Pem.ofRaw? ⟨[], [], []⟩ = none := rfl
  have hall : Pem.all? (b ++ unnamed ++ rest) = none := by
    have hne : b ++ unnamed ++ rest ≠ [] := by
      intro hnil
      rw [hnil] at hcut
      cases hcut
    obtain ⟨c, cs, hcs⟩ := List.exists_cons_of_ne_nil hne
    rw [Pem.all?, hcs, List.length_cons, Pem.cutAll, ← hcs, hcut]
    simp only [List.mapM_cons, hraw]
    rfl
  rw [KeyDocument.privateKey?, hall]
  rfl

/-! ### A payload of such data -/

def unsignedManifest : Manifest := ⟨4096, 0, none, none⟩

/-- The manifest of the payload with signatures of 149 bytes, or room for them. -/
def roomyManifest : Manifest := ⟨4096, 0, some 30, some 149⟩

def metadataOf (manifest : Manifest) : Bytes :=
  (⟨1, manifest.toBytes.length, 0⟩ : Header).form ++ manifest.toBytes

def unsigned : Bytes := metadataOf unsignedManifest ++ [] ++ unnamed ++ []

def roomy : Bytes := metadataOf roomyManifest ++ [] ++ unnamed ++ List.replicate 149 0

theorem unsignedManifest_describes : unsignedManifest.Describes unnamed [] := .unsigned rfl rfl rfl

theorem roomyManifest_describes : roomyManifest.Describes unnamed (List.replicate 149 0) :=
  .signed rfl rfl

theorem unsignedManifest_valid : unsignedManifest.Valid :=
  unsignedManifest_describes.valid (by decide +kernel) (by decide) (by decide)

theorem roomyManifest_valid : roomyManifest.Valid :=
  roomyManifest_describes.valid (by decide +kernel) (by decide) (by decide)

theorem buildMetadata_metadataOf {manifest : Manifest} (hm : manifest.Valid) :
    buildMetadata 1 manifest 0 = .ok (metadataOf manifest) := by
  have hv : Header.Valid ⟨1, manifest.toBytes.length, 0⟩ := .first (Manifest.length_toBytes_le hm)
  have hsize : (⟨1, manifest.toBytes.length, 0⟩ : Header).manifestSize = manifest.toBytes.length :=
    rfl
  have hb := buildMetadata_eq hv hm.isWritable hsize
  exact hb

theorem newManifest_first : newManifest { major := 1 } = .ok unsignedManifest := rfl

theorem written_unsigned : Written { major := 1 } unnamed none none unsigned :=
  written_plain newManifest_first unsignedManifest_valid
    (buildMetadata_metadataOf unsignedManifest_valid)

theorem written_roomy : Written { major := 1 } unnamed none (some 149) roomy :=
  written_reserved newManifest_first (by decide) roomyManifest_valid rfl
    (buildMetadata_metadataOf roomyManifest_valid)


/-! ### Signing it -/

/-- The payload can be signed to `out`, and this be recorded. -/
def SmallAccepts (sink : Sink) (payload : Bytes) (out : Path) : Prop :=
  Accepts sink (host payload) ⟨false, ["payload"]⟩ [⟨false, ["key"]⟩] out

theorem unsigned_signPayload (hw : SmallAccepts sink unsigned out) :
    ∃ hashes s sink' h', runOn ((signPayload app.toolkit ⟨false, ["payload"]⟩ [⟨false, ["key"]⟩]
        out).run sink) (host unsigned) = (.ok (hashes, sink'), h') ∧
      (sink'.Spares h' out → h'.Holds out (metadataOf roomyManifest ++ unnamed ++ s)) := by
  obtain ⟨x, metadata, hx, hcontent, hxm, hxs⟩ := written_unsigned.exists_plain
  have hholds : (host unsigned).Holds ⟨false, ["payload"]⟩ (x.content metadata unnamed) := by
    rw [← hcontent]
    rfl
  have hmetadata : Plan.signedMetadata x.layout 149 = .ok (metadataOf roomyManifest) := by
    rw [hx.signedMetadata_eq]
    exact buildMetadata_metadataOf roomyManifest_valid
  obtain ⟨hashes, s, M, sink', h', -, hlength, hrun, hsigned⟩ := signPayload_returns
    app_started.chunk_pos app_started.room_for_block hholds hx.splits
    (answers_blobLength (privateAt unsigned)) hmetadata
    (fun r hr => absurd hxs (hx.length_payloadRegion hr).1) (fun r hr => absurd hxm (hx.length_metadataRegion hr).1) hw
  rw [hx.major_eq, if_neg (by decide)] at hlength
  rw [List.length_eq_zero_iff.1 (Int.ofNat_eq_zero.1 hlength), List.append_nil] at hsigned
  exact ⟨hashes, s, sink', h', hrun, hsigned⟩

theorem accepts_silent {payload : Bytes}
    (hw : ∀ content, ∃ h', runOn (writeAtomically out content) (host payload) = (.ok (), h')) :
    SmallAccepts .silent payload out := by
  intro content
  obtain ⟨h', hwrite⟩ := hw content
  exact ⟨h', hwrite, Sink.canRecord_silent _ h'⟩

theorem exists_writeAtomically (hname : p.endsInName)
    (hd : h.files.isDirectoryAt h.workingDirectory p.parent) (hb : h.Holds p b) (content : Bytes) :
    ∃ h', runOn (writeAtomically p content) h = (.ok (), h') := by
  obtain ⟨place, mode, hl, hn⟩ := FileTree.read_eq_ok_iff.1 hb
  have htarget := FileTree.target_eq_ok_iff.2 ⟨hl, hname, by simp [hn]⟩
  have hparents : runOn (makeParents p) h = (.ok (), h) := runOn_makeDirectories hd
  rw [writeAtomically, runOn_bind_ok hparents, runOn_update]
  simp only [FileTree.replace, htarget, ok_bind]
  exact ⟨_, rfl⟩

theorem host_holds (payload : Bytes) : (host payload).Holds ⟨false, ["payload"]⟩ payload := rfl

theorem host_holds_key (payload : Bytes) : (host payload).Holds ⟨false, ["key"]⟩ privateFile := rfl

theorem stillLoad_host (payload payload' : Bytes) :
    app.toolkit.keySizes.StillLoad [⟨false, ["key"]⟩] (host payload) (host payload') := by
  apply KeySizes.stillLoad_of_holds
  intro p hp b hb
  obtain rfl := List.mem_singleton.1 hp
  obtain rfl := Except.ok.inj (hb.symm.trans (host_holds_key payload))
  exact host_holds_key payload'

theorem accepts_signed (payload : Bytes) : SmallAccepts .silent payload ⟨false, ["signed"]⟩ :=
  accepts_silent fun _ => ⟨_, rfl⟩

theorem accepts_payload (payload : Bytes) : SmallAccepts .silent payload ⟨false, ["payload"]⟩ :=
  accepts_silent fun _ => ⟨_, rfl⟩

/-- A payload is signed, and signed again over its own file, and with room for its signatures it is
signed alike in place. -/
theorem payload_signed_in_any_form :
    ∃ hashes b sink₁ h₁ sink₂ h₂ sink₃ h₃,
      runOn ((signPayload app.toolkit ⟨false, ["payload"]⟩ [⟨false, ["key"]⟩]
        ⟨false, ["signed"]⟩).run .silent) (host unsigned) = (.ok (hashes, sink₁), h₁) ∧
      runOn ((signPayload app.toolkit ⟨false, ["signed"]⟩ [⟨false, ["key"]⟩]
        ⟨false, ["payload"]⟩).run sink₁) h₁ = (.ok (hashes, sink₂), h₂) ∧
      runOn ((signPayload app.toolkit ⟨false, ["payload"]⟩ [⟨false, ["key"]⟩]
        ⟨false, ["payload"]⟩).run .silent) (host roomy) = (.ok (hashes, sink₃), h₃) ∧
      h₁.Holds ⟨false, ["payload"]⟩ unsigned ∧ h₁.Holds ⟨false, ["signed"]⟩ b ∧
      h₂.Holds ⟨false, ["payload"]⟩ b ∧ h₃.Holds ⟨false, ["payload"]⟩ b := by
  obtain ⟨hagain, hload, hforms, hkeeps⟩ :=
    signPayload_ignores_form app_started [⟨false, ["key"]⟩]
  obtain ⟨hashes, b, sink₁, sink₃, h₁, h₃, hrun, hrun₃, hb, hb₃⟩ := hforms _ _ _ _ _ _ _ _ _ _ _ _
    _ _ written_unsigned written_roomy (answers_blobLength (privateAt unsigned))
    (stillLoad_host unsigned roomy) (host_holds unsigned) (host_holds roomy) (accepts_signed unsigned) (accepts_payload roomy)
  obtain rfl := signPayload_silent hrun
  obtain rfl := signPayload_silent hrun₃
  have hinput : h₁.Holds ⟨false, ["payload"]⟩ unsigned :=
    hkeeps _ _ _ _ _ _ _ _ hrun (host_holds unsigned) (by decide) nofun
  have hkeys : app.toolkit.keySizes.StillLoad [⟨false, ["key"]⟩] (host unsigned) h₁ := by
    refine hload _ _ _ _ _ _ _ hrun fun p hp => ?_
    obtain rfl := List.mem_singleton.1 hp
    exact ⟨by decide, nofun⟩
  have hc := signPayload_changes hrun
  have hroot : h₁.files.isDirectoryAt h₁.workingDirectory (Path.parent ⟨false, ["payload"]⟩) := by
    rw [hc.workingDirectory]
    rfl
  obtain ⟨sink₂, h₂, hrun₂, hsame⟩ :=
    hagain _ _ _ _ _ _ _ _ hrun hkeys (exists_writeAtomically rfl hroot hinput) nofun
  obtain rfl := signPayload_silent hrun₂
  obtain ⟨b', hb', -, hback⟩ := hsame (Sink.spares_silent _ _) (Sink.spares_silent _ _)
  obtain rfl := Except.ok.inj ((hb (Sink.spares_silent _ _)).symm.trans hb')
  exact ⟨hashes, b, _, h₁, _, h₂, _, h₃, hrun, hrun₂, hrun₃, hinput, hb', hback,
    hb₃ (Sink.spares_silent _ _)⟩

/-! ### Where the files are the ledger or a key -/

def ledger : Ledger := ⟨Ledger.ledgerPath, [7], {}⟩

/-- A ledger that is kept in the file of the payload. -/
def payloadLedger : Ledger := ⟨⟨false, ["payload"]⟩, [7], {}⟩

theorem accepts_ledger (payload : Bytes) :
    SmallAccepts (.audit ledger) payload ledger.path := by
  intro content
  have hw : ∃ h', runOn (writeAtomically ledger.path content) (host payload) = (.ok (), h') :=
    ⟨_, rfl⟩
  obtain ⟨h', hw⟩ := hw
  exact ⟨h', hw, Sink.canRecord_of_holds (holds_of_writeAtomically hw) (by decide)⟩

theorem accepts_signed_of_ledger (payload : Bytes) :
    SmallAccepts (.audit ledger) payload ⟨false, ["signed"]⟩ := by
  intro content
  exact ⟨_, rfl, Sink.canRecord_audit_iff.2 ⟨⟨["ledger"], rfl, nofun⟩, by decide⟩⟩

theorem accepts_signed_of_payloadLedger (payload : Bytes) :
    SmallAccepts (.audit payloadLedger) payload ⟨false, ["signed"]⟩ :=
  fun _ => ⟨_, rfl, Sink.canRecord_of_holds (host_holds payload) (by decide)⟩

theorem accepts_key (payload : Bytes) : SmallAccepts .silent payload ⟨false, ["key"]⟩ :=
  accepts_silent fun _ => ⟨_, rfl⟩

theorem accepts_alias (payload : Bytes) : SmallAccepts .silent payload ⟨true, ["payload"]⟩ :=
  accepts_silent fun _ => ⟨_, rfl⟩

theorem signed_ne_unsigned (s : Bytes) : metadataOf roomyManifest ++ unnamed ++ s ≠ unsigned := by
  intro hsame
  have hlonger : (metadataOf unsignedManifest).length < (metadataOf roomyManifest).length := by
    decide +kernel
  have hlength := congrArg List.length hsame
  rw [unsigned] at hlength
  generalize metadataOf unsignedManifest = metadata at hlonger hlength
  generalize metadataOf roomyManifest = metadata' at hlonger hlength
  simp only [List.length_append, List.length_nil] at hlength
  omega

/-- Signing the payload that has no signatures returns these hashes. -/
def Signs (out : Path) (sink : Sink) (hashes : HashSet) (sink' : Sink) (h : Host) : Prop :=
  runOn ((signPayload app.toolkit ⟨false, ["payload"]⟩ [⟨false, ["key"]⟩] out).run sink)
    (host unsigned) = (.ok (hashes, sink'), h)

theorem key_not_signedAgain : ∃ hashes sink₁ h₁, Signs ⟨false, ["key"]⟩ .silent hashes sink₁ h₁ ∧
    ¬ SignedAgain app.toolkit [⟨false, ["key"]⟩] ⟨false, ["key"]⟩ ⟨false, ["again"]⟩ hashes sink₁
      h₁ := by
  obtain ⟨hashes, s, sink₁, h₁, hrun, hsigned⟩ := unsigned_signPayload (accepts_key unsigned)
  obtain rfl := signPayload_silent hrun
  refine ⟨hashes, _, h₁, hrun, not_signedAgain_of_key List.mem_cons_self fun secret hk => ?_⟩
  obtain ⟨file, hfile, hkey, -⟩ := KeySizes.privateAt_iff.1 hk
  obtain rfl := Except.ok.inj (hfile.symm.trans (hsigned (Sink.spares_silent _ _)))
  have hplain : 45 ∉ metadataOf roomyManifest := by decide +kernel
  rw [privateKey?_unnamed hplain] at hkey
  cases hkey

/-- The payload signed into the ledger has the record behind it, which the roomy one has not when it
is signed elsewhere. -/
theorem ledger_differs_from_signed : ∃ hashes hashes' sink₁ sink₂ h₁ h₂,
    Signs ledger.path (.audit ledger) hashes sink₁ h₁ ∧
    runOn ((signPayload app.toolkit ⟨false, ["payload"]⟩ [⟨false, ["key"]⟩]
      ⟨false, ["signed"]⟩).run .silent) (host roomy) = (.ok (hashes', sink₂), h₂) ∧
    ¬ ∃ b, h₁.Holds ledger.path b ∧ h₂.Holds ⟨false, ["signed"]⟩ b := by
  obtain ⟨hashes, s, sink₁, h₁, hrun, -⟩ := unsigned_signPayload (accepts_ledger unsigned)
  obtain ⟨hashes', signed, _, sink₂, _, h₂, -, hrun₂, -⟩ := signPayload_of_written
    app_started.chunk_pos app_started.room_for_block written_unsigned written_roomy
    (answers_blobLength (privateAt unsigned)) (stillLoad_host unsigned roomy) (host_holds unsigned)
    (host_holds roomy) (accepts_signed unsigned) (accepts_signed roomy)
  refine ⟨hashes, hashes', sink₁, sink₂, h₁, h₂, hrun, hrun₂, fun hsame => ?_⟩
  obtain ⟨b, hb, hb'⟩ := hsame
  obtain rfl := signPayload_silent hrun₂
  exact not_isSigned_of_ledger hrun hb (isSigned_of_spares hrun₂ hb' (Sink.spares_silent _ _))

theorem alias_not_kept : ∃ hashes sink₁ h₁, Signs ⟨true, ["payload"]⟩ .silent hashes sink₁ h₁ ∧
    ¬ h₁.Holds ⟨false, ["payload"]⟩ unsigned := by
  obtain ⟨hashes, s, sink₁, h₁, hrun, hsigned⟩ := unsigned_signPayload (accepts_alias unsigned)
  obtain rfl := signPayload_silent hrun
  refine ⟨hashes, _, h₁, hrun, fun hb => ?_⟩
  have hplace : h₁.locate ⟨true, ["payload"]⟩ = h₁.locate ⟨false, ["payload"]⟩ := by
    rw [Host.locate, Host.locate, (signPayload_changes hrun).workingDirectory]
    rfl
  have hb' : h₁.Holds ⟨true, ["payload"]⟩ unsigned := (FileTree.read_of_locate_eq hplace).trans hb
  have hsame := (hsigned (Sink.spares_silent _ _)).symm.trans hb'
  exact signed_ne_unsigned s (Except.ok.inj hsame)

/-- A name that ends in a byte 255. -/
def unspelledOutput : Path := ⟨false, [.broken "again" (.ofByte 255) ""]⟩

/-- What is signed into the ledger, from there, or into the file of a key, is not signed again to a
file like it, nor is anything signed into a directory, or with a ledger to a name that cannot be
recorded; a payload is signed to two files if one of them is the ledger; and a file is changed by
signing into it, by whatever path, and by its record. -/
theorem signing_again_differs :
    (∃ hashes sink₁ h₁, Signs ledger.path (.audit ledger) hashes sink₁ h₁ ∧
      ¬ SignedAgain app.toolkit [⟨false, ["key"]⟩] ledger.path ⟨false, ["again"]⟩ hashes sink₁
        h₁) ∧
    (∃ hashes sink₁ h₁, Signs ⟨false, ["signed"]⟩ (.audit ledger) hashes sink₁ h₁ ∧
      ¬ SignedAgain app.toolkit [⟨false, ["key"]⟩] ⟨false, ["signed"]⟩ ledger.path hashes sink₁
        h₁) ∧
    (∃ hashes sink₁ h₁, Signs ⟨false, ["key"]⟩ .silent hashes sink₁ h₁ ∧
      ¬ SignedAgain app.toolkit [⟨false, ["key"]⟩] ⟨false, ["key"]⟩ ⟨false, ["again"]⟩ hashes sink₁
        h₁) ∧
    (∃ hashes sink₁ h₁, Signs ⟨false, ["signed"]⟩ .silent hashes sink₁ h₁ ∧
      ¬ SignedAgain app.toolkit [⟨false, ["key"]⟩] ⟨false, ["signed"]⟩ ⟨true, []⟩ hashes sink₁ h₁) ∧
    (∃ hashes sink₁ h₁, Signs ⟨false, ["signed"]⟩ (.audit ledger) hashes sink₁ h₁ ∧
      ¬ SignedAgain app.toolkit [⟨false, ["key"]⟩] ⟨false, ["signed"]⟩ unspelledOutput hashes sink₁
        h₁) ∧
    (Written { major := 1 } unnamed none none unsigned ∧
      Written { major := 1 } unnamed none (some 149) roomy ∧
      Answers (Plan.blobLength app.toolkit [⟨false, ["key"]⟩]) (host unsigned) (.ok 149) ∧
      ∃ hashes hashes' sink₁ sink₂ h₁ h₂, Signs ledger.path (.audit ledger) hashes sink₁ h₁ ∧
        runOn ((signPayload app.toolkit ⟨false, ["payload"]⟩ [⟨false, ["key"]⟩]
          ⟨false, ["signed"]⟩).run .silent) (host roomy) = (.ok (hashes', sink₂), h₂) ∧
        ¬ ∃ b, h₁.Holds ledger.path b ∧ h₂.Holds ⟨false, ["signed"]⟩ b) ∧
    (∃ hashes sink₁ h₁, Signs ⟨true, ["payload"]⟩ .silent hashes sink₁ h₁ ∧
      ¬ h₁.Holds ⟨false, ["payload"]⟩ unsigned) ∧
    ∃ hashes sink₁ h₁, Signs ⟨false, ["signed"]⟩ (.audit payloadLedger) hashes sink₁ h₁ ∧
      ¬ h₁.Holds ⟨false, ["payload"]⟩ unsigned := by
  refine ⟨?_, ?_, key_not_signedAgain, ?_, ?_, ⟨written_unsigned, written_roomy,
    answers_blobLength (privateAt unsigned), ledger_differs_from_signed⟩, alias_not_kept, ?_⟩
  · obtain ⟨hashes, s, sink₁, h₁, hrun, -⟩ := unsigned_signPayload (accepts_ledger unsigned)
    exact ⟨hashes, sink₁, h₁, hrun, not_signedAgain_of_ledger hrun (by decide)⟩
  · obtain ⟨hashes, s, sink₁, h₁, hrun, -⟩ :=
      unsigned_signPayload (accepts_signed_of_ledger unsigned)
    exact ⟨hashes, sink₁, h₁, hrun, not_signedAgain_into_ledger hrun (by decide)⟩
  · obtain ⟨hashes, s, sink₁, h₁, hrun, -⟩ := unsigned_signPayload (accepts_signed unsigned)
    refine ⟨hashes, sink₁, h₁, hrun, fun hagain => ?_⟩
    obtain ⟨b, sink₂, h₂, -, -, hb⟩ := hagain
    cases hb
  · obtain ⟨hashes, s, sink₁, h₁, hrun, -⟩ :=
      unsigned_signPayload (accepts_signed_of_ledger unsigned)
    exact ⟨hashes, sink₁, h₁, hrun, not_signedAgain_unspelled hrun (by decide)⟩
  · obtain ⟨hashes, s, sink₁, h₁, hrun, -⟩ :=
      unsigned_signPayload (accepts_signed_of_payloadLedger unsigned)
    exact ⟨hashes, sink₁, h₁, hrun, not_holds_of_ledger hrun (host_holds unsigned) (by decide)⟩

end Sample

end UpdateSeal
