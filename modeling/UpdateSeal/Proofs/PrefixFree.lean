import UpdateSeal.Proofs.Acceptance
import UpdateSeal.Proofs.MetadataSignatures
import UpdateSeal.Proofs.RecordedWork

/-!
# Accepted payloads are prefix-free

Header and manifest stand in front of a payload and say where its signature ends, so a payload that
is continued, or cut behind its manifest, declares the same end. A payload is accepted only if its
signature ends it. Continued by anything it has bytes behind its signature and is not accepted, and
cut anywhere it breaks its format: what it declares ends behind it, or it declares nothing. No
signature is looked at for this.
-/

namespace UpdateSeal

open UpdateSeal.Action

namespace Layout

variable {l l' : Layout} {content front more : Bytes} {r : Region}

/-- `l` for a file of another size. -/
def resized (l : Layout) (size : ℕ) : Layout := { l with fileSize := size }

@[simp] theorem payloadSignatureRegion_resized (l : Layout) (size : ℕ) :
    (l.resized size).payloadSignatureRegion = l.payloadSignatureRegion := rfl

/-- A payload signature stands behind data of a declared length. -/
theorem dataLength_resized (hr : l.payloadSignatureRegion = .ok (some r)) (size : ℕ) :
    (l.resized size).dataLength = l.dataLength := by
  unfold payloadSignatureRegion at hr
  split at hr
  · next offset _ hoffset _ =>
    have hresized : (l.resized size).manifest.signaturesOffset = some offset := hoffset
    rw [dataLength, dataLength, hresized, hoffset]
  · cases hr

/-- What a file declares stands in its front. -/
theorem DeclaredBy.append (hl : DeclaredBy content l) (more : Bytes) :
    DeclaredBy (content ++ more) (l.resized (content ++ more).length) := by
  obtain ⟨n, k, hn, hk, hle, hmanifest⟩ := hl.manifest_eq
  obtain ⟨hvalid, rest, hfront⟩ := Header.form_of_ofBytes hl.header_eq
  constructor
  case header_eq =>
    rw [List.take_append, hfront, List.append_assoc]
    exact Header.ofBytes_form hvalid _
  case manifest_eq =>
    refine ⟨n, k, hn, hk, ?_, ?_⟩
    · rw [List.length_append]
      omega
    · have hslice : Bytes.slice n k (content ++ more) = Bytes.slice n k content := by
        rw [Bytes.slice, Bytes.slice, List.drop_append_of_le_length (by omega),
          List.take_append_of_le_length (by rw [List.length_drop]; omega)]
      rw [hslice]
      exact hmanifest
  case fileSize_eq => rfl

theorem Fits.resized (hf : l.Fits) (hr : l.payloadSignatureRegion = .ok (some r)) {size : ℕ}
    (hle : l.fileSize ≤ size) : (l.resized size).Fits := by
  obtain ⟨⟨⟨offset, ho, hmetadata⟩, offset', length, ho', hd, hdata⟩, region, hr', hstop⟩ := hf
  obtain rfl := Except.ok.inj (hr.symm.trans hr')
  have hd' : (l.resized size).dataLength = .ok length := (dataLength_resized hr size).trans hd
  constructor
  case toBodyFits =>
    exact ⟨⟨offset, ho, Int.le_trans hmetadata hle⟩, offset', length, ho', hd',
      Int.le_trans hdata hle⟩
  case signature_le => exact ⟨_, hr, fun q hq => Int.le_trans (hstop q hq) hle⟩

/-- `content` has the layout `l`, and the payload signature ends it. -/
structure Seals (l : Layout) (content : Bytes) : Prop where
  declared : DeclaredBy content l
  fits : l.Fits
  stop_eq : ∃ r, l.payloadSignatureRegion = .ok (some r) ∧ r.stop = content.length

theorem seals_of_ofContent {name : String} (hl : ofContent name content = .ok l)
    (hr : l.payloadSignatureRegion = .ok (some r)) (hstop : r.stop = l.fileSize) :
    l.Seals content := by
  obtain ⟨hdeclared, hfits⟩ := (ofContent_eq_ok_iff name).1 hl
  exact ⟨hdeclared, hfits, r, hr, hstop.trans hdeclared.fileSize_eq⟩

/-- With more bytes behind it the signature does not end the file. -/
theorem Seals.ofContent_append (hl : l.Seals content) (hmore : more ≠ [])
    (name : String) :
    ∃ l' r, ofContent name (content ++ more) = .ok l' ∧
      l'.payloadSignatureRegion = .ok (some r) ∧ r.stop ≠ l'.fileSize := by
  obtain ⟨r, hr, hstop⟩ := hl.stop_eq
  have hpos := List.length_pos_iff.2 hmore
  have hlt : content.length < (content ++ more).length := by
    rw [List.length_append]
    omega
  have hle : l.fileSize ≤ (content ++ more).length := by
    rw [hl.declared.fileSize_eq]
    exact Int.ofNat_le.2 (Nat.le_of_lt hlt)
  refine ⟨l.resized (content ++ more).length, r, ?_, hr, ?_⟩
  · exact (ofContent_eq_ok_iff name).2 ⟨hl.declared.append more, hl.fits.resized hr hle⟩
  · rw [hstop]
    exact Int.ne_of_lt (Int.ofNat_lt.2 hlt)

/-- A front of the file declares an end of the signature that lies behind it. -/
theorem Seals.region_of_front (hl : l.Seals (front ++ more)) (hmore : more ≠ [])
    (hl' : DeclaredBy front l') :
    ∃ r, l'.payloadSignatureRegion = .ok (some r) ∧ l'.fileSize < r.stop ∧
      r.stop = (front ++ more).length := by
  obtain ⟨r, hr, hstop⟩ := hl.stop_eq
  rw [hl.declared.unique (hl'.append more), payloadSignatureRegion_resized] at hr
  have hpos := List.length_pos_iff.2 hmore
  refine ⟨r, hr, ?_, hstop⟩
  rw [hstop, hl'.fileSize_eq, List.length_append]
  omega

theorem Seals.ofContent_front (hl : l.Seals (front ++ more)) (hmore : more ≠ [])
    (hsize : (front ++ more).Addressable) (name : String) :
    ∃ f, ofContent name front = .error f ∧ f.IsFormat := by
  have hnone : ¬ ∃ l', DeclaredBy front l' ∧ l'.Fits := by
    rintro ⟨l', hl', hfits⟩
    obtain ⟨r, hr, hlt, -⟩ := hl.region_of_front hmore hl'
    exact Int.not_le.2 hlt (((fits_iff hr).1 hfits).2 r rfl)
  obtain ⟨f, hf, hlong, hformat⟩ := ofContent_eq_error name hnone
  refine ⟨f, hf, hformat fun h => ?_⟩
  obtain ⟨l', hl', -, q, hq, -, hdigits⟩ := hlong.1 h
  obtain ⟨r, hr, -, hstop⟩ := hl.region_of_front hmore hl'
  obtain rfl := Option.some.inj (Except.ok.inj (hr.symm.trans hq))
  -- the end is the size of a file, and no file is that long
  have hroom : 2 ^ 63 < 10 ^ Json.maxDigits := by decide +kernel
  have hdigits : 10 ^ Json.maxDigits ≤ (front ++ more).length := by exact_mod_cast hstop ▸ hdigits
  exact absurd hsize (Nat.not_lt.2 (Nat.le_trans (Nat.le_of_lt hroom) hdigits))

end Layout

namespace Sign

variable {t : Toolkit} {h h' : Host} {path : Path} {keys : List Path} {sink sink' : Sink}
variable {l : Layout} {content : Bytes}

/-- A payload that is accepted is one that its signature ends. -/
theorem seals_of_verifyFile (hr : h.Holds path content)
    (hv : Answers (verifyFile t path keys) h (.ok true)) : ∃ l : Layout, l.Seals content := by
  cases hl : Layout.ofContent path.text content with
  | error e => cases hv.unique (answers_verifyFile_error hr hl)
  | ok l =>
    obtain ⟨md, sig, data, tail, hs⟩ := Layout.splits_of_ofContent hl
    obtain ⟨region, hregion, -⟩ := hs.payloadSignatureRegion_eq_ok
    cases region with
    | none => cases hv.unique (answers_verifyFile_of_open hr hl hregion nofun)
    | some r =>
      by_cases hstop : r.stop = l.fileSize
      · exact ⟨l, Layout.seals_of_ofContent hl hregion hstop⟩
      · cases hv.unique (answers_verifyFile_of_open hr hl hregion (by simpa using hstop))

theorem verifyFile_of_verifyPayload {b : Bool}
    (hv : runOn ((verifyPayload t path keys).run sink) h = (.ok (b, sink'), h')) :
    Answers (verifyFile t path keys) h (.ok b) := by
  rw [verifyPayload, runOn_recorded_eq_ok (f := fun verified => verified)] at hv
  obtain ⟨c, h₁, e, hverify, -, rfl⟩ := hv
  exact (observes_verifyFile.answers hverify).1

/-- A file with this content is not accepted, wherever it is and whichever keys are given. -/
def Refused (content : Bytes) : Prop :=
  ∀ (t : Toolkit) (h : Host) (path : Path) (keys : List Path) (sink : Sink), h.Holds path content →
    sink.CanRecord ((path :: keys).map Path.spelling) h →
    ∃ sink' h', runOn ((verifyPayload t path keys).run sink) h = (.ok (false, sink'), h')

/-- Verifying a file with this content fails for its format, wherever it is and whichever keys are
given. -/
def Malformed (content : Bytes) : Prop :=
  ∀ t h path keys sink, h.Holds path content →
    ∃ f log, f.IsFormat ∧ runOn ((verifyPayload t path keys).run sink) h =
      (.error (.payload f), { h with log })

theorem refused_append {more : Bytes} (hl : l.Seals content) (hmore : more ≠ []) :
    Refused (content ++ more) := by
  intro t h path keys sink hr hrecord
  obtain ⟨l', r, hl', hregion, hne⟩ := hl.ofContent_append hmore path.text
  have hverify : Answers (verifyFile t path keys) h (.ok false) :=
    answers_verifyFile_of_open hr hl' hregion (by simpa using hne)
  exact verifyPayload_returns hverify hrecord

theorem malformed_front {front more : Bytes} (hl : l.Seals (front ++ more)) (hmore : more ≠ [])
    (hsize : (front ++ more).Addressable) : Malformed front := by
  intro t h path keys sink hr
  obtain ⟨f, hf, hformat⟩ := hl.ofContent_front hmore hsize path.text
  have hverify : Answers (verifyFile t path keys) h (.error (.payload f)) :=
    answers_verifyFile_error hr hf
  obtain ⟨log, hrun⟩ := verifyPayload_error hverify
  exact ⟨f, log, hformat, hrun⟩

/-- No accepted payload begins another. Continued by any bytes it is not accepted, and cut anywhere
it breaks its format. -/
theorem verifyPayload_prefix_free (hsize : content.Addressable) (hr : h.Holds path content)
    (hv : runOn ((verifyPayload t path keys).run sink) h = (.ok (true, sink'), h')) :
    (∀ more, more ≠ [] → Refused (content ++ more)) ∧
      ∀ front, front <+: content → front ≠ content → Malformed front := by
  obtain ⟨l, hl⟩ := seals_of_verifyFile hr (verifyFile_of_verifyPayload hv)
  refine ⟨fun more hmore => refused_append hl hmore, ?_⟩
  rintro front ⟨more, rfl⟩ hcut
  have hmore : more ≠ [] := by
    rintro rfl
    exact hcut (List.append_nil front).symm
  exact malformed_front hl hmore hsize

end Sign

theorem Sample.bare_prefix_free :
    ∃ F, (∃ sink' h', runOn ((Sign.verifyPayload app.toolkit ⟨false, ["payload"]⟩
        [⟨false, ["public"]⟩]).run .silent) (host F) = (.ok (true, sink'), h')) ∧
      (∀ more, more ≠ [] → Sign.Refused (F ++ more)) ∧
      ∀ front, front <+: F → front ≠ F → Sign.Malformed front := by
  obtain ⟨l, F, -, hl, hsigned, hsize⟩ := exists_bare_addressable
  have hholds : (host F).Holds ⟨false, ["payload"]⟩ F := rfl
  obtain ⟨b, hverify, hb⟩ := Sign.answers_verifyFile app_started.chunk_pos
    app_started.room_for_block hholds hl (.cons (publicAt F) .nil)
  obtain rfl := hb.2 hsigned
  obtain ⟨sink', h', hrun⟩ := Sign.verifyPayload_returns hverify (Sink.canRecord_silent _ _)
  exact ⟨F, ⟨sink', h', hrun⟩, Sign.verifyPayload_prefix_free hsize hholds hrun⟩

end UpdateSeal
