import UpdateSeal.Proofs.Acceptance
import UpdateSeal.Proofs.RecordedWork
import UpdateSeal.Proofs.Trails

/-!
# What verifying can fail with

Verifying comes to one of a few findings: the payload cannot be read, it has no layout, its payload
signature does not end it, a key does not load, or its signatures were checked. The checks do not
fail. Regions of a layout that was read lie in the file, a key that loads has room for the block of
a digest, and a container that cannot be read is one without signatures. So a failure is always one
of the payload's file, of its format, or of a key, but for a payload signature that ends too far
behind the file for the number to be written. Whatever is found, only the ledger is written.
-/

namespace UpdateSeal

open UpdateSeal.Action

/-- The payload or a key is at fault: its file cannot be read, or does not hold what it should. -/
def Failure.IsOfInput : Failure → Prop
  | .source _ | .key _ | .rsa _ => True
  | .payload f => f.IsFormat
  | _ => False

namespace KeySizes

variable {s : KeySizes} {h : Host} {p : Path} {paths : List Path} {e : Failure}
  {handles : List LoadedKey}

theorem handleOf_eq_error {α : Type} {half : KeyHalf} {parsed : Option (KeyDocument.Parsed α)}
    {modulus : α → Nat} {wrap : α → KeyMaterial}
    (he : s.handleOf half p parsed modulus wrap = .error e) : e.IsOfInput := by
  unfold handleOf at he
  split at he
  · cases he
    trivial
  · cases he
    trivial
  · rw [check] at he
    split at he
    · cases he
    · cases he
      trivial

theorem isOfInput_of_loadPublic (he : Answers (s.loadPublic p) h (.error e)) : e.IsOfInput := by
  cases hr : h.files.read h.workingDirectory p with
  | error reason =>
    have hread : Answers (readKeyFile p) h (.error (.key (.unreadable p ⟨reason, some p⟩))) :=
      (answers_read_error hr).tryCatch_error (answers_throw _ h)
    cases hread.bind_error.unique he
    trivial
  | ok file =>
    have hload : Answers (s.loadPublic p) h ((s.publicHandle p file).mapError id) :=
      (answers_readKeyFile hr).bind (answers_liftExcept id _ h)
    have hhandle := hload.unique he
    cases hp : s.publicHandle p file with
    | ok k => rw [hp] at hhandle; cases hhandle
    | error e' =>
      rw [hp] at hhandle
      cases hhandle
      exact handleOf_eq_error hp

theorem exists_publicAt_of_mapM (hload : Answers (paths.mapM s.loadPublic) h (.ok handles)) :
    ∃ keys, List.Forall₂ (s.PublicAt h) paths keys := by
  obtain ⟨log, hrun⟩ := hload.runOn
  have hall := forall₂_of_mapM (Verify.observes_loadPublic s) hrun
  clear hload hrun
  induction hall with
  | nil => exact ⟨[], .nil⟩
  | cons hk _ ih =>
    obtain ⟨key, hkey⟩ := exists_publicAt hk
    obtain ⟨keys, hkeys⟩ := ih
    exact ⟨key :: keys, .cons hkey hkeys⟩

end KeySizes

/-- The file at `path` declares a payload signature that ends behind it, at a number with more
digits than can be written. -/
def PayloadFile.OverlongAt (h : Host) (path : Path) : Prop :=
  ∃ F l, h.Holds path F ∧ Layout.DeclaredBy F l ∧ l.Overlong

/-- The payload signature ends the file. -/
def Layout.Ended (l : Layout) : Prop :=
  ∃ r, l.payloadSignatureRegion = .ok (some r) ∧ r.stop = l.fileSize

theorem Layout.DeclaredBy.ofContent_of_overlong {l : Layout} {content : Bytes}
    (hl : DeclaredBy content l) (hlong : l.Overlong) (name : String) :
    ofContent name content = .error .longNumber := by
  have hnone : ¬ ∃ l', DeclaredBy content l' ∧ l'.Fits := by
    rintro ⟨l', hl', hfits⟩
    exact (hl.unique hl' ▸ hlong).not_fits hfits
  obtain ⟨f, hf, hiff, -⟩ := ofContent_eq_error name hnone
  rw [hf, hiff.2 ⟨l, hl, hlong⟩]

namespace Sign

variable {t : Toolkit} {h : Host} {path : Path} {paths : List Path} {app : Application}
  {sink : Sink} {r : Except Failure Bool} {e : Failure}

/-- What verifying the payload at `path` comes to on `h`. -/
inductive Finding (t : Toolkit) (h : Host) (path : Path) (paths : List Path) :
    Except Failure Bool → Prop where
  | unreadable {reason : StorageReason} (hr : h.files.read h.workingDirectory path = .error reason) :
      Finding t h path paths (.error (.source (.unreadablePayload path ⟨reason, some path⟩)))
  | unfit {F : Bytes} {f : PayloadFault} (hr : h.Holds path F)
      (hl : Layout.ofContent path.text F = .error f) : Finding t h path paths (.error (.payload f))
  | unended {F : Bytes} {l : Layout} (hr : h.Holds path F)
      (hl : Layout.ofContent path.text F = .ok l) (he : ¬ l.Ended) :
      Finding t h path paths (.ok false)
  | keyless {F : Bytes} {l : Layout} {p : Path} {e : Failure} (hr : h.Holds path F)
      (hl : Layout.ofContent path.text F = .ok l) (he : l.Ended) (hp : p ∈ paths)
      (hk : Answers (t.keySizes.loadPublic p) h (.error e)) : Finding t h path paths (.error e)
  | checked {F : Bytes} {l : Layout} {keys : List Rsa.PublicKey} {b : Bool} (hr : h.Holds path F)
      (hl : Layout.ofContent path.text F = .ok l) (he : l.Ended)
      (hk : List.Forall₂ (t.keySizes.PublicAt h) paths keys) (hb : b = true ↔ l.SignedBy keys F) :
      Finding t h path paths (.ok b)

/-- Keys are loaded before any signature is looked at. -/
theorem checkSignatures_fails {F md sig data tail : Bytes} {l : Layout} {region : Region}
    (hchunk : 0 < t.chunk) (hr : h.Holds path F) (hs : l.Splits F md sig data tail)
    (hin : region.Inside F.length)
    (hload : Answers (paths.mapM t.keySizes.loadPublic) h (.error e)) :
    Answers (checkSignatures t path l region paths) h (.error e) := by
  have hverify : Answers (Verify.verifyDigest t (region.bytes F) paths (sha256 (md ++ data))) h
    (.error e) := hload.bind_error
  exact (Plan.answers_hashSigned hchunk hr hs).bind
    ((PayloadFile.answers_readRegion hr hin).bind hverify.bind_error)

theorem answers_verifyFile_finding (hchunk : 0 < t.chunk)
    (hblock : ∀ modulus, t.keySizes.Supports modulus → 62 ≤ Rsa.byteLength modulus) (h : Host)
    (path : Path) (paths : List Path) :
    ∃ r, Answers (verifyFile t path paths) h r ∧ Finding t h path paths r := by
  cases hr : h.files.read h.workingDirectory path with
  | error reason =>
    exact ⟨_, (PayloadFile.answers_readLayout_error hr).bind_error, .unreadable hr⟩
  | ok F =>
    cases hl : Layout.ofContent path.text F with
    | error f => exact ⟨_, answers_verifyFile_error hr hl, .unfit hr hl⟩
    | ok l =>
      obtain ⟨md, sig, data, tail, hs⟩ := Layout.splits_of_ofContent hl
      by_cases hended : l.Ended
      · obtain ⟨q, hregion, hstop⟩ := hended
        obtain ⟨r, hload⟩ := Observes.mapM (Verify.observes_loadPublic t.keySizes) paths h
        cases r with
        | error e =>
          obtain ⟨p, hp, hk⟩ := exists_of_mapM_error (Verify.observes_loadPublic t.keySizes) hload
          have hcheck := checkSignatures_fails hchunk hr hs (hs.inside_payloadSignature hregion) hload
          exact ⟨_, answers_verifyFile_of_closed hr hl hregion hstop hcheck,
            .keyless hr hl ⟨q, hregion, hstop⟩ hp hk⟩
        | ok handles =>
          obtain ⟨keys, hk⟩ := KeySizes.exists_publicAt_of_mapM hload
          obtain ⟨b, hverify, hb⟩ := answers_verifyFile hchunk hblock hr hl hk
          exact ⟨_, hverify, .checked hr hl ⟨q, hregion, hstop⟩ hk hb⟩
      · obtain ⟨region, hregion, -⟩ := hs.payloadSignatureRegion_eq_ok
        have hopen : ∀ r, region = some r → r.stop ≠ l.fileSize := by
          rintro r rfl hstop
          exact hended ⟨r, hregion, hstop⟩
        exact ⟨_, answers_verifyFile_of_open hr hl hregion hopen, .unended hr hl hended⟩

/-- A payload that has no layout breaks the format, if it is not overlong. -/
theorem Finding.isOfInput (hf : Finding t h path paths (.error e))
    (hshort : ¬ PayloadFile.OverlongAt h path) : e.IsOfInput := by
  cases hf with
  | unreadable hr => trivial
  | @unfit F f hr hl =>
    have hnone : ¬ ∃ l, Layout.DeclaredBy F l ∧ l.Fits := by
      rintro ⟨l, hfits⟩
      cases hl.symm.trans ((Layout.ofContent_eq_ok_iff path.text).2 hfits)
    obtain ⟨f', hf, hlong, hformat⟩ := Layout.ofContent_eq_error path.text hnone
    obtain rfl := Except.error.inj (hl.symm.trans hf)
    refine hformat fun hf => ?_
    obtain ⟨l, hl, hlong⟩ := hlong.1 hf
    exact hshort ⟨F, l, hr, hl, hlong⟩
  | keyless hr hl he hp hk => exact KeySizes.isOfInput_of_loadPublic hk

/-- Verifying writes nothing but the record of it. -/
theorem changes_verifyPayload (t : Toolkit) (path : Path) (paths : List Path) (sink : Sink)
    (h : Host) :
    Host.Changes (sink.KeptAt h) (fun _ => False) h
      (runOn ((verifyPayload t path paths).run sink) h).2 := by
  have hobserves : Observes (verifyFile t path paths) := observes_verifyFile
  obtain ⟨r, hverify⟩ := hobserves h
  obtain ⟨log, hrun⟩ := hverify.runOn
  have hlooked : Host.Changes (sink.KeptAt h) (fun _ => False) h { h with log } :=
    .of_files_eq rfl rfl rfl rfl
  rw [verifyPayload, runOn_lift_bind, hrun]
  cases r with
  | error e => exact hlooked
  | ok b =>
    have hrecorded := sink.changes_log "verify_payload" (path.spelling :: paths.map Path.spelling) []
      [("verified", .bool b)] { h with log }
    simp only [Sink.runOn_log_bind]
    cases hlog : runOn ((Sink.log "verify_payload" (path.spelling :: paths.map Path.spelling) []
        [("verified", .bool b)]).run sink) { h with log } with
    | mk r h' =>
      rw [hlog] at hrecorded
      cases r <;> exact hlooked.trans hrecorded

/-- Verifying with a started application, where it can be recorded, answers what is found. If it
fails, its input is at fault: the payload cannot be read or breaks its format, or a key cannot be
read or used. The one other failure is that of a payload that is overlong, and there it is certain.
No file changes but that of the ledger. -/
theorem verifyPayload_raises (ha : app.Started) (path : Path) (paths : List Path)
    (hs : sink.CanRecord ((path :: paths).map Path.spelling) h) :
    ∃ r h', runOn ((verifyPayload app.toolkit path paths).run sink) h = (r, h') ∧
      Finding app.toolkit h path paths (r.map Prod.fst) ∧
      (PayloadFile.OverlongAt h path → r = .error (.payload .longNumber)) ∧
      (¬ PayloadFile.OverlongAt h path → ∀ e, r = .error e → e.IsOfInput) ∧
      ∀ place, ¬ sink.KeptAt h place → h'.files.contentAt place = h.files.contentAt place := by
  have hchanges := changes_verifyPayload app.toolkit path paths sink h
  obtain ⟨r, hverify, hfinding⟩ :=
    answers_verifyFile_finding ha.chunk_pos ha.room_for_block h path paths
  have hlong : PayloadFile.OverlongAt h path → r = .error (.payload .longNumber) := by
    rintro ⟨F, l, hr, hl, hlong⟩
    exact hverify.unique (answers_verifyFile_error hr (hl.ofContent_of_overlong hlong path.text))
  cases r with
  | error e =>
    obtain ⟨log, hrun⟩ := verifyPayload_error hverify
    refine ⟨.error e, _, hrun, hfinding, fun hoverlong => ?_, fun hshort e' he' => ?_,
      fun place _ => rfl⟩
    · rw [Except.error.inj (hlong hoverlong)]
    · cases he'
      exact hfinding.isOfInput hshort
  | ok b =>
    obtain ⟨sink', h', hrun⟩ := verifyPayload_returns hverify hs
    rw [hrun] at hchanges
    refine ⟨.ok (b, sink'), h', hrun, hfinding, fun hoverlong => ?_, fun _ e he => ?_,
      fun place hplace => ?_⟩
    · cases hlong hoverlong
    · cases he
    · exact hchanges.contentAt_eq hplace

theorem sample_verifyPayload_raises :
    (∃ h', runOn ((verifyPayload Sample.app.toolkit ⟨false, ["payload"]⟩ []).run .silent)
        (Sample.host (PayloadFile.barePayload (10 ^ Json.maxDigits - 1))) =
          (.error (.payload .longNumber), h')) ∧
      ∃ r h', runOn ((verifyPayload Sample.app.toolkit ⟨false, ["missing"]⟩ []).run .silent)
          (Sample.host []) = (r, h') ∧ ∀ e, r = .error e → e.IsOfInput := by
  constructor
  · have hroom : 0 < 10 ^ Json.maxDigits := Nat.pow_pos (by decide)
    have hl := PayloadFile.barePayload_declaredBy (Nat.sub_lt hroom Nat.one_pos)
    have hlong := PayloadFile.bareLayout_overlong (Nat.sub_lt hroom Nat.one_pos) (by omega)
    obtain ⟨r, h', hrun, -, hoverlong, -⟩ := verifyPayload_raises Sample.app_started
      ⟨false, ["payload"]⟩ [] (Sink.canRecord_silent _
        (Sample.host (PayloadFile.barePayload (10 ^ Json.maxDigits - 1))))
    rw [hoverlong ⟨_, _, rfl, hl, hlong⟩] at hrun
    exact ⟨h', hrun⟩
  · obtain ⟨r, h', hrun, -, -, hshort, -⟩ :=
      verifyPayload_raises Sample.app_started ⟨false, ["missing"]⟩ []
        (Sink.canRecord_silent _ (Sample.host []))
    refine ⟨r, h', hrun, hshort ?_⟩
    rintro ⟨F, l, hr, -⟩
    cases hr

end Sign

end UpdateSeal
