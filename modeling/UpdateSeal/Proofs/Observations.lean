import UpdateSeal.Proofs.Embeddings
import UpdateSeal.Proofs.Predictions

/-!
# Actions that only look

Reading files, hashing payloads and signing digests change nothing but the log, and what was logged
does not change their answers. So one run of such an action tells how it answers on the same files
at any time. Embedding signatures does write a file, but what was logged makes no difference to it.
-/

namespace UpdateSeal

namespace Action

variable {α β : Type} {x : Action α} {f : α → Action β} {h h' : Host}

def Observes (x : Action α) : Prop := ∀ h, ∃ r, Answers x h r

theorem Observes.answers (hx : Observes x) {r : Except Failure α} (hr : runOn x h = (r, h')) :
    Answers x h r ∧ ∃ log, h' = { h with log } := by
  obtain ⟨r', ha⟩ := hx h
  obtain rfl := ha.eq_of_runOn hr
  obtain ⟨log, hlog⟩ := ha.runOn
  exact ⟨ha, log, (Prod.mk.inj (hr.symm.trans hlog)).2⟩

theorem observes_pure (a : α) : Observes (pure a) := fun h => ⟨_, answers_pure a h⟩

theorem observes_throw (e : Failure) : Observes (throw e : Action α) :=
  fun h => ⟨_, answers_throw e h⟩

theorem observes_liftExcept {ε : Type} (wrap : ε → Failure) (r : Except ε α) :
    Observes (liftExcept wrap r) := fun h => ⟨_, answers_liftExcept wrap r h⟩

theorem observes_read (p : Path) : Observes (read p) := by
  intro h
  cases hr : h.files.read h.workingDirectory p with
  | error reason => exact ⟨_, answers_read_error hr⟩
  | ok b => exact ⟨_, answers_read hr⟩

theorem Observes.bind (hx : Observes x) (hf : ∀ a, Observes (f a)) : Observes (x >>= f) := by
  intro h
  obtain ⟨r, hr⟩ := hx h
  cases r with
  | error e => exact ⟨_, hr.bind_error⟩
  | ok a =>
    obtain ⟨r', hr'⟩ := hf a h
    exact ⟨r', hr.bind hr'⟩

theorem Observes.tryCatch {handle : Failure → Action α} (hx : Observes x)
    (hhandle : ∀ e, Observes (handle e)) : Observes (tryCatch x handle) := by
  intro h
  obtain ⟨r, hr⟩ := hx h
  cases r with
  | ok a => exact ⟨_, hr.tryCatch_ok⟩
  | error e =>
    obtain ⟨r', hr'⟩ := hhandle e h
    exact ⟨r', hr.tryCatch_error hr'⟩

theorem Observes.mapM (hf : ∀ a, Observes (f a)) (as : List α) : Observes (as.mapM f) := by
  induction as with
  | nil => exact observes_pure []
  | cons a as ih =>
    rw [List.mapM_cons]
    exact (hf a).bind fun b => ih.bind fun bs => observes_pure (b :: bs)

/-! ### The parts of a run -/

theorem Observes.runOn_bind (hx : Observes x) {b : β} (hb : runOn (x >>= f) h = (.ok b, h')) :
    ∃ a log, Answers x h (.ok a) ∧ runOn (f a) { h with log } = (.ok b, h') := by
  obtain ⟨a, h₁, ha, hb⟩ := runOn_bind_eq_ok.1 hb
  obtain ⟨hanswers, log, rfl⟩ := hx.answers ha
  exact ⟨a, log, hanswers, hb⟩

theorem forall₂_of_mapM (hf : ∀ a, Observes (f a)) {as : List α} {bs : List β}
    (hm : runOn (as.mapM f) h = (.ok bs, h')) :
    List.Forall₂ (fun a b => Answers (f a) h (.ok b)) as bs := by
  induction as generalizing h bs with
  | nil =>
    cases hm
    exact .nil
  | cons a as ih =>
    rw [List.mapM_cons] at hm
    obtain ⟨b, log, hb, hm⟩ := (hf a).runOn_bind hm
    obtain ⟨bs, h₁, hbs, hm⟩ := runOn_bind_eq_ok.1 hm
    cases hm
    have hrest := ih hbs
    exact .cons hb hrest

theorem answers_mapM_of_imp (hf : ∀ a, Observes (f a)) {as : List α} {bs : List β}
    (hm : Answers (as.mapM f) h (.ok bs))
    (himp : ∀ a ∈ as, ∀ b, Answers (f a) h (.ok b) → Answers (f a) h' (.ok b)) :
    Answers (as.mapM f) h' (.ok bs) := by
  obtain ⟨log, hrun⟩ := hm.runOn
  have hall := (List.forall₂_and_left (p := (· ∈ as)) as bs).2
    ⟨fun _ ha => ha, forall₂_of_mapM hf hrun⟩
  exact answers_mapM (hall.imp fun a b hab => himp a hab.1 b hab.2)

theorem exists_of_mapM_error (hf : ∀ a, Observes (f a)) {as : List α} {e : Failure}
    (hm : Answers (as.mapM f) h (.error e)) : ∃ a ∈ as, Answers (f a) h (.error e) := by
  induction as with
  | nil => cases (answers_pure [] h).unique hm
  | cons a as ih =>
    rw [List.mapM_cons] at hm
    obtain ⟨r, ha⟩ := hf a h
    cases r with
    | error e' =>
      cases ha.bind_error.unique hm
      exact ⟨a, List.mem_cons_self, ha⟩
    | ok b =>
      obtain ⟨rest, hrest⟩ := Observes.mapM hf as h
      cases rest with
      | error e' =>
        cases (ha.bind hrest.bind_error).unique hm
        obtain ⟨a', hmem, ha'⟩ := ih hrest
        exact ⟨a', List.mem_cons_of_mem _ hmem, ha'⟩
      | ok bs => cases (ha.bind (hrest.bind (answers_pure (b :: bs) h))).unique hm

end Action

open UpdateSeal.Action

variable {t : Toolkit} {h h' : Host} {path out p : Path} {keys : List Path} {F digest blob : Bytes}

namespace PayloadFile

variable {l l' : Layout}

theorem observes_readContent (path : Path) : Observes (readContent path) :=
  (observes_read path).tryCatch fun e => by
    split
    · exact observes_throw _
    · exact observes_throw _

theorem observes_readLayout (path : Path) : Observes (readLayout path) :=
  (observes_readContent path).bind fun _ => observes_liftExcept _ _

theorem answers_readLayout_error {reason : StorageReason}
    (hr : h.files.read h.workingDirectory path = .error reason) :
    Answers (readLayout path) h
      (.error (.source (.unreadablePayload path ⟨reason, some path⟩))) := by
  have hread : Answers (readContent path) h
      (.error (.source (.unreadablePayload path ⟨reason, some path⟩))) :=
    (answers_read_error hr).tryCatch_error (answers_throw _ h)
  exact hread.bind_error

theorem exists_of_readLayout (hl : Answers (readLayout path) h (.ok l)) :
    ∃ F, h.Holds path F ∧ Layout.ofContent path.text F = .ok l := by
  cases hr : h.files.read h.workingDirectory path with
  | error reason => cases (answers_readLayout_error hr).unique hl
  | ok F => exact ⟨F, hr, mapError_eq_ok_iff.1 ((answers_readLayout hr).unique hl)⟩

theorem some_of_embedSignatures {S M : Option Bytes}
    (hw : runOn (embedSignatures path S M out) h = (.ok l', h')) : ∃ s, S = some s := by
  cases S with
  | some s => exact ⟨s, rfl⟩
  | none =>
    obtain ⟨l, h₁, -, hw⟩ := runOn_bind_eq_ok.1 hw
    simp only [runOn_liftExcept_bind_eq_ok] at hw
    obtain ⟨_, -, _, -, _, -, _, -, _, -, _, -, _, -, hw⟩ := hw
    obtain ⟨_, h₂, -, hw⟩ := runOn_bind_eq_ok.1 hw
    cases hw

/-- Embedding that succeeded read a payload, with its parts in place, and wrote its output from
them. -/
theorem exists_of_embedSignatures {s : Bytes} {M : Option Bytes}
    (hw : runOn (embedSignatures path (some s) M out) h = (.ok l', h')) :
    ∃ F l md sig data tail, h.Holds path F ∧ Layout.ofContent path.text F = .ok l ∧
      l.Splits F md sig data tail := by
  obtain ⟨l, h₁, hlayout, -⟩ := runOn_bind_eq_ok.1 hw
  obtain ⟨F, hr, hl⟩ := exists_of_readLayout ((observes_readLayout path).answers hlayout).1
  obtain ⟨md, sig, data, tail, hs⟩ := Layout.splits_of_ofContent hl
  exact ⟨F, l, md, sig, data, tail, hr, hl, hs⟩

theorem returns_of_embedSignatures {s : Bytes} {M : Option Bytes}
    (hw : runOn (embedSignatures path (some s) M out) h = (.ok l', h')) :
    Returns (embedSignatures path (some s) M out) h l' h' := by
  obtain ⟨F, l, md, sig, data, tail, hr, hl, hs⟩ := exists_of_embedSignatures hw
  obtain ⟨reserved, hreserved, -⟩ := hs.payloadSignatureRegion_eq_ok
  obtain ⟨hcheck, hpayload, hmetadata, hw⟩ := (embedSignatures_eq_ok_iff hr hl hs hreserved).1 hw
  intro log
  obtain ⟨log', hwrite⟩ := returns_of_writeParts hw log
  have hr' : ({ h with log } : Host).Holds path F := hr
  exact ⟨log', (embedSignatures_eq_ok_iff hr' hl hs hreserved).2
    ⟨hcheck, hpayload, hmetadata, hwrite⟩⟩

/-- Whatever the lengths of the parts are, the output holds the data between the signatures. -/
theorem exists_embeds {l : Layout} {md sig data tail s : Bytes} {M : Option Bytes}
    (hr : h.Holds path F) (hs : l.Splits F md sig data tail)
    (hw : runOn (embedSignatures path (some s) M out) h = (.ok l', h')) :
    ∃ metadata, Embeds l l' metadata (M.getD []) data s ∧
      h'.Holds out (metadata ++ M.getD [] ++ data ++ s) := by
  obtain ⟨reserved, hreserved, -⟩ := hs.payloadSignatureRegion_eq_ok
  obtain ⟨-, -, -, hw⟩ := (embedSignatures_eq_ok_iff hr (hs.ofContent_eq _) hs hreserved).1 hw
  have hd : (signedManifest l.manifest data.length s.length).Describes data s := .signed rfl rfl
  have hpos : 0 < (signedManifest l.manifest data.length s.length).blockSize := hs.manifest_valid.pos
  have hminor : 0 ≤ (signedManifest l.manifest data.length s.length).minorVersion :=
    hs.manifest_valid.minorVersion.1
  obtain ⟨metadata, hb, hmajor, hmanifest, hs', hholds⟩ := splits_of_writeParts hpos hminor hd hw
  exact ⟨metadata, ⟨hb, hmajor, hmanifest, hs'⟩, hholds⟩

theorem holds_of_embedSignatures {s : Bytes} {M : Option Bytes}
    (hw : runOn (embedSignatures path (some s) M out) h = (.ok l', h')) : ∃ b, h'.Holds out b := by
  obtain ⟨F, l, md, sig, data, tail, hr, -, hs⟩ := exists_of_embedSignatures hw
  obtain ⟨metadata, -, hholds⟩ := exists_embeds hr hs hw
  exact ⟨_, hholds⟩

end PayloadFile

namespace Plan

theorem observes_digestFile (path : Path) (regions : List Region) (lead : Bytes) (chunk : Int) :
    Observes (digestFile path regions lead chunk) :=
  ((observes_read path).tryCatch fun e => by
    split
    · exact observes_throw _
    · exact observes_throw _).bind fun _ => observes_liftExcept _ _

theorem observes_hashRegions (t : Toolkit) (path : Path) (l : Layout) (metadata : Bytes) :
    Observes (hashRegions t path l metadata) :=
  (observes_liftExcept _ _).bind fun _ => (observes_liftExcept _ _).bind fun _ =>
    (observes_digestFile _ _ _ _).bind fun _ => observes_liftExcept _ _

theorem observes_hashForSigning (t : Toolkit) (path : Path) (sizes : List Int) :
    Observes (hashForSigning t path sizes) :=
  (observes_liftExcept _ _).bind fun _ => (PayloadFile.observes_readLayout path).bind fun _ =>
    (observes_liftExcept _ _).bind fun _ => observes_hashRegions _ _ _ _

end Plan

theorem KeySizes.observes_loadPrivate (s : KeySizes) (p : Path) : Observes (s.loadPrivate p) :=
  ((observes_read p).tryCatch fun e => by
    split
    · exact observes_throw _
    · exact observes_throw _).bind fun _ => observes_liftExcept _ _

theorem Plan.observes_signatureSizes (t : Toolkit) (keys : List Path) :
    Observes (signatureSizes t keys) :=
  .mapM (fun p => (t.keySizes.observes_loadPrivate p).bind fun _ => observes_pure _) keys

namespace Sign

variable {s : Signature}

theorem observes_signWith (t : Toolkit) (digest : Bytes) (p : Path) :
    Observes (signWith t digest p) :=
  (t.keySizes.observes_loadPrivate p).bind fun _ => (observes_liftExcept _ _).bind fun _ =>
    (observes_liftExcept _ _).bind fun _ => observes_pure _

theorem signDigest_eq (t : Toolkit) (digest : Bytes) (keys : List Path) :
    signDigest t digest keys =
      if digest.length ≠ digestSize then throw (.value (.digestLength digest.length))
      else if keys.isEmpty then throw (.value .noKeys)
      else keys.mapM (signWith t digest) >>= fun entries => pure (Container.encode entries) := by
  unfold signDigest
  split
  · rfl
  · split
    · rfl
    · rfl

theorem observes_signDigest (t : Toolkit) (digest : Bytes) (keys : List Path) :
    Observes (signDigest t digest keys) := by
  rw [signDigest_eq]
  split
  · exact observes_throw _
  · split
    · exact observes_throw _
    · exact (Observes.mapM (observes_signWith t digest) keys).bind fun _ => observes_pure _

theorem madeBy_of_signWith (hs : Answers (signWith t digest p) h (.ok s)) :
    MadeBy t h digest p s := by
  obtain ⟨log, hs⟩ := hs.runOn
  obtain ⟨key, log, hkey, hs⟩ := (t.keySizes.observes_loadPrivate p).runOn_bind hs
  obtain ⟨block, hblock, hs⟩ := runOn_liftExcept_bind_eq_ok.1 hs
  obtain ⟨data, hdata, hs⟩ := runOn_liftExcept_bind_eq_ok.1 hs
  obtain ⟨file, secret, -, -, hsupports, rfl⟩ := KeySizes.loadPrivate_answers_iff.1 hkey
  have hsign := KeySizes.sign_eq (p := p) hsupports hblock
  obtain rfl := Except.ok.inj (hsign.symm.trans hdata)
  cases hs
  exact ⟨secret, block, hkey, hblock, rfl⟩

theorem answers_signWith_iff : Answers (signWith t digest p) h (.ok s) ↔ MadeBy t h digest p s := by
  refine ⟨madeBy_of_signWith, fun hs => ?_⟩
  obtain ⟨secret, block, hk, hblock, rfl⟩ := hs
  have hsign := KeySizes.sign_eq (p := p) hk.supports hblock
  exact Answers.bind hk ((answers_liftExcept_ok hblock h).bind
    ((answers_liftExcept_ok hsign h).bind (answers_pure _ h)))

theorem made_of_signDigest (hs : Answers (signDigest t digest keys) h (.ok blob)) :
    ∃ entries, blob = Container.encode entries ∧ entries ≠ [] ∧
      List.Forall₂ (MadeBy t h digest) keys entries := by
  obtain ⟨log, hs⟩ := hs.runOn
  rw [signDigest_eq] at hs
  split at hs
  · cases hs
  · split at hs
    · cases hs
    · next hne =>
      obtain ⟨entries, h₁, hentries, hs⟩ := runOn_bind_eq_ok.1 hs
      cases hs
      have hmade := (forall₂_of_mapM (observes_signWith t digest) hentries).imp
        fun _ _ => madeBy_of_signWith
      refine ⟨entries, rfl, ?_, hmade⟩
      rintro rfl
      cases hmade
      exact hne rfl

end Sign

end UpdateSeal
