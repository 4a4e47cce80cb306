import UpdateSeal.Proofs.Discards
import UpdateSeal.Proofs.RecordedWork
import UpdateSeal.Proofs.SameKeys
import UpdateSeal.Proofs.Signings
import UpdateSeal.Proofs.Trails

/-!
# Signing again

A signed file is laid out like the payload that was signed, and has room for the signatures that it
has, so with the same keys it is signed to the same hashes and to itself. Where one of the files is
the ledger the record stands behind it, and where it took the place of a key nothing is signed.
-/

namespace UpdateSeal

open UpdateSeal.Action PayloadFile

variable {t : Toolkit} {path path' out out' again p : Path} {keys : List Path}
variable {sink sink' sink₁ : Sink} {ledger : Ledger} {h h' h₁ : Host} {l l' : Layout}
variable {hashes : HashSet} {s b c m F md sig data tail metadata metadata' : Bytes}
variable {M : Option Bytes} {n : ℕ}

/-! ### Files that are kept -/

theorem FileTree.read_of_locate_eq {tree : FileTree} {base : Place}
    (h : tree.locate base p = tree.locate base out) : tree.read base p = tree.read base out := by
  rw [read, read, h]

theorem Action.exists_holds_of_writeAtomically {content : Bytes} (hb : h.Holds p b)
    (hw : runOn (writeAtomically out content) h = (.ok (), h')) : ∃ c, h'.Holds p c := by
  obtain ⟨tree, tree', hgrows, hputs, hrun⟩ := writeAtomically_returns hw
  obtain rfl := (Prod.mk.inj (hw.symm.trans (hrun h.log))).2
  by_cases hplace : tree'.locate h.workingDirectory p = tree'.locate h.workingDirectory out
  · exact ⟨content, (FileTree.read_of_locate_eq hplace).trans hputs.read⟩
  · exact ⟨b, hputs.read_of_ne (hgrows.read hb) hplace⟩

/-- A file that does not stand where the ledger is kept is not the ledger. -/
theorem Sink.spares_of_placeOf_ne (hb : h.Holds p b)
    (hne : ∀ ledger, sink = .audit ledger → h.placeOf p ≠ h.placeOf ledger.path) :
    sink.Spares h p := by
  intro ledger hl hsame
  obtain ⟨place, mode, hplace, -⟩ := FileTree.read_eq_ok_iff.1 hb
  apply hne ledger hl
  rw [Host.placeOf_of_locate hplace, Host.placeOf_of_locate (hsame.symm.trans hplace)]

theorem Sink.spares_silent (h : Host) (p : Path) : Sink.silent.Spares h p := nofun

namespace Sign

variable {operation : String} {texts : List LooseText} {args : Json.Members}

theorem Records.puts (hr : Records operation texts args (.audit ledger) h sink' h') :
    ∃ ledger' content, sink' = .audit ledger' ∧ ledger'.path = ledger.path ∧
      h'.workingDirectory = h.workingDirectory ∧
      h.files.Puts h.workingDirectory ledger.path content h'.files := by
  have hcan := hr.canRecord
  obtain ⟨inputs, outputs, log, e, rfl, hlog⟩ := hr
  have hcan : (Sink.audit ledger).CanRecord (inputs ++ outputs) { h with log } := hcan
  obtain ⟨ledger', e', content, tree, now, hr, hputs, hpath⟩ :=
    Sink.log_audit_returns operation inputs outputs args hcan
  rw [Sink.runOn_log_audit, hr] at hlog
  cases hlog
  exact ⟨ledger', content, rfl, hpath, rfl, hputs⟩

theorem Records.appends (hr : Records operation texts args (.audit ledger) h sink' h')
    (hb : h.Holds ledger.path b) : ∃ line, line ≠ [] ∧ h'.Holds ledger.path (b ++ line) := by
  obtain ⟨_, _, log, e, -, hlog⟩ := hr
  obtain ⟨_, _, ledger', e', -, -, hlog⟩ := Ledger.exists_of_log_audit hlog
  have hb : ({ h with log } : Host).Holds ledger.path b := hb
  exact ⟨_, Ledger.bytes_line_ne_nil e', Ledger.holds_of_log hb hlog⟩

theorem Records.exists_holds (hr : Records operation texts args sink h sink' h')
    (hl : sink' = .audit ledger) : ∃ b, h'.Holds ledger.path b := by
  cases sink with
  | silent =>
    obtain ⟨_, _, log, e, -, hlog⟩ := hr
    cases hlog
    cases hl
  | audit ledger₀ =>
    obtain ⟨ledger', content, hl', hpath, hbase, hputs⟩ := hr.puts
    cases hl.symm.trans hl'
    refine ⟨content, ?_⟩
    rw [hpath, Host.Holds, hbase]
    exact hputs.read

theorem Records.canRecord_again (hr : Records operation texts args sink h sink' h') :
    sink'.CanRecord texts h' := by
  have hcan := hr.canRecord
  obtain ⟨inputs, outputs, log, e, rfl, hlog⟩ := hr
  have hcan : sink.CanRecord (inputs ++ outputs) { h with log } := hcan
  obtain ⟨_, _, _, hlog', hkeep, -⟩ := Sink.log_returns operation inputs outputs args hcan
  cases hlog.symm.trans hlog'
  exact hkeep _ hcan

theorem Records.canRecord_of_writeAtomically {content : Bytes}
    (hr : Records operation texts args sink h sink' h')
    (hw : runOn (writeAtomically out content) h' = (.ok (), h₁)) : sink'.CanRecord texts h₁ := by
  intro ledger hl
  obtain ⟨b, hb⟩ := hr.exists_holds hl
  obtain ⟨c, hc⟩ := exists_holds_of_writeAtomically hb hw
  obtain ⟨-, hstrings⟩ := hr.canRecord_again ledger hl
  exact Sink.canRecord_of_holds hc hstrings ledger rfl

/-- A file keeps its content when a record is made, and has a line behind it if it is the ledger. -/
theorem Records.exists_append (hr : Records operation texts args sink h sink' h') (hb : h.Holds p b) :
    ∃ rest, h'.Holds p (b ++ rest) ∧ (sink'.Spares h' p → rest = []) := by
  by_cases hspare : sink.Spares h p
  · refine ⟨[], ?_, fun _ => rfl⟩
    rw [List.append_nil]
    exact hr.holds hb hspare
  · obtain ⟨ledger, hl⟩ := not_forall.1 hspare
    obtain ⟨rfl, hsame⟩ := Classical.not_imp.1 hl
    have hsame := not_not.1 hsame
    obtain ⟨place, -, hplace, -⟩ := FileTree.read_eq_ok_iff.1 hb
    obtain ⟨ledger', content, rfl, hpath, hbase, hputs⟩ := hr.puts
    have hplace' : h'.locate p = h'.locate ledger.path := by
      rw [Host.locate, Host.locate, hbase, hputs.locate hplace,
        hputs.locate (hsame.symm.trans hplace)]
    obtain ⟨line, -, hline⟩ := hr.appends ((FileTree.read_of_locate_eq hsame.symm).trans hb)
    refine ⟨line, (FileTree.read_of_locate_eq hplace').trans hline, fun hspare' => ?_⟩
    exact absurd (hpath ▸ hplace') (hspare' ledger' rfl)

theorem signPayload_changes
    (hr : runOn ((signPayload t path keys out).run sink) h = (.ok (hashes, sink'), h')) :
    Host.Changes (fun _ => True) (fun _ => True) h h' := by
  obtain ⟨s, h₁, e, hsign, hlog⟩ := runOn_signPayload_eq_ok.1 hr
  have hc := touches_signFile.changes hsign
  have hlogs := sink.changes_log "sign_payload" (path.spelling :: keys.map Path.spelling)
    [out.spelling, hashes.payload.hex, hashes.metadata.hex]
    [("key_count", .int keys.length), ("signature_blob_length", .int s.length)] h₁
  rw [hlog] at hlogs
  exact hc.anywhere.trans hlogs.anywhere

theorem signPayload_keeps
    (hr : runOn ((signPayload t path keys out).run sink) h = (.ok (hashes, sink'), h'))
    (hb : h.Holds p b) (hout : h.placeOf p ≠ h.placeOf out)
    (hledger : ∀ ledger, sink = .audit ledger → h.placeOf p ≠ h.placeOf ledger.path) :
    h'.Holds p b := by
  obtain ⟨s, h₁, e, hsign, hlog⟩ := runOn_signPayload_eq_ok.1 hr
  have hc := touches_signFile.changes hsign
  have hb₁ := hc.holds hb hout
  refine Sink.holds_of_log hlog hb₁ (Sink.spares_of_placeOf_ne hb₁ fun ledger hl => ?_)
  rw [Host.placeOf, Host.placeOf, hc.workingDirectory]
  exact hledger ledger hl

/-- Keys in files of their own load after signing as before. -/
theorem stillLoad_of_signPayload
    (hr : runOn ((signPayload t path keys out).run sink) h = (.ok (hashes, sink'), h'))
    (hapart : ∀ p ∈ keys, h.placeOf p ≠ h.placeOf out ∧
      ∀ ledger, sink = .audit ledger → h.placeOf p ≠ h.placeOf ledger.path) :
    t.keySizes.StillLoad keys h h' := by
  apply KeySizes.stillLoad_of_holds
  intro p hp b hb
  obtain ⟨hout, hledger⟩ := hapart p hp
  exact signPayload_keeps hr hb hout hledger

/-! ### What signing writes -/

/-- A file can be written at `out`, and a record that `path` is signed to it with `keys` after it. -/
def Accepts (sink : Sink) (h : Host) (path : Path) (keys : List Path) (out : Path) : Prop :=
  ∀ content, ∃ h', runOn (writeAtomically out content) h = (.ok (), h') ∧
    sink.CanRecord ((path :: out :: keys).map Path.spelling) h'

theorem signPayload_writes (hmade : Made t h path keys hashes s M) (hr : h.Holds path F)
    (hs : l.Splits F md sig data tail) (htakes : l.Takes s (M.getD []))
    (hb : buildMetadata l.header.major (signedManifest l.manifest data.length s.length)
      (M.getD []).length = .ok metadata) (hw : Accepts sink h path keys out) :
    ∃ sink' h', runOn ((signPayload t path keys out).run sink) h = (.ok (hashes, sink'), h') ∧
      (sink'.Spares h' out → h'.Holds out (metadata ++ M.getD [] ++ data ++ s)) := by
  obtain ⟨h₁, hwrite, hrecord⟩ := hw (metadata ++ M.getD [] ++ data ++ s)
  obtain ⟨l₁, hembed⟩ := returns_embedSignatures hr hs htakes hb hwrite
  obtain ⟨log, hrun⟩ := hembed.runOn
  obtain ⟨sink', h', hsign, hrecords⟩ := signPayload_of_made hmade hrun hrecord
  have hholds : h₁.Holds out (metadata ++ M.getD [] ++ data ++ s) := holds_of_writeAtomically hwrite
  exact ⟨sink', h', hsign, hrecords.holds_of_spares hholds⟩

/-- A payload is signed if its regions have the size that is predicted for the keys. -/
theorem signPayload_returns (hchunk : 0 < t.chunk)
    (hblock : ∀ modulus, t.keySizes.Supports modulus → 62 ≤ Rsa.byteLength modulus)
    (hr : h.Holds path F) (hs : l.Splits F md sig data tail)
    (hn : Answers (Plan.blobLength t keys) h (.ok n))
    (hmetadata : Plan.signedMetadata l n = .ok metadata)
    (hpayload : ∀ r, l.payloadSignatureRegion = .ok (some r) → r.length = n)
    (hregion : ∀ r, l.metadataSignatureRegion = .ok (some r) → r.length = n)
    (hw : Accepts sink h path keys out) :
    ∃ hashes s M sink' h', Made t h path keys hashes s M ∧
      (((M.getD []).length : ℤ) = if l.header.major = 2 then (n : ℤ) else 0) ∧
      runOn ((signPayload t path keys out).run sink) h = (.ok (hashes, sink'), h') ∧
      (sink'.Spares h' out → h'.Holds out (metadata ++ M.getD [] ++ data ++ s)) := by
  obtain ⟨s, M, hmade, hsized⟩ := exists_made hchunk hblock hr hs hn hmetadata
  have hlength := hsized.length_metadata
  obtain rfl := hsized.length_payload
  have htakes := hs.takes hsized.ne_nil hpayload hregion hlength
  rw [Plan.signedMetadata_eq hs, ← hlength] at hmetadata
  obtain ⟨sink', h', hsign, hholds⟩ := signPayload_writes hmade hr hs htakes hmetadata hw
  exact ⟨_, s, M, sink', h', hmade, hlength, hsign, hholds⟩

end Sign

/-! ### Signed files -/

namespace PayloadFile

namespace Embeds

variable {rest : Bytes}

/-- The layout that is read from a signed file with more behind it. -/
theorem splits_append (he : Embeds l l' metadata m data s) (rest : Bytes) :
    Layout.Splits { l' with fileSize := (metadata ++ m ++ data ++ (s ++ rest)).length }
      (metadata ++ m ++ data ++ s ++ rest) metadata m data (s ++ rest) := by
  have hoffset : l'.manifest.signaturesOffset ≠ none := by
    rw [he.manifest_eq]
    exact nofun
  have hsize : ∀ offset n, l'.manifest.signaturesOffset = some offset →
      l'.manifest.signaturesSize = some n → n ≤ (s ++ rest).length := by
    intro offset n _ hn
    rw [he.manifest_eq] at hn
    cases hn
    rw [List.length_append]
    omega
  rw [List.append_assoc _ s]
  exact he.splits.with_tail hoffset hsize

theorem takes (he : Embeds l l' metadata m data s)
    (hcheck : checkMetadataSignature l.header.major m = .ok ()) : l'.Takes s m := by
  constructor
  case check => rwa [he.major_eq]
  case payload =>
    intro r hr
    obtain ⟨r', hr', hplace⟩ := he.splits.payloadSignatureRegion_eq_ok
    obtain ⟨-, -, -, hsize⟩ := hplace r (Except.ok.inj (hr'.symm.trans hr))
    rw [he.manifest_eq] at hsize
    exact (Option.some.inj hsize).symm
  case metadata =>
    intro r hr
    rw [he.splits.metadataSignatureRegion_eq] at hr
    split at hr
    · cases hr
    · cases hr
      rfl

theorem built_again (he : Embeds l l' metadata m data s) :
    buildMetadata l'.header.major (signedManifest l'.manifest data.length s.length) m.length =
      .ok metadata := by
  rw [he.major_eq, he.manifest_eq]
  exact he.metadata_eq

theorem exists_append (he : Embeds l l' metadata m data s)
    (hcheck : checkMetadataSignature l.header.major m = .ok ()) (rest : Bytes) :
    ∃ l₁ : Layout, l₁.Splits (metadata ++ m ++ data ++ s ++ rest) metadata m data (s ++ rest) ∧
      l.Alike l₁ ∧ l₁.Takes s m ∧ buildMetadata l₁.header.major
        (signedManifest l₁.manifest data.length s.length) m.length = .ok metadata := by
  have halike := he.alike
  have htakes := he.takes hcheck
  exact ⟨_, he.splits_append rest, ⟨halike.major_eq, halike.blockSize_eq, halike.minorVersion_eq⟩,
    ⟨htakes.check, htakes.payload, htakes.metadata⟩, he.built_again⟩

end Embeds

/-- Signatures were embedded in a payload, and this is the file. -/
def IsSigned (b : Bytes) : Prop :=
  ∃ l l' metadata m data s, Embeds l l' metadata m data s ∧ b = metadata ++ m ++ data ++ s

/-- No signed file is the beginning of another. -/
theorem IsSigned.eq_nil_of_append {rest : Bytes} (hb : IsSigned b) (hrest : IsSigned (b ++ rest)) :
    rest = [] := by
  obtain ⟨l, l', metadata, m, data, s, he, rfl⟩ := hb
  obtain ⟨l₁, l₁', metadata₁, m₁, data₁, s₁, he₁, hsame⟩ := hrest
  have hs := he.splits_append rest
  have hs₁ := he₁.splits
  rw [hsame] at hs
  -- both ways to take the file apart give the layout that is read from it
  have hlayout := Except.ok.inj ((hs₁.ofContent_eq "").symm.trans (hs.ofContent_eq ""))
  have hdata := he₁.splits.dataOffset_eq
  have hlength := he₁.splits.dataLength_eq
  have hsize := congrArg Manifest.signaturesSize he₁.manifest_eq
  rw [hlayout, hs.dataOffset_eq] at hdata
  rw [hlayout, hs.dataLength_eq] at hlength
  rw [hlayout, he.manifest_eq] at hsize
  have hdata := Except.ok.inj hdata
  have hlength := Except.ok.inj hlength
  have hsize : (s.length : ℤ) = s₁.length := Option.some.inj hsize
  have htotal := congrArg List.length hsame
  simp only [List.length_append] at htotal
  exact List.length_eq_zero_iff.1 (by omega)

end PayloadFile

namespace Sign

/-- Signing writes a signed file, and then a record. -/
theorem isSigned_of_signPayload
    (hr : runOn ((signPayload t path keys out).run sink) h = (.ok (hashes, sink'), h')) :
    ∃ b h₁ args, IsSigned b ∧ h₁.Holds out b ∧
      Records "sign_payload" (signingTexts path keys out hashes) args sink h₁ sink' h' := by
  obtain ⟨s, M, l', h₁, hmade, hembed, hrecord⟩ := exists_of_signPayload hr
  obtain ⟨F, l, md, sig, data, tail, hF, -, hs⟩ := exists_of_embedSignatures hembed
  obtain ⟨metadata, he, hholds⟩ := exists_embeds hF hs hembed
  exact ⟨_, h₁, _, ⟨l, l', metadata, _, data, s, he, rfl⟩, hholds, hrecord⟩

/-! ### Signing what was signed -/

/-- A file that was signed is signed to the same hashes with the same keys, and to itself unless the
ledger is written. -/
theorem signPayload_again (hchunk : 0 < t.chunk)
    (hr : runOn ((signPayload t path keys out).run sink) h = (.ok (hashes, sink₁), h₁))
    (hkeys : t.keySizes.StillLoad keys h h₁)
    (hw : ∀ content, ∃ h₂, runOn (writeAtomically again content) h₁ = (.ok (), h₂))
    (hspells : sink₁.Spells [again]) :
    ∃ sink₂ h₂,
      runOn ((signPayload t out keys again).run sink₁) h₁ = (.ok (hashes, sink₂), h₂) ∧
      (sink₁.Spares h₁ out → sink₂.Spares h₂ again →
        ∃ b, h₁.Holds out b ∧ h₂.Holds out b ∧ h₂.Holds again b) := by
  obtain ⟨s, M, l', h₀, hmade, hembed, hrecord⟩ := exists_of_signPayload hr
  obtain ⟨F, l, md, sig, data, tail, hF, hl, hs⟩ := exists_of_embedSignatures hembed
  obtain ⟨reserved, hreserved, -⟩ := hs.payloadSignatureRegion_eq_ok
  obtain ⟨hcheck, -⟩ := (embedSignatures_eq_ok_iff hF hl hs hreserved).1 hembed
  obtain ⟨metadata, he, hholds⟩ := exists_embeds hF hs hembed
  obtain ⟨rest, hb, hrest⟩ := hrecord.exists_append hholds
  obtain ⟨l₁, hs', halike, htakes, hbuilt⟩ := he.exists_append hcheck rest
  have hmade' := hmade.congr hchunk hkeys halike hF hs hb hs'
  have hnames : out :: again :: keys ⊆ path :: out :: keys ++ [again] := by
    grind
  have haccepts : Accepts sink₁ h₁ out keys again := by
    intro content
    obtain ⟨h₂, hwrite⟩ := hw content
    have hrecord' : sink₁.CanRecord ((path :: out :: keys).map Path.spelling) h₂ :=
      canRecord_signingTexts_iff.1 (hrecord.canRecord_of_writeAtomically hwrite)
    have hboth := Sink.canRecord_append_iff.2 ⟨hrecord', hspells⟩
    rw [← List.map_append] at hboth
    exact ⟨h₂, hwrite, hboth.mono (List.map_subset _ hnames)⟩
  obtain ⟨sink₂, h₂, hr₂, hagain⟩ := signPayload_writes hmade' hb hs' htakes hbuilt
    haccepts
  refine ⟨sink₂, h₂, hr₂, fun hspare hspare' => ?_⟩
  obtain rfl := hrest hspare
  rw [List.append_nil] at hb
  refine ⟨_, hb, ?_, hagain hspare'⟩
  -- the file that is read again is the one that is written again, or is kept
  by_cases hplace : h₁.placeOf out = h₁.placeOf again
  · have hc := signPayload_changes hr₂
    obtain ⟨place, -, hout, -⟩ := FileTree.read_eq_ok_iff.1 hb
    obtain ⟨place', -, hout', -⟩ := FileTree.read_eq_ok_iff.1 (hagain hspare')
    refine (FileTree.read_of_locate_eq ?_).trans (hagain hspare')
    refine (Host.locate_eq_iff (hc.locate hout) hout').2 ?_
    rw [Host.placeOf, Host.placeOf, hc.workingDirectory]
    exact hplace
  · refine signPayload_keeps hr₂ hb hplace fun ledger hl hsame => ?_
    obtain ⟨c, hledger⟩ := hrecord.exists_holds hl
    obtain ⟨_, -, hout, -⟩ := FileTree.read_eq_ok_iff.1 hb
    obtain ⟨_, -, hplaced, -⟩ := FileTree.read_eq_ok_iff.1 hledger
    exact hspare ledger hl ((Host.locate_eq_iff hout hplaced).2 hsame)

end Sign

/-! ### Where a file is the ledger or a key -/

namespace Sign

/-- The file at `path` is signed with these hashes to a file like it. -/
def SignedAgain (t : Toolkit) (keys : List Path) (path out : Path) (hashes : HashSet) (sink : Sink)
    (h : Host) : Prop :=
  ∃ b sink' h', h.Holds path b ∧
    runOn ((signPayload t path keys out).run sink) h = (.ok (hashes, sink'), h') ∧ h'.Holds out b

variable {hashes' : HashSet}

theorem signPayload_ledger
    (hr : runOn ((signPayload t path keys out).run (.audit ledger)) h = (.ok (hashes, sink'), h')) :
    ∃ ledger', sink' = .audit ledger' ∧ ledger'.path = ledger.path := by
  obtain ⟨b, h₁, args, -, -, hrecord⟩ := isSigned_of_signPayload hr
  obtain ⟨ledger', content, hl, hpath, -⟩ := hrecord.puts
  exact ⟨ledger', hl, hpath⟩

theorem signPayload_silent
    (hr : runOn ((signPayload t path keys out).run .silent) h = (.ok (hashes, sink'), h')) :
    sink' = .silent := by
  obtain ⟨b, h₁, args, -, -, _, _, log, e, -, hlog⟩ := isSigned_of_signPayload hr
  cases hlog
  rfl

theorem isSigned_of_spares
    (hr : runOn ((signPayload t path keys out).run sink) h = (.ok (hashes, sink'), h'))
    (hb : h'.Holds out b) (hspare : sink'.Spares h' out) : IsSigned b := by
  obtain ⟨b₀, h₁, args, hsigned, hholds, hrecord⟩ := isSigned_of_signPayload hr
  obtain rfl := Except.ok.inj (hb.symm.trans (hrecord.holds_of_spares hholds hspare))
  exact hsigned

/-- What is signed into the ledger has its record behind it. -/
theorem not_isSigned_of_ledger
    (hr : runOn ((signPayload t path keys ledger.path).run (.audit ledger)) h =
      (.ok (hashes, sink'), h')) (hb : h'.Holds ledger.path b) : ¬ IsSigned b := by
  obtain ⟨b₀, h₁, args, hsigned, hholds, hrecord⟩ := isSigned_of_signPayload hr
  obtain ⟨line, hne, hline⟩ := hrecord.appends hholds
  obtain rfl := Except.ok.inj (hb.symm.trans hline)
  exact fun hb => hne (hsigned.eq_nil_of_append hb)

theorem spares_of_signPayload
    (hr : runOn ((signPayload t path keys out).run (.audit ledger)) h = (.ok (hashes, sink'), h'))
    (hb : h'.Holds p b) (hapart : h.placeOf p ≠ h.placeOf ledger.path) : sink'.Spares h' p := by
  obtain ⟨ledger', rfl, hpath⟩ := signPayload_ledger hr
  refine Sink.spares_of_placeOf_ne hb fun ledger₁ hl => ?_
  cases hl
  rw [hpath, Host.placeOf, Host.placeOf, (signPayload_changes hr).workingDirectory]
  exact hapart

theorem not_signedAgain_of_ledger
    (hr : runOn ((signPayload t path keys ledger.path).run (.audit ledger)) h =
      (.ok (hashes, sink₁), h₁)) (hapart : h.placeOf again ≠ h.placeOf ledger.path) :
    ¬ SignedAgain t keys ledger.path again hashes' sink₁ h₁ := by
  intro hagain
  obtain ⟨b, sink₂, h₂, hb, hr₂, hagain⟩ := hagain
  obtain ⟨ledger₁, rfl, hpath⟩ := signPayload_ledger hr
  refine not_isSigned_of_ledger hr hb (isSigned_of_spares hr₂ hagain ?_)
  apply spares_of_signPayload hr₂ hagain
  rw [hpath, Host.placeOf, Host.placeOf, (signPayload_changes hr).workingDirectory]
  exact hapart

theorem not_signedAgain_into_ledger
    (hr : runOn ((signPayload t path keys out).run (.audit ledger)) h = (.ok (hashes, sink₁), h₁))
    (hapart : h.placeOf out ≠ h.placeOf ledger.path) :
    ¬ SignedAgain t keys out ledger.path hashes' sink₁ h₁ := by
  intro hagain
  obtain ⟨b, sink₂, h₂, hb, hr₂, hagain⟩ := hagain
  have hsigned := isSigned_of_spares hr hb (spares_of_signPayload hr hb hapart)
  obtain ⟨ledger₁, rfl, hpath⟩ := signPayload_ledger hr
  rw [← hpath] at hr₂ hagain
  exact not_isSigned_of_ledger hr₂ hagain hsigned

theorem not_holds_of_ledger
    (hr : runOn ((signPayload t path keys out).run (.audit ledger)) h = (.ok (hashes, sink'), h'))
    (hb : h.Holds ledger.path b) (hapart : h.placeOf ledger.path ≠ h.placeOf out) :
    ¬ h'.Holds ledger.path b := by
  intro hb'
  obtain ⟨s, h₁, e, hsign, hlog⟩ := runOn_signPayload_eq_ok.1 hr
  obtain ⟨_, _, ledger', e', -, -, hlog⟩ := Ledger.exists_of_log_audit hlog
  have hline := Ledger.holds_of_log ((touches_signFile.changes hsign).holds hb hapart) hlog
  exact Ledger.bytes_line_ne_nil e' (List.self_eq_append_right.1 (Except.ok.inj (hb'.symm.trans hline)))

/-- With a ledger nothing is signed to a name that cannot be recorded. -/
theorem not_signedAgain_unspelled
    (hr : runOn ((signPayload t path keys out).run (.audit ledger)) h = (.ok (hashes, sink₁), h₁))
    (hname : ¬ again.spelling.isString) : ¬ SignedAgain t keys out again hashes' sink₁ h₁ := by
  intro hagain
  obtain ⟨b, sink₂, h₂, -, hr₂, -⟩ := hagain
  obtain ⟨ledger₁, rfl, -⟩ := signPayload_ledger hr
  exact hname (spells_of_signPayload hr₂ ledger₁ rfl again (by simp))

theorem not_signedAgain_of_key (hp : p ∈ keys)
    (hk : ∀ secret, ¬ t.keySizes.PrivateAt h₁ p secret) :
    ¬ SignedAgain t keys out again hashes' sink₁ h₁ := by
  intro hagain
  obtain ⟨b, sink₂, h₂, hb, hr₂, hagain⟩ := hagain
  obtain ⟨s, M, l', h₀, hmade, -⟩ := exists_of_signPayload hr₂
  obtain ⟨entries, -, -, hentries⟩ := made_of_signDigest hmade.payload
  obtain ⟨s, -, secret, block, hsecret, -⟩ := exists_madeBy hentries hp
  exact hk secret hsecret

end Sign

end UpdateSeal
