import UpdateSeal.Proofs.Appending
import UpdateSeal.Proofs.Operations
import UpdateSeal.Proofs.Plans

/-!
# Lifecycles of payloads

A payload is written, with room for signatures or without, and signatures are embedded in it any
number of times. At every time its file consists of metadata, metadata signature, data and payload
signature, with the data it was written with and the signatures that were last embedded, and it is
laid out as the assembler returned. Once it has a payload signature its layout stays as it is.
-/

namespace UpdateSeal

open UpdateSeal.Action PayloadFile

/-- What the assembler wrote: where, with which signatures, and the layout it returned. -/
structure Write where
  path : Path
  layout : Layout
  metadataSignature : Bytes
  payloadSignature : Bytes

namespace Sign

/-- What signing has the assembler write on `h`. -/
def Assembles (t : Toolkit) (path : Path) (keys : List Path) (out : Path) (h : Host) (y : Write) :
    Prop :=
  ∃ hashes s M l' h', Made t h path keys hashes s M ∧
    runOn (embedSignatures path (some s) M out) h = (.ok l', h') ∧ y = ⟨out, l', M.getD [], s⟩

end Sign

/-- One of the calls that embed signatures. -/
inductive Call
  | embed (payloadSignature metadataSignature : Option Bytes)
  | sign (keys : List Path)
  | add (payloadSignature metadataSignature : Option Bytes)

namespace Call

/-- The call returned, and `y` is what the assembler wrote. -/
def Writes (t : Toolkit) (path out : Path) (sink : Sink) (h : Host) (y : Write) (sink' : Sink)
    (h' : Host) : Call → Prop
  | embed s M => sink' = sink ∧ ∃ l', runOn (embedSignatures path s M out) h = (.ok l', h') ∧
      y = ⟨out, l', M.getD [], s.getD []⟩
  | sign keys => Sign.Assembles t path keys out h y ∧
      ∃ hashes, runOn ((Sign.signPayload t path keys out).run sink) h = (.ok (hashes, sink'), h')
  | add s M => ∃ l', runOn ((Sign.addSignatures path s M out).run sink) h = (.ok (l', sink'), h') ∧
      y = ⟨out, l', M.getD [], s.getD []⟩

def IsRecorded : Call → Prop
  | embed .. => False
  | sign .. | add .. => True

/-- Where signing returns, it had the assembler write. -/
theorem exists_writes_of_signPayload {t : Toolkit} {path out : Path} {keys : List Path}
    {hashes : HashSet} {sink sink' : Sink} {h h' : Host}
    (hr : runOn ((Sign.signPayload t path keys out).run sink) h = (.ok (hashes, sink'), h')) :
    ∃ y, (sign keys).Writes t path out sink h y sink' h' := by
  obtain ⟨s, M, l', h₁, hmade, hembed, -⟩ := Sign.exists_of_signPayload hr
  exact ⟨_, ⟨_, s, M, l', h₁, hmade, hembed, rfl⟩, hashes, hr⟩

end Call

/-- What was written in the life of a payload, the latest first, and a host on which this has just
been done. Each call reads a file with the content that was written before it, and a call that is
recorded does not write to the ledger. -/
inductive Lifecycle (t : Toolkit) (w : PayloadWriter) (data : Bytes) (major reserved : Option Int) :
    List Write → Host → Prop
  | write {path : Path} {l : Layout} {h h' : Host} {zeros : Bytes}
      (hzeros : zeros = List.replicate (reserved.getD 0).toNat 0)
      (hwrite : runOn (writePayload w path data major reserved) h = (.ok l, h')) :
      Lifecycle t w data major reserved
        [⟨path, l, if major.getD w.major = 2 then zeros else [], zeros⟩] h'
  | call {x y : Write} {done : List Write} {c : Call} {path out : Path} {b : Bytes}
      {sink sink' : Sink} {h h₁ h' : Host} (hlife : Lifecycle t w data major reserved (x :: done) h)
      (hwritten : h.Holds x.path b) (hread : h₁.Holds path b)
      (hcall : c.Writes t path out sink h₁ y sink' h')
      (hspare : c.IsRecorded → sink'.Spares h' out) :
      Lifecycle t w data major reserved (y :: x :: done) h'

variable {t : Toolkit} {w : PayloadWriter} {data metadata s b : Bytes} {major reserved : Option Int}
variable {path out : Path} {sink sink' : Sink} {h h' : Host} {l' : Layout} {M : Option Bytes}
variable {x y : Write} {done : List Write} {c : Call}

/-! ### The file that was written -/

namespace Write

def content (x : Write) (metadata data : Bytes) : Bytes :=
  metadata ++ x.metadataSignature ++ data ++ x.payloadSignature

/-- What was written is metadata, data and signatures as the layout says that was returned. -/
structure Assembled (w : PayloadWriter) (major : Int) (data : Bytes) (x : Write)
    (metadata : Bytes) : Prop where
  built : buildMetadata x.layout.header.major x.layout.manifest x.metadataSignature.length =
    .ok metadata
  splits : x.layout.Splits (x.content metadata data) metadata x.metadataSignature data
    x.payloadSignature
  described : x.layout.manifest.Describes data x.payloadSignature
  major_eq : x.layout.header.major = major
  blockSize_eq : x.layout.manifest.blockSize = w.blockSize
  minorVersion_eq : x.layout.manifest.minorVersion = w.minorVersion
  signed : major = 2 → x.payloadSignature ≠ [] → x.metadataSignature ≠ []

end Write

namespace PayloadFile

theorem newManifest_eq_ok {m : Manifest} (h : newManifest w = .ok m) :
    m = ⟨w.blockSize, w.minorVersion, none, none⟩ ∧ 0 < w.blockSize ∧ 0 ≤ w.minorVersion := by
  obtain ⟨hall, -⟩ := Validation.Checked.unless_eq_ok_iff.1 (mapError_eq_ok_iff.1 h)
  obtain ⟨⟨⟨block, minor⟩, offset, size⟩, hand, rfl⟩ := map_eq_ok_iff.1 hall
  obtain ⟨hfirst, hlast⟩ := Validation.Checked.and_eq_ok_iff.1 hand
  obtain ⟨hblock, hminor⟩ := Validation.Checked.and_eq_ok_iff.1 hfirst
  obtain ⟨hoffset, hsize⟩ := Validation.Checked.and_eq_ok_iff.1 hlast
  obtain ⟨hb, hpos⟩ :=
    Validation.integerAbove_eq_ok_iff.1 (Validation.Checked.at_eq_ok_iff.1 hblock)
  obtain ⟨hm, hnonneg⟩ :=
    Validation.integerFrom_eq_ok_iff.1 (Validation.Checked.at_eq_ok_iff.1 hminor)
  cases hb
  cases hm
  cases hoffset
  cases hsize
  exact ⟨rfl, hpos, hnonneg⟩

end PayloadFile

namespace Write

variable {manifest : Manifest} {m : Int} {metadata' : Bytes}

theorem assembled_of_writeParts (hpos : 0 < manifest.blockSize) (hminor : 0 ≤ manifest.minorVersion)
    (hd : manifest.Describes data s) (hb : manifest.blockSize = w.blockSize)
    (hv : manifest.minorVersion = w.minorVersion) (hsigned : m = 2 → s ≠ [] → b ≠ [])
    (hw : runOn (writeParts out m manifest b data s) h = (.ok l', h')) :
    ∃ metadata, Assembled w m data ⟨out, l', b, s⟩ metadata ∧
      h'.Holds out (content ⟨out, l', b, s⟩ metadata data) := by
  obtain ⟨metadata, hbuilt, hmajor, hmanifest, hs, hholds⟩ :=
    splits_of_writeParts hpos hminor hd hw
  refine ⟨metadata, ?_, hholds⟩
  rw [← hmajor, ← hmanifest] at hbuilt
  rw [← hmanifest] at hd hb hv
  exact ⟨hbuilt, hs, hd, hmajor, hb, hv, hsigned⟩

theorem assembled_of_writePayload {zeros : Bytes}
    (hzeros : zeros = List.replicate (reserved.getD 0).toNat 0)
    (hw : runOn (writePayload w path data major reserved) h = (.ok l', h')) :
    ∃ metadata, Assembled w (major.getD w.major) data
        ⟨path, l', if major.getD w.major = 2 then zeros else [], zeros⟩ metadata ∧
      h'.Holds path
        (content ⟨path, l', if major.getD w.major = 2 then zeros else [], zeros⟩ metadata data) := by
  obtain ⟨_, -, hw⟩ := runOn_liftExcept_bind_eq_ok.1 hw
  obtain ⟨manifest, hm, hw⟩ := runOn_liftExcept_bind_eq_ok.1 hw
  obtain ⟨rfl, hpos, hminor⟩ := newManifest_eq_ok hm
  by_cases h0 : reserved.getD 0 = 0
  · obtain rfl : zeros = [] := by rw [hzeros, h0, Int.toNat_zero, List.replicate_zero]
    rw [if_pos h0] at hw
    rw [ite_self]
    have hd : Manifest.Describes ⟨w.blockSize, w.minorVersion, none, none⟩ data [] :=
      .unsigned rfl rfl rfl
    exact assembled_of_writeParts hpos hminor hd rfl rfl (fun _ hne => hne) hw
  · rw [if_neg h0] at hw
    obtain ⟨signature, hsignature, hw⟩ := runOn_liftExcept_bind_eq_ok.1 hw
    rw [PayloadFile.zeros] at hsignature
    split at hsignature
    · cases hsignature
    · next hnonneg =>
      obtain rfl : zeros = signature := hzeros.trans (Except.ok.inj hsignature)
      have hlength : reserved.getD 0 = (zeros.length : Int) := by
        rw [hzeros, List.length_replicate]
        omega
      rw [hlength] at hw
      have hd : Manifest.Describes ⟨w.blockSize, w.minorVersion, some data.length,
          some zeros.length⟩ data zeros := .signed rfl rfl
      refine assembled_of_writeParts hpos hminor hd rfl rfl ?_ hw
      intro h2 hne
      rwa [if_pos h2]

namespace Assembled

theorem payloadSignatureRegion_eq (hx : Assembled w m data x metadata)
    (hne : x.payloadSignature ≠ []) :
    x.layout.payloadSignatureRegion =
      .ok (some ⟨metadata.length + x.metadataSignature.length + data.length,
        x.payloadSignature.length⟩) := by
  have hlen := hx.splits.length_eq
  cases hx.described with
  | unsigned _ _ htail => exact absurd htail hne
  | signed ho hn =>
    have hends : x.layout.EndsSigned := by
      refine ⟨_, _, _, hx.splits.dataOffset_eq, ho, hn, ?_⟩
      rw [hx.splits.fileSize_eq]
      omega
    rw [hx.splits.payloadSignatureRegion_eq hends, if_neg hne]

theorem manifest_eq (hx : Assembled w m data x metadata) (hne : x.payloadSignature ≠ []) :
    x.layout.manifest =
      ⟨w.blockSize, w.minorVersion, some data.length, some x.payloadSignature.length⟩ := by
  cases hx.described with
  | unsigned _ _ htail => exact absurd htail hne
  | signed ho hn => rw [← hx.blockSize_eq, ← hx.minorVersion_eq, ← ho, ← hn]

theorem layout_eq (hx : Assembled w m data x metadata) (hy : Assembled w m data y metadata')
    (hne : x.payloadSignature ≠ [])
    (hm : y.metadataSignature.length = x.metadataSignature.length)
    (hs : y.payloadSignature.length = x.payloadSignature.length) : y.layout = x.layout := by
  have hne' : y.payloadSignature ≠ [] := by
    rwa [Ne, ← List.length_eq_zero_iff, hs, List.length_eq_zero_iff]
  have hmanifest : y.layout.manifest = x.layout.manifest := by
    rw [hy.manifest_eq hne', hx.manifest_eq hne, hs]
  have hbuilt := hy.built
  rw [hy.major_eq, hmanifest, hm, ← hx.major_eq, hx.built] at hbuilt
  obtain rfl := Except.ok.inj hbuilt
  obtain ⟨hheader, -, -, -⟩ := hy.splits.metadata_inj hx.splits (x := []) (y := []) rfl
  have hsize : y.layout.fileSize = x.layout.fileSize := by
    rw [hy.splits.fileSize_eq, hx.splits.fileSize_eq, hy.splits.length_eq, hx.splits.length_eq,
      hm, hs]
  calc y.layout = ⟨y.layout.header, y.layout.manifest, y.layout.fileSize⟩ := rfl
    _ = x.layout := by rw [hheader, hmanifest, hsize]

/-- Embedding makes a file like the one that was written, and one of the same layout once there is
room for a payload signature. -/
theorem embed (hx : Assembled w m data x metadata) (hr : h.Holds path (x.content metadata data))
    (hw : runOn (embedSignatures path (some s) M out) h = (.ok l', h')) :
    ∃ metadata', Assembled w m data ⟨out, l', M.getD [], s⟩ metadata' ∧
      h'.Holds out (content ⟨out, l', M.getD [], s⟩ metadata' data) ∧
      (x.payloadSignature ≠ [] → l' = x.layout ∧ s ≠ []) := by
  have hs := hx.splits
  obtain ⟨reserved, hreserved, -⟩ := hs.payloadSignatureRegion_eq_ok
  obtain ⟨hmetadata, hpayload, hlength, hw⟩ :=
    (embedSignatures_eq_ok_iff hr (hs.ofContent_eq _) hs hreserved).1 hw
  rw [hx.major_eq, checkMetadataSignature_eq_ok_iff] at hmetadata
  obtain ⟨hone, htwo⟩ := hmetadata
  rw [hx.major_eq] at hw
  have hd : (signedManifest x.layout.manifest data.length s.length).Describes data s :=
    .signed rfl rfl
  have hpos : 0 < (signedManifest x.layout.manifest data.length s.length).blockSize :=
    hs.manifest_valid.pos
  have hminor : 0 ≤ (signedManifest x.layout.manifest data.length s.length).minorVersion :=
    hs.manifest_valid.minorVersion.1
  obtain ⟨metadata', hy, hholds⟩ := assembled_of_writeParts hpos hminor hd hx.blockSize_eq
    hx.minorVersion_eq (fun h2 _ => htwo h2) hw
  refine ⟨metadata', hy, hholds, fun hne => ?_⟩
  rw [hx.payloadSignatureRegion_eq hne] at hreserved
  cases hreserved
  have hps : (x.payloadSignature.length : Int) = s.length :=
    length_of_checkReserved (mapError_eq_ok_iff.1 hpayload)
  -- there is no room for a metadata signature in the first major version only
  have hms : (M.getD []).length = x.metadataSignature.length := by
    by_cases hnil : x.metadataSignature = []
    · have hmajor : m = 1 := by
        rcases hs.header_valid.major_eq with h1 | h2
        · rw [← hx.major_eq, h1]
        · exact absurd hnil (hx.signed (hx.major_eq.symm.trans h2) hne)
      rw [hone hmajor, hnil]
    · rw [if_neg hnil] at hlength
      have hlen := length_of_checkReserved hlength
      simp only at hlen
      omega
  have hps : s.length = x.payloadSignature.length := by omega
  refine ⟨hx.layout_eq hy hne hms hps, ?_⟩
  rwa [Ne, ← List.length_eq_zero_iff, hps, List.length_eq_zero_iff]

end Assembled

end Write

/-! ### The calls -/

/-- A call embeds signatures, and if it is recorded nothing but the ledger changes after that. -/
theorem Call.Writes.exists_embedSignatures (hcall : c.Writes t path out sink h y sink' h') :
    ∃ s M l' h₁, runOn (embedSignatures path (some s) M out) h = (.ok l', h₁) ∧
      y = ⟨out, l', M.getD [], s⟩ ∧
      ∀ b, h₁.Holds out b → (c.IsRecorded → sink'.Spares h' out) → h'.Holds out b := by
  cases c with
  | embed S M =>
    obtain ⟨-, l', hembed, rfl⟩ := hcall
    obtain ⟨s, rfl⟩ := some_of_embedSignatures hembed
    exact ⟨s, M, l', h', hembed, rfl, fun b hb _ => hb⟩
  | sign keys =>
    obtain ⟨⟨hashes, s, M, l', h₁, hmade, hembed, rfl⟩, hashes', hsign⟩ := hcall
    -- what is assembled is made and embedded in signing too
    obtain ⟨s', M', l'', h₁', hmade', hembed', hrecord⟩ := Sign.exists_of_signPayload hsign
    cases (Sign.answers_makeContainers_iff.2 hmade).unique (Sign.answers_makeContainers_iff.2 hmade')
    cases hembed.symm.trans hembed'
    exact ⟨s, M, l', h₁, hembed, rfl, fun b hb hspare => hrecord.holds_of_spares hb (hspare trivial)⟩
  | add S M =>
    obtain ⟨l', hadd, rfl⟩ := hcall
    obtain ⟨h₁, e, hembed, hlog⟩ := Sign.runOn_addSignatures_eq_ok.1 hadd
    obtain ⟨-, -, hembed⟩ := Sign.runOn_embedContainers_eq_ok.1 hembed
    obtain ⟨s, rfl⟩ := some_of_embedSignatures hembed
    have hrecord : Sign.Records _ _ _ sink h₁ sink' h' := ⟨_, _, h₁.log, e, rfl, hlog⟩
    exact ⟨s, M, l', h₁, hembed, rfl, fun b hb hspare => hrecord.holds_of_spares hb (hspare trivial)⟩

/-! ### The life of a payload -/

namespace Lifecycle

variable {h₁ : Host}

theorem exists_assembled (hlife : Lifecycle t w data major reserved (x :: done) h) :
    ∃ metadata, x.Assembled w (major.getD w.major) data metadata ∧
      h.Holds x.path (x.content metadata data) := by
  generalize hdone : x :: done = written at hlife
  -- by induction on the run: a call needs only that the file before it was assembled
  induction hlife generalizing x done with
  | write hzeros hwrite =>
    cases hdone
    exact Write.assembled_of_writePayload hzeros hwrite
  | call _ hwritten hread hcall hspare ih =>
    cases hdone
    obtain ⟨metadata, hx, hholds⟩ := ih rfl
    obtain rfl := Except.ok.inj (hwritten.symm.trans hholds)
    obtain ⟨s, M, l', h₂, hembed, rfl, hkeep⟩ := hcall.exists_embedSignatures
    obtain ⟨metadata', hy, hholds', -⟩ := hx.embed hread hembed
    exact ⟨metadata', hy, hkeep _ hholds' hspare⟩

theorem layout_eq_of_call (hlife : Lifecycle t w data major reserved (x :: done) h)
    (hwritten : h.Holds x.path b) (hread : h₁.Holds path b)
    (hcall : c.Writes t path out sink h₁ y sink' h')
    (hne : x.payloadSignature ≠ []) : y.layout = x.layout ∧ y.payloadSignature ≠ [] := by
  obtain ⟨metadata, hx, hholds⟩ := hlife.exists_assembled
  obtain rfl := Except.ok.inj (hwritten.symm.trans hholds)
  obtain ⟨s, M, l', h₂, hembed, rfl, -⟩ := hcall.exists_embedSignatures
  obtain ⟨metadata', -, -, hsame⟩ := hx.embed hread hembed
  exact hsame hne

theorem layout_eq_of_mem (hlife : Lifecycle t w data major reserved (x :: done) h) (hy : y ∈ done)
    (hne : y.payloadSignature ≠ []) : x.layout = y.layout ∧ x.payloadSignature ≠ [] := by
  generalize hdone : x :: done = written at hlife
  induction hlife generalizing x done with
  | write =>
    cases hdone
    cases hy
  | call hlife hwritten hread hcall _ ih =>
    cases hdone
    rcases List.mem_cons.1 hy with rfl | hy
    · exact hlife.layout_eq_of_call hwritten hread hcall hne
    · obtain ⟨hlayout, hsigned⟩ := ih hy rfl
      obtain ⟨hnext, hsigned'⟩ := hlife.layout_eq_of_call hwritten hread hcall hsigned
      exact ⟨hnext.trans hlayout, hsigned'⟩

/-- At any time in its life a payload is laid out as the assembler returned, with the parameters and
the data it was written with and the signatures embedded last; and its layout is that of any earlier
time when there was room for a payload signature. -/
theorem reads_as_returned (hlife : Lifecycle t w data major reserved (x :: done) h) :
    Answers (readLayout x.path) h (.ok x.layout) ∧
    x.layout.header.major = major.getD w.major ∧
    x.layout.manifest.blockSize = w.blockSize ∧
    x.layout.manifest.minorVersion = w.minorVersion ∧
    (∃ metadata, buildMetadata x.layout.header.major x.layout.manifest
        x.metadataSignature.length = .ok metadata ∧
      h.Holds x.path (metadata ++ x.metadataSignature ++ data ++ x.payloadSignature)) ∧
    ∀ y ∈ done, y.payloadSignature ≠ [] → x.layout = y.layout := by
  obtain ⟨metadata, hx, hholds⟩ := hlife.exists_assembled
  have hread := answers_readLayout hholds
  rw [hx.splits.ofContent_eq] at hread
  refine ⟨hread, hx.major_eq, hx.blockSize_eq, hx.minorVersion_eq, ⟨metadata, hx.built, hholds⟩, ?_⟩
  intro y hy hne
  exact (hlife.layout_eq_of_mem hy hne).1

end Lifecycle

/-- The file of a ledger is longer after a record than what was written there. -/
theorem Ledger.readLayout_ne_of_log {l l₁ : Ledger} {e : Entry} {operation : String}
    {inputs outputs : List String} {args : Json.Members} (hsize : l'.fileSize = b.length)
    (hb : h.Holds l.path b) (hlog : runOn (l.log operation inputs outputs args) h =
      (.ok (l₁, e), h')) : ¬ Answers (readLayout l.path) h' (.ok l') := by
  intro hread
  obtain ⟨F, hF, hl⟩ := exists_of_readLayout hread
  obtain ⟨_, -, -, -, -, hsize', -⟩ := Layout.ofContent_eq_ok hl
  obtain rfl := Except.ok.inj ((Ledger.holds_of_log hb hlog).symm.trans hF)
  rw [hsize, List.length_append] at hsize'
  exact bytes_line_ne_nil e (List.length_eq_zero_iff.1 (by omega))

namespace Lifecycle

/-! ### A small payload -/

/-- A host on which a payload has just been written, and nothing else. -/
def writtenHost (content : Bytes) : Host :=
  { files := ⟨[(["payload"], .file content FileTree.secretMode)]⟩ }

theorem writePayload_small :
    ∃ log, runOn (writePayload { major := 1 } ⟨false, ["payload"]⟩ [7] none (some 7)) {} =
      (.ok Layout.smallLayout, { writtenHost (Layout.smallPayload 0) with log }) := by
  have hheader : Header.ofBytes Layout.smallMetadata = .ok Layout.smallHeader :=
    Header.ofBytes_form Layout.smallHeader_valid _
  have hb : buildMetadata 1 Layout.smallManifest ([] : Bytes).length = .ok Layout.smallMetadata :=
    Plan.buildMetadata_small
  have hw : runOn (writeAtomically ⟨false, ["payload"]⟩ (Layout.smallPayload 0)) {} =
      (.ok (), writtenHost (Layout.smallPayload 0)) := rfl
  obtain ⟨log, hparts⟩ := (returns_writeParts hb hheader hw).runOn
  have hlayout : Layout.smallLayout =
      ⟨Layout.smallHeader, Layout.smallManifest, (Layout.smallPayload 0).length⟩ := by
    rw [← (Layout.smallPayload_splits 0).fileSize_eq]
    rfl
  have hmanifest : newManifest { major := 1 } = .ok ⟨4096, 0, none, none⟩ := rfl
  refine ⟨log, ?_⟩
  rw [hlayout]
  refine runOn_liftExcept_bind_eq_ok.2 ⟨_, rfl, runOn_liftExcept_bind_eq_ok.2 ⟨_, hmanifest, ?_⟩⟩
  exact runOn_liftExcept_bind_eq_ok.2 ⟨_, rfl, hparts⟩

theorem embed_small {s : Bytes} (hs : s.length = 7) (out : Path)
    (hw : ∀ content log, ∃ h₁, runOn (writeAtomically out content)
      { writtenHost (Layout.smallPayload 0) with log } = (.ok (), h₁)) (log : List (LogLevel × String)) :
    ∃ l' h', runOn (embedSignatures ⟨false, ["payload"]⟩ (some s) none out)
      { writtenHost (Layout.smallPayload 0) with log } = (.ok l', h') := by
  have hread : ({ writtenHost (Layout.smallPayload 0) with log } : Host).Holds
    ⟨false, ["payload"]⟩ (Layout.smallPayload 0) := rfl
  obtain ⟨h₁, hwrite⟩ := hw (Layout.smallMetadata ++ [] ++ [7] ++ s) log
  exact Plan.embedSignatures_smallPayload hs hread hwrite

theorem lifecycle_small :
    ∃ log, Lifecycle {} { major := 1 } [7] none (some 7)
      [⟨⟨false, ["payload"]⟩, Layout.smallLayout, [], List.replicate 7 0⟩]
      { writtenHost (Layout.smallPayload 0) with log } := by
  obtain ⟨log, hwrite⟩ := writePayload_small
  exact ⟨log, .write rfl hwrite⟩

/-- A payload is written, and a signature embedded where there was room for it. -/
theorem small_reads_as_returned :
    ∃ x y h, Lifecycle {} { major := 1 } [7] none (some 7) [y, x] h ∧
      Answers (readLayout y.path) h (.ok y.layout) ∧ y.layout = x.layout := by
  obtain ⟨log, hlife⟩ := lifecycle_small
  obtain ⟨l', h', hembed⟩ := embed_small (s := List.replicate 7 1) (List.length_replicate ..)
    ⟨false, ["signed"]⟩ (fun _ _ => ⟨_, rfl⟩) log
  have hcall : Call.Writes {} ⟨false, ["payload"]⟩ ⟨false, ["signed"]⟩ .silent
      { writtenHost (Layout.smallPayload 0) with log }
      ⟨⟨false, ["signed"]⟩, l', [], List.replicate 7 1⟩ .silent h'
      (.embed (some (List.replicate 7 1)) none) :=
    ⟨rfl, l', hembed, rfl⟩
  have hread : ({ writtenHost (Layout.smallPayload 0) with log } : Host).Holds
    ⟨false, ["payload"]⟩ (Layout.smallPayload 0) := rfl
  have hnext := hlife.call hread hread hcall nofun
  obtain ⟨hread, -, -, -, -, hsame⟩ := hnext.reads_as_returned
  exact ⟨_, _, h', hnext, hread, hsame _ List.mem_cons_self (by simp)⟩

/-- Where signatures are embedded into the ledger, their record is put behind them, and the layout
of the file is not the one that was returned. -/
theorem ledger_reads_differently :
    ∃ x y h sink' h', Lifecycle {} { major := 1 } [7] none (some 7) [x] h ∧
      Call.Writes {} x.path Ledger.ledgerPath (.audit ⟨Ledger.ledgerPath, [7], {}⟩) h y sink' h'
        (.add (some (Container.encode [⟨1, [42]⟩])) none) ∧
      ¬ Answers (readLayout y.path) h' (.ok y.layout) := by
  obtain ⟨log, hlife⟩ := lifecycle_small
  have hlength : (Container.encode [⟨1, [42]⟩]).length = 7 := by decide +kernel
  obtain ⟨l', h₁, hembed⟩ := embed_small hlength Ledger.ledgerPath (fun _ _ => ⟨_, rfl⟩) log
  obtain ⟨metadata, hx, hholds⟩ := hlife.exists_assembled
  obtain ⟨metadata', hy, hholds', -⟩ := hx.embed hholds hembed
  have hcontainer : Sign.checkContainer "payload" (some (Container.encode [⟨1, [42]⟩])) = .ok () := by
    have hfits : ∀ s ∈ [(⟨1, [42]⟩ : Signature)], s.data.Addressable := by simp [Bytes.Addressable]
    simp only [Sign.checkContainer, Container.decode_encode_of_addressable hfits, ok_bind]
    rfl
  have hcontainers := Sign.runOn_embedContainers_eq_ok.2 ⟨hcontainer, rfl, hembed⟩
  have hrecord : Sink.CanRecord (.audit ⟨Ledger.ledgerPath, [7], {}⟩) (["payload"] ++ ["ledger"]) h₁ :=
    Sink.canRecord_of_holds hholds' (by decide)
  obtain ⟨e, sink', h', hlog, -⟩ := Sink.log_returns "embed_signatures" ["payload"] ["ledger"] _ hrecord
  have hadd := Sign.runOn_addSignatures_eq_ok.2 ⟨h₁, e, hcontainers, hlog⟩
  have hcall : Call.Writes {} ⟨false, ["payload"]⟩ Ledger.ledgerPath
      (.audit ⟨Ledger.ledgerPath, [7], {}⟩) { writtenHost (Layout.smallPayload 0) with log }
      ⟨Ledger.ledgerPath, l', [], Container.encode [⟨1, [42]⟩]⟩ sink' h'
      (.add (some (Container.encode [⟨1, [42]⟩])) none) :=
    ⟨l', hadd, rfl⟩
  obtain ⟨_, _, _, entry, -, -, hlog⟩ := Ledger.exists_of_log_audit hlog
  have hdiffers := Ledger.readLayout_ne_of_log (l := ⟨Ledger.ledgerPath, [7], {}⟩)
    hy.splits.fileSize_eq hholds' hlog
  exact ⟨_, _, _, sink', h', hlife, hcall, hdiffers⟩

end Lifecycle

end UpdateSeal
