import UpdateSeal.Proofs.Plans

/-!
# Which files have a layout

Header and manifest in front of a file declare its layout, and the layout is read exactly if every
region that it declares ends inside the file. The regions of a layout that is read lie one behind
the other and can all be read. Any other file is refused for its format, but for one whose payload
signature ends so far behind the file that the number cannot be written.
-/

namespace UpdateSeal

open UpdateSeal.Action

/-- The payload breaks its format; the fault is not that a number could not be packed or written. -/
def PayloadFault.IsFormat : PayloadFault → Prop
  | .fieldRange | .longNumber => False
  | _ => True

namespace Header

variable {h : Header}

theorem Valid.manifestSize_nonneg (hv : h.Valid) : 0 ≤ h.manifestSize := by
  cases hv <;> exact Int.natCast_nonneg _

theorem Valid.manifestSize_le (hv : h.Valid) : h.manifestSize ≤ maxManifestSize := by
  cases hv <;> exact Int.ofNat_le.2 ‹_›

theorem Valid.signatureSize_lt (hv : h.Valid) : h.metadataSignatureSize < 256 ^ 4 := by
  cases hv with
  | first => exact Int.ofNat_lt.2 (by decide)
  | second _ hs => exact Int.ofNat_lt.2 hs

theorem isFormat_of_ofBytes {raw : Bytes} {f : PayloadFault}
    (h : ofBytes raw = .error f) : f.IsFormat := by
  unfold ofBytes at h
  grind [PayloadFault.IsFormat]

end Header

namespace Layout

variable {h : Host} {path : Path} {l l' : Layout} {content : Bytes} {f : PayloadFault}
variable {offset length : Int} {r : Option Region}

/-- Header and manifest stand whole in front of `content`, and `l` is what they declare. -/
structure DeclaredBy (content : Bytes) (l : Layout) : Prop where
  header_eq : Header.ofBytes (content.take Header.maxSize) = .ok l.header
  manifest_eq : ∃ n k : ℕ, l.header.size = .ok n ∧ l.header.manifestSize = k ∧
    n + k ≤ content.length ∧ Manifest.ofBytes (Bytes.slice n k content) = .ok l.manifest
  fileSize_eq : l.fileSize = content.length

/-- Metadata and data end inside the file. -/
structure BodyFits (l : Layout) : Prop where
  metadata_le : ∃ offset, l.dataOffset = .ok offset ∧ offset ≤ l.fileSize
  data_le : ∃ offset length, l.dataOffset = .ok offset ∧ l.dataLength = .ok length ∧
    offset + length ≤ l.fileSize

/-- Every region that `l` declares ends inside the file. -/
structure Fits (l : Layout) : Prop extends l.BodyFits where
  signature_le : ∃ r, l.payloadSignatureRegion = .ok r ∧ ∀ q, r = some q → q.stop ≤ l.fileSize

/-- Only the payload signature ends behind the file, at a number with more digits than can be
written. -/
structure Overlong (l : Layout) : Prop extends l.BodyFits where
  signature_long : ∃ q, l.payloadSignatureRegion = .ok (some q) ∧ l.fileSize < q.stop ∧
    10 ^ Json.maxDigits ≤ q.stop

/-- The regions of `l` lie one behind the other: `a` bytes of metadata, `s` of its signature, `d` of
data and `n` of the payload signature. What is empty has no signature's region. -/
structure Tiled (l : Layout) (size a s d n : ℕ) : Prop where
  metadataSize_eq : l.metadataSize = .ok a
  metadataSignature_eq :
    l.metadataSignatureRegion = .ok (if s = 0 then none else some ⟨a, s⟩)
  dataOffset_eq : l.dataOffset = .ok ((a + s : ℕ) : Int)
  dataLength_eq : l.dataLength = .ok d
  payloadSignature_eq :
    l.payloadSignatureRegion = .ok (if n = 0 then none else some ⟨(a + s + d : ℕ), n⟩)
  stop_le : a + s + d + n ≤ size

section Read

variable {header : Header} {n k : ℕ}
variable (hheader : Header.ofBytes (content.take Header.maxSize) = .ok header)
variable (hn : header.size = .ok n) (hk : header.manifestSize = k)
include hheader hn hk

/-- Behind a header that is read, the manifest is read, and then the layout is checked. -/
theorem ofContent_of_header (name : String) :
    ofContent name content =
      if ((Bytes.slice n k content).length : Int) ≠ k then
        .error (.manifestTruncated name k (Bytes.slice n k content).length)
      else do
        let manifest ← (Manifest.ofBytes (Bytes.slice n k content)).mapError .invalidManifest
        validate ⟨header, manifest, content.length⟩
        return ⟨header, manifest, content.length⟩ := by
  simp only [ofContent, hheader, hn, hk, ok_bind, Int.toNat_natCast]
  split <;> rfl

theorem DeclaredBy.manifest_of_header (hl : DeclaredBy content l) :
    n + k ≤ content.length ∧ Manifest.ofBytes (Bytes.slice n k content) = .ok l.manifest := by
  obtain ⟨hheader', ⟨n', k', hn', hk', hle, hmanifest⟩, -⟩ := hl
  obtain rfl : header = l.header := Except.ok.inj (hheader.symm.trans hheader')
  obtain rfl : n = n' := Except.ok.inj (hn.symm.trans hn')
  obtain rfl : k = k' := Int.ofNat.inj (hk.symm.trans hk')
  exact ⟨hle, hmanifest⟩

end Read

theorem DeclaredBy.unique (hl : DeclaredBy content l) (hl' : DeclaredBy content l') : l = l' := by
  obtain ⟨header, manifest, size⟩ := l
  obtain ⟨header', manifest', size'⟩ := l'
  obtain ⟨n, k, hn, hk, -, hmanifest⟩ := hl.manifest_eq
  have hmanifest' := (hl'.manifest_of_header hl.header_eq hn hk).2
  obtain rfl : header = header' := Except.ok.inj (hl.header_eq.symm.trans hl'.header_eq)
  obtain rfl : manifest = manifest' := Except.ok.inj (hmanifest.symm.trans hmanifest')
  obtain rfl : size = size' := hl.fileSize_eq.trans hl'.fileSize_eq.symm
  rfl

theorem DeclaredBy.ofContent_eq (hl : DeclaredBy content l) (name : String) :
    ofContent name content = l.validate.map fun _ => l := by
  obtain ⟨header, manifest, size⟩ := l
  obtain ⟨hheader, ⟨n, k, hn, hk, hle, hmanifest⟩, rfl⟩ := hl
  rw [ofContent_of_header hheader hn hk, Bytes.length_slice_of_le hle, if_neg (not_not.2 rfl),
    hmanifest, mapError_ok, ok_bind]
  cases validate ⟨header, manifest, content.length⟩ <;> rfl

/-- What declares no layout is refused for its format. -/
theorem declaredBy_or_isFormat (name : String) (content : Bytes) :
    (∃ l, DeclaredBy content l) ∨
      (∀ l, ¬ DeclaredBy content l) ∧ ∃ f, f.IsFormat ∧ ofContent name content = .error f := by
  cases hheader : Header.ofBytes (content.take Header.maxSize) with
  | error f =>
    refine .inr ⟨fun l hl => ?_, f, Header.isFormat_of_ofBytes hheader, ?_⟩
    · cases hheader.symm.trans hl.header_eq
    · rw [ofContent, hheader]
      rfl
  | ok header =>
    obtain ⟨hvalid, -⟩ := Header.form_of_ofBytes hheader
    have hn := Header.size_eq hvalid
    have hfull : header.form.length ≤ content.length := by
      rw [← Header.take_form_of_ofBytes hheader]
      exact List.length_take_le' _ _
    generalize header.form.length = n at hn hfull
    obtain ⟨k, hk⟩ := Int.eq_ofNat_of_zero_le hvalid.manifestSize_nonneg
    have hread := ofContent_of_header hheader hn hk name
    by_cases hlen : ((Bytes.slice n k content).length : Int) = k
    · rw [if_neg (not_not.2 hlen)] at hread
      cases hmanifest : Manifest.ofBytes (Bytes.slice n k content) with
      | error issues =>
        refine .inr ⟨fun l hl => ?_, .invalidManifest issues, trivial, ?_⟩
        · cases hmanifest.symm.trans (hl.manifest_of_header hheader hn hk).2
        · rw [hread, hmanifest]
          rfl
      | ok manifest =>
        refine .inl ⟨⟨header, manifest, content.length⟩, hheader, ⟨n, k, hn, hk, ?_, hmanifest⟩, rfl⟩
        rw [Bytes.slice, List.length_take, List.length_drop] at hlen
        omega
    · rw [if_pos hlen] at hread
      refine .inr ⟨fun l hl => ?_, .manifestTruncated .., trivial, hread⟩
      obtain ⟨hle, -⟩ := hl.manifest_of_header hheader hn hk
      exact hlen (congrArg Nat.cast (Bytes.length_slice_of_le hle))

theorem DeclaredBy.placed (hl : DeclaredBy content l) :
    ∃ a s : ℕ, a + s < 10 ^ Json.maxDigits ∧ l.dataOffset = .ok ((a + s : ℕ) : Int) ∧
      (∃ length, l.dataLength = .ok length) ∧ ∃ r, l.payloadSignatureRegion = .ok r ∧
        ∀ q, r = some q → 0 ≤ q.offset ∧ 0 ≤ q.length := by
  obtain ⟨hheader, ⟨n, k, hn, hk, -, hmanifest⟩, -⟩ := hl
  obtain ⟨hvalid, -⟩ := Header.form_of_ofBytes hheader
  have hmvalid := Manifest.valid_of_ofBytes hmanifest
  obtain ⟨s, hs⟩ := Int.eq_ofNat_of_zero_le hvalid.signatureSize_nonneg
  have hoffset : l.dataOffset = .ok ((n + k + s : ℕ) : Int) := by
    rw [dataOffset, metadataSize, hn, hk, hs]
    rfl
  have hbound : n + k + s < 10 ^ Json.maxDigits := by
    have hform := Header.length_form_le l.header
    have hmsize := hvalid.manifestSize_le
    have hssize := hvalid.signatureSize_lt
    have hroom : 24 + 64 * 1024 * 1024 + 256 ^ 4 < 10 ^ Json.maxDigits := by decide +kernel
    rw [Header.size_eq hvalid] at hn
    obtain rfl := Except.ok.inj hn
    simp only [Header.maxSize, Header.maxManifestSize] at hform hmsize
    omega
  obtain ⟨r, hr, hregion⟩ := exists_payloadSignatureRegion hoffset
  refine ⟨n + k, s, hbound, hoffset, ⟨_, dataLength_of_dataOffset hoffset⟩, r, hr, fun q hq => ?_⟩
  obtain ⟨start, size, hstart, hsize, -, rfl⟩ := (hregion q).1 hq
  have hstart := (hmvalid.signaturesOffset start hstart).1
  have hsize := (hmvalid.signaturesSize size hsize).1
  simp only
  omega

theorem bodyFits_iff (ho : l.dataOffset = .ok offset) (hd : l.dataLength = .ok length) :
    l.BodyFits ↔ offset ≤ l.fileSize ∧ offset + length ≤ l.fileSize := by
  constructor
  · intro hfits
    obtain ⟨⟨_, ho₁, hmetadata⟩, _, _, ho₂, hd', hdata⟩ := hfits
    obtain rfl := Except.ok.inj (ho.symm.trans ho₁)
    obtain rfl := Except.ok.inj (ho.symm.trans ho₂)
    obtain rfl := Except.ok.inj (hd.symm.trans hd')
    exact ⟨hmetadata, hdata⟩
  · intro hle
    exact ⟨⟨_, ho, hle.1⟩, _, _, ho, hd, hle.2⟩

theorem fits_iff (hr : l.payloadSignatureRegion = .ok r) :
    l.Fits ↔ l.BodyFits ∧ ∀ q, r = some q → q.stop ≤ l.fileSize := by
  constructor
  · intro hfits
    obtain ⟨hbody, _, hr', hsignature⟩ := hfits
    obtain rfl := Except.ok.inj (hr.symm.trans hr')
    exact ⟨hbody, hsignature⟩
  · intro hle
    exact ⟨hle.1, r, hr, hle.2⟩

theorem overlong_iff (hr : l.payloadSignatureRegion = .ok r) :
    l.Overlong ↔ l.BodyFits ∧
      ∃ q, r = some q ∧ l.fileSize < q.stop ∧ 10 ^ Json.maxDigits ≤ q.stop := by
  constructor
  · intro hlong
    obtain ⟨hbody, q, hr', hstop⟩ := hlong
    exact ⟨hbody, q, Except.ok.inj (hr.symm.trans hr'), hstop⟩
  · intro hlong
    obtain ⟨hbody, q, rfl, hstop⟩ := hlong
    exact ⟨hbody, q, hr, hstop⟩

theorem Overlong.not_fits (hlong : l.Overlong) : ¬ l.Fits := by
  intro hfits
  obtain ⟨-, q, hr, hlt, -⟩ := hlong
  exact Int.not_le.2 hlt (((fits_iff hr).1 hfits).2 q rfl)

theorem DeclaredBy.validate_eq_ok_iff (hl : DeclaredBy content l) :
    l.validate = .ok () ↔ l.Fits := by
  obtain ⟨a, s, -, ho, ⟨length, hd⟩, r, hr, -⟩ := hl.placed
  rw [Layout.validate_eq_ok_iff ho hd hr, fits_iff hr, bodyFits_iff ho hd, and_assoc]

theorem faultShowing_eq {numbers : List Int} {stop : Int} (hmem : stop ∈ numbers)
    (hle : ∀ n ∈ numbers, 0 ≤ n ∧ n ≤ stop) :
    faultShowing numbers f = if stop < 10 ^ Json.maxDigits then f else .longNumber := by
  have hiff : numbers.all Manifest.isShort = true ↔ stop < 10 ^ Json.maxDigits := by
    simp only [List.all_eq_true, Manifest.isShort_iff]
    constructor
    · intro hshort
      have hstop := hshort stop hmem
      rw [← Int.natAbs_of_nonneg (hle stop hmem).1]
      exact_mod_cast hstop
    · intro hlt n hn
      obtain ⟨h0, hn⟩ := hle n hn
      have hn := Int.lt_of_le_of_lt hn hlt
      rw [← Int.natAbs_of_nonneg h0] at hn
      exact_mod_cast hn
  by_cases hlt : stop < 10 ^ Json.maxDigits
  · rw [faultShowing, if_pos (hiff.2 hlt), if_pos hlt]
  · rw [faultShowing, if_neg (mt hiff.1 hlt), if_neg hlt]

/-- A declared layout that fails the checks breaks the format, but for one that is overlong. -/
theorem DeclaredBy.validate_eq_error (hl : DeclaredBy content l) (hf : l.validate = .error f) :
    (l.Overlong ∧ f = .longNumber) ∨ (¬ l.Overlong ∧ f.IsFormat) := by
  obtain ⟨a, s, hbound, ho, ⟨length, hd⟩, r, hr, hq⟩ := hl.placed
  have hsize : 0 ≤ l.fileSize := hl.fileSize_eq ▸ Int.natCast_nonneg _
  rw [overlong_iff hr, bodyFits_iff ho hd]
  obtain ⟨hlt, hfault⟩ | ⟨hlt, rfl⟩ | ⟨hmetadata, hdata, q, rfl, hlt, hfault⟩ :=
    fault_of_validate ho hd hr hf
  · have hshort : ((a + s : ℕ) : Int) < 10 ^ Json.maxDigits := by exact_mod_cast hbound
    have hle : ∀ n ∈ [((a + s : ℕ) : Int), l.fileSize], 0 ≤ n ∧ n ≤ (a + s : ℕ) := by
      simp only [List.mem_cons, List.not_mem_nil, or_false, forall_eq_or_imp, forall_eq]
      omega
    rw [hfault, faultShowing_eq List.mem_cons_self hle, if_pos hshort]
    exact .inr ⟨fun hlong => Int.not_le.2 hlt hlong.1.1, trivial⟩
  · exact .inr ⟨fun hlong => Int.not_le.2 hlt hlong.1.2, trivial⟩
  · obtain ⟨hoffset, hlength⟩ := hq q rfl
    have hstop : q.stop = q.offset + q.length := rfl
    have hle : ∀ n ∈ [q.offset, q.stop, l.fileSize], 0 ≤ n ∧ n ≤ q.stop := by
      simp only [List.mem_cons, List.not_mem_nil, or_false, forall_eq_or_imp, forall_eq]
      omega
    rw [hfault, faultShowing_eq (List.mem_cons_of_mem _ List.mem_cons_self) hle]
    by_cases hshort : q.stop < 10 ^ Json.maxDigits
    · rw [if_pos hshort]
      refine .inr ⟨fun hlong => ?_, trivial⟩
      obtain ⟨-, _, ⟨⟩, -, hlong⟩ := hlong
      exact Int.not_le.2 hshort hlong
    · rw [if_neg hshort]
      exact .inl ⟨⟨⟨hmetadata, hdata⟩, q, rfl, hlt, Int.not_lt.1 hshort⟩, rfl⟩

theorem Splits.tiled {md sig data tail : Bytes} (hs : l.Splits content md sig data tail) :
    ∃ n, l.Tiled content.length md.length sig.length data.length n := by
  have hlen := hs.length_eq
  have hoffset : l.dataOffset = .ok ((md.length + sig.length : ℕ) : Int) := by
    rw [hs.dataOffset_eq, Int.natCast_add]
  have hsignature : l.metadataSignatureRegion =
      .ok (if sig.length = 0 then none else some ⟨md.length, sig.length⟩) := by
    rw [hs.metadataSignatureRegion_eq]
    simp only [List.length_eq_zero_iff]
  obtain ⟨r, hr, hplace⟩ := hs.payloadSignatureRegion_eq_ok
  cases r with
  | none =>
    refine ⟨0, hs.metadataSize_eq, hsignature, hoffset, hs.dataLength_eq, ?_, by omega⟩
    rw [hr, if_pos rfl]
  | some q =>
    obtain ⟨hstart, hpos, hle, -⟩ := hplace q rfl
    obtain ⟨n, hn⟩ := Int.eq_ofNat_of_zero_le (Int.le_of_lt hpos)
    refine ⟨n, hs.metadataSize_eq, hsignature, hoffset, hs.dataLength_eq, ?_, by omega⟩
    obtain ⟨start, length⟩ := q
    simp only at hstart hn hpos
    rw [hr, if_neg (by omega), hn, hstart, Int.natCast_add, Int.natCast_add]

/-- A file has a layout exactly if it declares it, and every region of it fits. -/
theorem ofContent_eq_ok_iff (name : String) :
    ofContent name content = .ok l ↔ DeclaredBy content l ∧ l.Fits := by
  constructor
  · intro hl
    rcases declaredBy_or_isFormat name content with ⟨l', hl'⟩ | ⟨-, f, -, hf⟩
    · rw [hl'.ofContent_eq] at hl
      obtain ⟨⟨⟩, hvalidate, rfl⟩ := map_eq_ok_iff.1 hl
      exact ⟨hl', hl'.validate_eq_ok_iff.1 hvalidate⟩
    · cases hf.symm.trans hl
  · intro hl
    obtain ⟨hl, hfits⟩ := hl
    rw [hl.ofContent_eq, hl.validate_eq_ok_iff.2 hfits]
    rfl

theorem ofContent_eq_error (name : String) (hnone : ¬ ∃ l, DeclaredBy content l ∧ l.Fits) :
    ∃ f, ofContent name content = .error f ∧
      (f = .longNumber ↔ ∃ l, DeclaredBy content l ∧ l.Overlong) ∧ (f ≠ .longNumber → f.IsFormat) := by
  rcases declaredBy_or_isFormat name content with ⟨l, hl⟩ | ⟨hall, f, hformat, hf⟩
  · cases hvalidate : l.validate with
    | ok => exact absurd ⟨l, hl, hl.validate_eq_ok_iff.1 hvalidate⟩ hnone
    | error f =>
      refine ⟨f, by rw [hl.ofContent_eq, hvalidate]; rfl, ?_⟩
      rcases hl.validate_eq_error hvalidate with ⟨hlong, rfl⟩ | ⟨hshort, hformat⟩
      · exact ⟨iff_of_true rfl ⟨l, hl, hlong⟩, fun hne => absurd rfl hne⟩
      · refine ⟨iff_of_false ?_ ?_, fun _ => hformat⟩
        · rintro rfl
          exact hformat
        · rintro ⟨l', hl', hlong⟩
          exact hshort (hl.unique hl' ▸ hlong)
  · refine ⟨f, hf, iff_of_false ?_ ?_, fun _ => hformat⟩
    · rintro rfl
      exact hformat
    · rintro ⟨l, hl, -⟩
      exact hall l hl

end Layout

namespace PayloadFile

variable {t : Toolkit} {h : Host} {path : Path} {content : Bytes} {l : Layout}

open Layout (DeclaredBy)

theorem answers_readRegion_slice (hr : h.Holds path content) {start length : ℕ}
    (hle : start + length ≤ content.length) :
    Answers (readRegion path ⟨start, length⟩) h (.ok (Bytes.slice start length content)) := by
  have hin : (⟨start, length⟩ : Region).Inside content.length := by
    refine ⟨Int.natCast_nonneg _, Int.natCast_nonneg _, ?_⟩
    simp only [Region.stop]
    omega
  exact answers_readRegion hr hin

/-! ### A signature that is too long -/

variable {n : ℕ}

/-- The manifest of a payload without data and with a signature of `n` bytes. -/
def bareManifest (n : ℕ) : Manifest := { signaturesOffset := some 0, signaturesSize := some (n : Int) }

def bareHeader (n : ℕ) : Header := ⟨1, (bareManifest n).toBytes.length, 0⟩

/-- A payload that ends where its signature should begin. -/
def barePayload (n : ℕ) : Bytes := (bareHeader n).form ++ (bareManifest n).toBytes

def bareLayout (n : ℕ) : Layout := ⟨bareHeader n, bareManifest n, (barePayload n).length⟩

theorem bareManifest_valid (hn : n < 10 ^ Json.maxDigits) : (bareManifest n).Valid := by
  constructor
  case pos => exact Int.ofNat_lt.2 (by decide : 0 < 4096)
  case blockSize => exact Manifest.natural_of_small (by decide : 4096 < 10 ^ 4)
  case minorVersion => exact Manifest.natural_of_small (by decide : 0 < 10 ^ 4)
  case signaturesOffset =>
    intro k hk
    cases hk
    exact Manifest.natural_of_small (by decide : 0 < 10 ^ 4)
  case signaturesSize =>
    intro k hk
    cases hk
    exact Manifest.natural_of_nat hn

theorem barePayload_declaredBy (hn : n < 10 ^ Json.maxDigits) :
    DeclaredBy (barePayload n) (bareLayout n) := by
  have hm := bareManifest_valid hn
  have hv : (bareHeader n).Valid := .first (Manifest.length_toBytes_le hm)
  constructor
  case header_eq =>
    rw [barePayload, List.take_append, List.take_of_length_le (Header.length_form_le _)]
    exact Header.ofBytes_form hv _
  case manifest_eq =>
    have hsize : (bareLayout n).header.size = .ok (bareHeader n).form.length := Header.size_eq hv
    refine ⟨_, (bareManifest n).toBytes.length, hsize, rfl, ?_, ?_⟩
    · rw [barePayload, List.length_append]
    · have hslice := Bytes.slice_append (bareHeader n).form (bareManifest n).toBytes []
      rw [List.append_nil] at hslice
      rw [barePayload, hslice]
      exact Manifest.ofBytes_toBytes hm
  case fileSize_eq => rfl

theorem bareLayout_overlong (hn : n < 10 ^ Json.maxDigits) (hlong : 10 ^ Json.maxDigits ≤ n + 20) :
    (bareLayout n).Overlong := by
  have hpos : 0 < n := by
    have hroom : 20 < 10 ^ Json.maxDigits := by decide +kernel
    omega
  have hv : (bareHeader n).Valid := .first (Manifest.length_toBytes_le (bareManifest_valid hn))
  have hform : (bareHeader n).form.length = 20 := by
    rw [bareHeader, Header.form_first]
    rfl
  have hlen : (barePayload n).length = 20 + (bareManifest n).toBytes.length := by
    rw [barePayload, List.length_append, hform]
  have ho : (bareLayout n).dataOffset = .ok ((barePayload n).length : Int) := by
    have hsize : (bareLayout n).header.size = .ok 20 := hform ▸ Header.size_eq hv
    have hmanifest : (bareLayout n).header.manifestSize = (bareManifest n).toBytes.length := rfl
    have hsignature : (bareLayout n).header.metadataSignatureSize = 0 := rfl
    simp only [Layout.dataOffset, Layout.metadataSize, hsize, hmanifest, hsignature, hlen, Int.natCast_add,
      pure, Except.pure, bind, Except.bind, Int.add_zero]
  have hd : (bareLayout n).dataLength = .ok 0 := rfl
  have hr : (bareLayout n).payloadSignatureRegion = .ok (some ⟨(barePayload n).length + 0, n⟩) := by
    have hne : (n : Int) ≠ 0 := by omega
    simp only [Layout.payloadSignatureRegion, bareLayout, bareManifest, if_neg hne]
    rw [bareLayout, bareManifest] at ho
    rw [ho]
    rfl
  have hfile : (bareLayout n).fileSize = (barePayload n).length := rfl
  rw [Layout.overlong_iff hr, Layout.bodyFits_iff ho hd, hfile]
  refine ⟨⟨Int.le_refl _, Int.le_of_eq (Int.add_zero _)⟩, _, rfl, ?_, ?_⟩
  · simp only [Region.stop]
    omega
  · have hlong : (10 : Int) ^ Json.maxDigits ≤ n + 20 := by exact_mod_cast hlong
    simp only [Region.stop]
    omega

/-! ### Reading a layout -/

/-- The layout of a file is read exactly if header and manifest declare it and every region that it
declares ends inside the file. Its regions then lie one behind the other, and each is read as the
bytes at its place. Any other file breaks the format, unless it is overlong. -/
theorem readLayout_tiles (hchunk : 0 < t.chunk) (hr : h.Holds path content) :
    (∀ l, Answers (readLayout path) h (.ok l) ↔ DeclaredBy content l ∧ l.Fits) ∧
      ((¬ ∃ l, DeclaredBy content l ∧ l.Fits) →
        ∃ f, Answers (readLayout path) h (.error (.payload f)) ∧
          (f = .longNumber ↔ ∃ l, DeclaredBy content l ∧ l.Overlong) ∧
          (f ≠ .longNumber → f.IsFormat)) ∧
      ∀ l, Answers (readLayout path) h (.ok l) →
        ∃ a s d n, l.Tiled content.length a s d n ∧
          Answers (readRegion path ⟨0, a⟩) h (.ok (content.take a)) ∧
          Answers (readRegion path ⟨a, s⟩) h (.ok (Bytes.slice a s content)) ∧
          Answers (readRegion path ⟨(a + s : ℕ), d⟩) h (.ok (Bytes.slice (a + s) d content)) ∧
          Answers (readRegion path ⟨(a + s + d : ℕ), n⟩) h
            (.ok (Bytes.slice (a + s + d) n content)) ∧
          Answers (Plan.hashSigned t path) h
            (.ok (.ofPreimages (content.take a ++ Bytes.slice (a + s) d content)
              (content.take a))) := by
  have hread := answers_readLayout hr
  refine ⟨fun l => ?_, fun hnone => ?_, fun l hl => ?_⟩
  · rw [← Layout.ofContent_eq_ok_iff path.text]
    constructor
    · exact fun hl => mapError_eq_ok_iff.1 (hread.unique hl)
    · intro hl
      rwa [hl] at hread
  · obtain ⟨f, hf, hfault⟩ := Layout.ofContent_eq_error path.text hnone
    rw [hf] at hread
    exact ⟨f, hread, hfault⟩
  · obtain ⟨md, sig, data, tail, hs⟩ :=
      Layout.splits_of_ofContent (mapError_eq_ok_iff.1 (hread.unique hl))
    obtain ⟨n, htiled⟩ := hs.tiled
    have hle := htiled.stop_le
    have htake : content.take md.length = md := by
      rw [hs.content_eq, List.append_assoc, List.append_assoc, List.take_left]
    refine ⟨_, _, _, n, htiled, ?_, ?_, ?_, ?_, ?_⟩
    · have hmetadata := answers_readRegion hr hs.inside_metadata
      rw [hs.bytes_metadata] at hmetadata
      rwa [htake]
    · exact answers_readRegion_slice hr (by omega)
    · exact answers_readRegion_slice hr (by omega)
    · exact answers_readRegion_slice hr hle
    · rw [htake, hs.slice_data]
      exact Plan.answers_hashSigned hchunk hr hs

theorem smallPayload_readLayout :
    (∃ l, Answers (readLayout ⟨false, ["payload"]⟩) (Plan.payloadHost (Layout.smallPayload 0)) (.ok l) ∧
      l.Fits) ∧
      Answers (readLayout ⟨false, ["payload"]⟩)
        (Plan.payloadHost (barePayload (10 ^ Json.maxDigits - 1)))
        (.error (.payload .longNumber)) := by
  have hchunk : 0 < ({} : Toolkit).chunk := by decide
  constructor
  · obtain ⟨hiff, -⟩ := readLayout_tiles hchunk (Plan.payloadHost_holds (Layout.smallPayload 0))
    have hl := answers_readLayout (Plan.payloadHost_holds (Layout.smallPayload 0))
    rw [(Layout.smallPayload_splits 0).ofContent_eq] at hl
    exact ⟨_, hl, ((hiff _).1 hl).2⟩
  · have hroom : 0 < 10 ^ Json.maxDigits := Nat.pow_pos (by decide)
    have hl := barePayload_declaredBy (Nat.sub_lt hroom Nat.one_pos)
    have hlong := bareLayout_overlong (Nat.sub_lt hroom Nat.one_pos) (by omega)
    obtain ⟨-, hfault, -⟩ := readLayout_tiles hchunk (Plan.payloadHost_holds
      (barePayload (10 ^ Json.maxDigits - 1)))
    have hnone : ¬ ∃ l, DeclaredBy (barePayload (10 ^ Json.maxDigits - 1)) l ∧ l.Fits := by
      rintro ⟨l, hl', hfits⟩
      exact (hl.unique hl' ▸ hlong).not_fits hfits
    obtain ⟨f, hf, hiff, -⟩ := hfault hnone
    rwa [hiff.2 ⟨_, hl, hlong⟩] at hf

end PayloadFile

end UpdateSeal
