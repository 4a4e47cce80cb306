import UpdateSeal.Proofs.Observations
import UpdateSeal.Proofs.Plans

/-!
# What embedding leaves behind

Embedding copies the data that a manifest declares. Where the manifest says how long the data is,
bytes behind the declared payload signature are not copied, and neither are any bytes behind the
data if no signature is declared there. They make no difference to what is written.
-/

namespace UpdateSeal

open UpdateSeal.Action

namespace Layout.Splits

variable {l : Layout} {F md sig data tail tail' : Bytes}

/-- Behind the data there is the declared payload signature, and the rest of the file. -/
theorem exists_region (hs : l.Splits F md sig data tail) :
    ∃ region rest, tail = region ++ rest ∧
      l.payloadSignatureRegion = .ok (if region = [] then none
        else some ⟨md.length + sig.length + data.length, region.length⟩) ∧
      ∀ offset n, l.manifest.signaturesOffset = some offset → l.manifest.signaturesSize = some n →
        n = region.length := by
  cases ho : l.manifest.signaturesOffset with
  | none =>
    refine ⟨[], tail, rfl, ?_, fun _ _ h => by cases h⟩
    rw [payloadSignatureRegion, ho, if_pos rfl]
  | some offset =>
    cases hn : l.manifest.signaturesSize with
    | none =>
      refine ⟨[], tail, rfl, ?_, fun _ _ _ h => by cases h⟩
      rw [payloadSignatureRegion, ho, hn, if_pos rfl]
    | some n =>
      have hle := hs.size_le offset n ho hn
      have hpos := (hs.manifest_valid.signaturesSize n hn).1
      have hlen : ((tail.take n.toNat).length : Int) = n := by
        rw [List.length_take]
        omega
      refine ⟨tail.take n.toNat, tail.drop n.toNat, (List.take_append_drop _ _).symm, ?_, ?_⟩
      · have hz : n = 0 ↔ tail.take n.toNat = [] := by
          rw [← List.length_eq_zero_iff]
          omega
        simp only [payloadSignatureRegion, ho, hn, hs.dataOffset_eq, ok_bind, hlen]
        rw [hs.offset_eq offset ho]
        by_cases h0 : n = 0
        · rw [if_pos h0, if_pos (hz.1 h0)]
        · rw [if_neg h0, if_neg (mt hz.2 h0)]
          rfl
      · intro _ _ _ h
        cases h
        exact hlen.symm

/-- A manifest that says how long the data is holds for any other bytes behind it, as long as there
are enough for the payload signature. -/
theorem with_tail (hs : l.Splits F md sig data tail) (ho : l.manifest.signaturesOffset ≠ none)
    (hsize : ∀ offset n, l.manifest.signaturesOffset = some offset →
      l.manifest.signaturesSize = some n → n ≤ tail'.length) :
    Splits { l with fileSize := (md ++ sig ++ data ++ tail').length } (md ++ sig ++ data ++ tail')
      md sig data tail' where
  content_eq := rfl
  fileSize_eq := rfl
  header_valid := hs.header_valid
  metadata_eq := hs.metadata_eq
  signature_length := hs.signature_length
  offset_eq := hs.offset_eq
  tail_nil := fun hn => absurd hn ho
  size_le := hsize

end Layout.Splits

namespace PayloadFile

variable {path out : Path} {S M : Option Bytes} {h h' : Host} {P : Bytes} {l' : Layout}

/-- A payload on which embedding succeeds consists of header and manifest, metadata signature, data,
payload signature, and a rest. The output has its data, and the rest makes no difference to it. There
is no rest where the manifest does not say how long the data is. -/
theorem embedSignatures_drops_rest (hr : h.Holds path P)
    (hw : runOn (embedSignatures path S M out) h = (.ok l', h')) :
    ∃ l md sig data region rest metadata, Layout.ofContent path.text P = .ok l ∧
      l.Splits P md sig data (region ++ rest) ∧
      l.payloadSignatureRegion = .ok (if region = [] then none
        else some ⟨md.length + sig.length + data.length, region.length⟩) ∧
      l'.Splits (metadata ++ M.getD [] ++ data ++ S.getD []) metadata (M.getD []) data (S.getD []) ∧
      h'.Holds out (metadata ++ M.getD [] ++ data ++ S.getD []) ∧
      (l.manifest.signaturesOffset = none → region ++ rest = []) ∧
      (l.manifest.signaturesOffset ≠ none → ∀ rest' g g₁,
        g.Holds path (md ++ sig ++ data ++ (region ++ rest')) →
        runOn (writeAtomically out (metadata ++ M.getD [] ++ data ++ S.getD [])) g = (.ok (), g₁) →
          Returns (embedSignatures path S M out) g l' g₁) := by
  obtain ⟨s, rfl⟩ := some_of_embedSignatures hw
  obtain ⟨F, l, md, sig, data, tail, hF, hl, hs⟩ := exists_of_embedSignatures hw
  obtain rfl : F = P := Except.ok.inj (hF.symm.trans hr)
  obtain ⟨region, rest, rfl, hregion, hsize⟩ := hs.exists_region
  obtain ⟨metadata, he, hholds⟩ := exists_embeds hr hs hw
  refine ⟨l, md, sig, data, region, rest, metadata, hl, hs, hregion, he.splits, hholds, hs.tail_nil,
    ?_⟩
  intro ho rest' g g₁ hg hwrite log
  obtain ⟨hm, hp, hreserved, hparts⟩ := (embedSignatures_eq_ok_iff hr hl hs hregion).1 hw
  obtain ⟨metadata', header, -, -, hb, hheader, rfl, -, -⟩ := writeParts_eq_ok hparts
  obtain rfl := Except.ok.inj (he.metadata_eq.symm.trans hb)
  obtain ⟨log', hparts⟩ := returns_writeParts hb hheader hwrite log
  have hg : ({ g with log } : Host).Holds path (md ++ sig ++ data ++ (region ++ rest')) := hg
  have hsize' : ∀ offset n, l.manifest.signaturesOffset = some offset →
      l.manifest.signaturesSize = some n → n ≤ (region ++ rest').length := by
    intro offset n ho hn
    rw [hsize offset n ho hn, List.length_append]
    omega
  have hs' := hs.with_tail ho hsize'
  -- where the payload signature lies does not depend on the size of the file
  have hregion' : Layout.payloadSignatureRegion
      { l with fileSize := (md ++ sig ++ data ++ (region ++ rest')).length } = _ := hregion
  exact ⟨log', (embedSignatures_eq_ok_iff hg (hs'.ofContent_eq _) hs' hregion').2
    ⟨hm, hp, hreserved, hparts⟩⟩

/-- Nothing tells a payload with a byte behind its signature from one without. -/
theorem smallPayload_drops_rest :
    ∃ l' h' g₁ b,
      runOn (embedSignatures ⟨false, ["payload"]⟩ (some (List.replicate 7 1)) none
        ⟨false, ["signed"]⟩) (Plan.payloadHost (Layout.smallPayload 0)) = (.ok l', h') ∧
      Returns (embedSignatures ⟨false, ["payload"]⟩ (some (List.replicate 7 1)) none
        ⟨false, ["signed"]⟩) (Plan.payloadHost (Layout.smallPayload 0 ++ [9])) l' g₁ ∧
      h'.Holds ⟨false, ["signed"]⟩ b ∧ g₁.Holds ⟨false, ["signed"]⟩ b := by
  obtain ⟨l', h', hembed⟩ := Plan.smallPayload_embedSignatures
  obtain ⟨l, md, sig, data, region, rest, metadata, hl, hs, -, -, hholds, -, hdrops⟩ :=
    embedSignatures_drops_rest (Plan.payloadHost_holds _) hembed
  have hsmall := (Layout.smallPayload_splits 0).ofContent_eq "payload"
  obtain rfl := Except.ok.inj (hsmall.symm.trans hl)
  have hcontent : Layout.smallPayload 0 ++ [9] =
      md ++ sig ++ data ++ (region ++ (rest ++ [9])) := by
    rw [hs.content_eq, List.append_assoc, List.append_assoc region]
  have hread : (Plan.payloadHost (Layout.smallPayload 0 ++ [9])).Holds ⟨false, ["payload"]⟩
      (md ++ sig ++ data ++ (region ++ (rest ++ [9]))) := by
    rw [← hcontent]
    exact Plan.payloadHost_holds _
  obtain ⟨g₁, hwrite⟩ := Plan.payloadHost_writeAtomically (Layout.smallPayload 0 ++ [9])
    (metadata ++ [] ++ data ++ List.replicate 7 1)
  have hreturns := hdrops nofun (rest ++ [9]) _ g₁ hread hwrite
  exact ⟨l', h', g₁, _, hembed, hreturns, hholds, holds_of_writeAtomically hwrite⟩

end PayloadFile

end UpdateSeal
