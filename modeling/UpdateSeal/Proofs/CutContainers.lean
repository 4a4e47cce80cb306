import UpdateSeal.Proofs.Grammar

/-!
# Cut containers

A message that is broken off is scanned into its first fields, the ones that are still whole, and
the scan has a fault unless the cut stands between two fields. So a container that is cut between
two of its entries gives the entries in front of the cut, and one that is cut anywhere else is
refused for its framing. No cut gives an entry that was not there.
-/

namespace UpdateSeal

namespace Wire

theorem Field.Fits.spells {f : Field} (hf : f.Fits) : f.Spells f.encode := by
  have hread : readField 0 (f.encode ++ []) = .ok (f, []) := readField_encode 0 hf []
  obtain ⟨front, hfront, heq⟩ := readField_eq_ok_iff.1 hread
  rw [List.append_cancel_right heq]
  exact hfront

/-- A field with the bytes it is written as. -/
def Field.part (f : Field) : Field × Bytes := (f, f.encode)

theorem factors_encode {fs : List Field} (hf : ∀ f ∈ fs, f.Fits) :
    Factors (fs.map Field.part) (fs.flatMap Field.encode) := by
  refine ⟨fun p hp => ?_, by rw [List.flatMap_map]; rfl⟩
  obtain ⟨f, hmem, rfl⟩ := List.mem_map.1 hp
  exact (hf f hmem).spells

/-- The parts of a message that stands at the front of another are the first parts of that one. -/
theorem Factors.take_of_append {parts parts' : List (Field × Bytes)} {b b' rest : Bytes}
    (h : Factors parts b) (h' : Factors parts' b') (hb : b ++ rest = b') :
    parts = parts'.take parts.length := by
  induction parts generalizing parts' b b' with
  | nil => rfl
  | cons p parts ih =>
    obtain ⟨hp, tail, htail, rfl⟩ := factors_cons_iff.1 h
    cases parts' with
    | nil =>
      rw [h'.2, List.append_assoc] at hb
      exact absurd (List.append_eq_nil_iff.1 hb).1 hp.ne_nil
    | cons p' parts' =>
      obtain ⟨hp', tail', htail', rfl⟩ := factors_cons_iff.1 h'
      -- fields delimit themselves, so both messages begin with the same one
      rw [List.append_assoc] at hb
      obtain ⟨hfield, hbytes, hrest⟩ := hp.inj hp' hb
      rw [List.length_cons, List.take_succ_cons, ← Prod.ext hfield hbytes, ← ih htail htail' hrest]

/-- What a scan finds stands at the front of what it goes through, and only a scan that comes to
the end has no fault. -/
theorem exists_factors_of_scanFrom (size : Nat) (b : Bytes) :
    ∃ parts front rest, Factors parts front ∧ b = front ++ rest ∧
      (scanFrom size b).fields = parts.map Prod.fst ∧
      ((scanFrom size b).fault = none → rest = []) := by
  fun_induction scanFrom size b with
  | case1 b hb => exact ⟨[], [], b, ⟨by simp, rfl⟩, rfl, rfl, fun _ => List.isEmpty_iff.1 hb⟩
  | case2 b hb e hread => exact ⟨[], [], b, ⟨by simp, rfl⟩, rfl, rfl, fun h => by cases h⟩
  | case3 b hb f tail hread scan ih =>
    obtain ⟨first, hfirst, rfl⟩ := readField_eq_ok_iff.1 hread
    obtain ⟨parts, front, rest, hparts, rfl, hfields, hfault⟩ := ih
    refine ⟨(f, first) :: parts, first ++ front, rest, ?_, (List.append_assoc _ _ _).symm, ?_, hfault⟩
    · exact factors_cons_iff.2 ⟨hfirst, front, hparts, rfl⟩
    · rw [List.map_cons, ← hfields]

/-- A message that is broken off is scanned into its first fields. Without a fault it is the message
of these fields. -/
theorem scan_of_cut {fs : List Field} (hf : ∀ f ∈ fs, f.Fits) {p : Bytes}
    (hp : p <+: fs.flatMap Field.encode) :
    ∃ k, (scan p).fields = fs.take k ∧
      ((scan p).fault = none → p = (fs.take k).flatMap Field.encode) := by
  obtain ⟨parts, front, rest, hparts, hsplit, hfields, hfault⟩ :=
    exists_factors_of_scanFrom p.length p
  obtain ⟨behind, hbehind⟩ := hp
  rw [hsplit, List.append_assoc] at hbehind
  have htake : parts = (fs.take parts.length).map Field.part := by
    rw [List.map_take]
    exact hparts.take_of_append (factors_encode hf) hbehind
  refine ⟨parts.length, ?_, fun hnone => ?_⟩
  · calc (scan p).fields = ((fs.take parts.length).map Field.part).map Prod.fst := by
          rw [← htake]
          exact hfields
      _ = fs.take parts.length := by
          rw [List.map_map]
          exact List.map_id _
  · have hfront := hparts.2
    rw [htake, List.flatMap_map] at hfront
    rw [hsplit, hfault hnone, List.append_nil]
    exact hfront

end Wire

namespace Container

/-- The entries in front of the cut are taken into account one by one, so only the framing can be
at fault. -/
theorem decode_of_fields {entries : List Signature} (hs : ∀ s ∈ entries, Fits s) {p : Bytes}
    (hfields : (Wire.scan p).fields = entries.map entryOf) :
    decode p = match (Wire.scan p).fault with
      | none => .ok entries
      | some e => .error (.wire e) := by
  rw [decode, readFields, hfields, foldlM_applyEntry hs]
  cases (Wire.scan p).fault with
  | none => simp [bind, Except.bind, pure, Except.pure, Except.map]
  | some e => rfl

theorem decode_of_front {entries : List Signature} (hs : ∀ s ∈ entries, Fits s) {p : Bytes}
    (hp : p <+: encode entries) :
    ∃ k, (p = encode (entries.take k) ∧ decode p = .ok (entries.take k)) ∨
      ∃ e, decode p = .error (.wire e) := by
  rw [encode_eq] at hp
  obtain ⟨k, hfields, hfault⟩ := Wire.scan_of_cut (fits_entryOf hs) hp
  rw [← List.map_take] at hfields hfault
  have hdecode := decode_of_fields (fun s hmem => hs s (List.mem_of_mem_take hmem)) hfields
  cases hcase : (Wire.scan p).fault with
  | none =>
    rw [hcase] at hdecode
    exact ⟨k, .inl ⟨(hfault hcase).trans (encode_eq _).symm, hdecode⟩⟩
  | some e =>
    rw [hcase] at hdecode
    exact ⟨k, .inr ⟨e, hdecode⟩⟩

/-- A container that is broken off between two entries gives the entries in front of the cut, and
one that is broken off anywhere else is refused for its framing. -/
theorem decode_of_cut {entries : List Signature} (hs : ∀ s ∈ entries, s.data.Addressable)
    {p : Bytes} (hp : p <+: encode entries) :
    (∀ k, p = encode (entries.take k) → decode p = .ok (entries.take k)) ∧
      ((¬ ∃ k, p = encode (entries.take k)) → ∃ e, decode p = .error (.wire e)) := by
  have hfits : ∀ s ∈ entries, Fits s := fun s hmem => fits_of_addressable (hs s hmem)
  refine ⟨fun k hk => ?_, fun hcut => ?_⟩
  · rw [hk]
    exact decode_encode fun s hmem => hfits s (List.mem_of_mem_take hmem)
  · obtain ⟨k, ⟨hk, -⟩ | herror⟩ := decode_of_front hfits hp
    · exact absurd ⟨k, hk⟩ hcut
    · exact herror

theorem decode_of_two_entries_cut :
    decode [10, 5, 8, 1, 18, 1, 7] = .ok [⟨1, [7]⟩] ∧
      ∃ e, decode [10, 5, 8, 1, 18, 1, 7, 10, 6] = .error (.wire e) := by
  obtain ⟨hone, htwo⟩ : encode [⟨1, [7]⟩] = [10, 5, 8, 1, 18, 1, 7] ∧
      encode [⟨1, [7]⟩, ⟨2, [8, 9]⟩] = [10, 5, 8, 1, 18, 1, 7, 10, 6, 8, 2, 18, 2, 8, 9] := by
    simp [encode_eq, entryOf, encodeEntry, Wire.Field.encode, Wire.key, Wire.Value.encode,
      Wire.Value.wireType, Varint.encode_of_lt, entriesField, versionField, dataField]
  have hs : ∀ s ∈ [(⟨1, [7]⟩ : Signature), ⟨2, [8, 9]⟩], s.data.Addressable := by
    simp [Bytes.Addressable]
  refine ⟨(decode_of_cut hs ?_).1 1 hone.symm, (decode_of_cut hs ?_).2 ?_⟩
  · rw [htwo]
    decide
  · rw [htwo]
    decide
  · rintro ⟨_ | _ | k, hk⟩
    · simp [encode] at hk
    · simp [hone] at hk
    · simp [htwo] at hk

end Container

end UpdateSeal
