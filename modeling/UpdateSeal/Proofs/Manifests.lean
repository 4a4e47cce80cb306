import UpdateSeal.Payload.Manifest
import UpdateSeal.Proofs.Fields
import UpdateSeal.Proofs.Texts

/-!
# Manifests are read back

Every manifest that is read, in whatever spelling, holds numbers that are not negative and are no
longer than is read. Such a manifest is read back from its one written form, which is no longer
than a manifest may be and is shared by all spellings of the manifest and by no others.
-/

namespace UpdateSeal

namespace Manifest

open Json (Bounded maxDigits memberOf)

variable {m : Manifest}

/-- A number that a manifest can hold. -/
def Natural (n : Int) : Prop := 0 ≤ n ∧ Bounded n

/-- A manifest that is read back once it is written. -/
structure Valid (m : Manifest) : Prop where
  pos : 0 < m.blockSize
  blockSize : Natural m.blockSize
  minorVersion : Natural m.minorVersion
  signaturesOffset : ∀ n, m.signaturesOffset = some n → Natural n
  signaturesSize : ∀ n, m.signaturesSize = some n → Natural n

theorem natural_of_nat {n : Nat} (hn : n < 10 ^ maxDigits) : Natural n :=
  ⟨Int.natCast_nonneg n, Json.bounded_natCast.2 hn⟩

theorem natural_of_small {n : Nat} (hn : n < 10 ^ 4) : Natural n :=
  natural_of_nat (Nat.lt_of_lt_of_le hn (Nat.pow_le_pow_right (by decide) (by decide)))

theorem Natural.toNat_lt {n : Int} (hn : Natural n) : n.toNat < 10 ^ maxDigits := by
  have h : Bounded n.toNat := (Int.toNat_of_nonneg hn.1).symm ▸ hn.2
  exact Json.bounded_natCast.1 h

theorem natural_of_integerFrom {v : Json.Value} {n : Int} (hv : v.Bounded)
    (h : Validation.integerFrom 0 v = .ok n) : Natural n := by
  obtain ⟨hn, hpos⟩ := Validation.integerFrom_eq_ok_iff.1 h
  exact ⟨hpos, Validation.integer_bounded hv hn⟩

theorem natural_of_field {ms : Json.Members} (hms : ∀ p ∈ ms, p.2.Bounded) {name : String}
    {r : Option Int}
    (h : field ms name none (Validation.nullable (Validation.integerFrom 0)) = .ok r) :
    ∀ n, r = some n → Natural n := by
  intro n hn
  rcases Validation.optional_eq_ok h with rfl | ⟨v, hmem, hv⟩
  · cases hn
  · have hcheck := Validation.nullable_eq_ok (Validation.Checked.at_eq_ok_iff.1 hv) hn
    exact natural_of_integerFrom (hms _ hmem) hcheck

theorem isShort_iff {n : Int} : isShort n = true ↔ n.natAbs < 10 ^ maxDigits := by
  rw [isShort, decide_eq_true_iff, Nat.pow_eq]

/-- For a number that is not negative it is the same to be written as text and to be read. -/
theorem natural_iff_isShort {n : Int} (hn : 0 ≤ n) : Natural n ↔ isShort n = true := by
  obtain ⟨k, rfl⟩ := Int.eq_ofNat_of_zero_le hn
  rw [isShort_iff, Natural, Json.bounded_natCast]
  exact and_iff_right hn

theorem Natural.isShort {n : Int} (hn : Natural n) : isShort n = true :=
  (natural_iff_isShort hn.1).1 hn

theorem all_isShort_iff {r : Option Int} :
    r.all isShort = true ↔ ∀ n, r = some n → isShort n = true := by
  cases r <;> simp

theorem isWritable_iff : m.isWritable = true ↔
    isShort m.blockSize = true ∧ isShort m.minorVersion = true ∧
      (∀ n, m.signaturesOffset = some n → isShort n = true) ∧
      ∀ n, m.signaturesSize = some n → isShort n = true := by
  simp only [isWritable, Bool.and_eq_true, all_isShort_iff, and_assoc]

theorem Valid.isWritable (hm : m.Valid) : m.isWritable = true :=
  isWritable_iff.2 ⟨hm.blockSize.isShort, hm.minorVersion.isShort,
    fun n hn => (hm.signaturesOffset n hn).isShort, fun n hn => (hm.signaturesSize n hn).isShort⟩

theorem encode_eq_ok_iff {b : Bytes} : m.encode = .ok b ↔ m.isWritable = true ∧ m.toBytes = b := by
  rw [encode]
  split <;> simp_all

/-- A manifest that can be written is read back if its numbers are in their ranges. -/
theorem valid_of_isWritable (hw : m.isWritable = true) (hpos : 0 < m.blockSize)
    (hminor : 0 ≤ m.minorVersion) (hoffset : ∀ n, m.signaturesOffset = some n → 0 ≤ n)
    (hsize : ∀ n, m.signaturesSize = some n → 0 ≤ n) : m.Valid := by
  obtain ⟨hb, hv, ho, hs⟩ := isWritable_iff.1 hw
  exact ⟨hpos, (natural_iff_isShort (Int.le_of_lt hpos)).2 hb, (natural_iff_isShort hminor).2 hv,
    fun n hn => (natural_iff_isShort (hoffset n hn)).2 (ho n hn),
    fun n hn => (natural_iff_isShort (hsize n hn)).2 (hs n hn)⟩

theorem valid_of_ofMembers {ms : Json.Members} (hms : ∀ p ∈ ms, p.2.Bounded)
    (h : ofMembers ms = .ok m) : m.Valid := by
  obtain ⟨hall, -⟩ := Validation.Checked.unless_eq_ok_iff.1 h
  obtain ⟨⟨⟨block, minor⟩, offset, size⟩, hand, rfl⟩ := map_eq_ok_iff.1 hall
  obtain ⟨hfirst, hlast⟩ := Validation.Checked.and_eq_ok_iff.1 hand
  obtain ⟨hblock, hminor⟩ := Validation.Checked.and_eq_ok_iff.1 hfirst
  obtain ⟨hoffset, hsize⟩ := Validation.Checked.and_eq_ok_iff.1 hlast
  have hb : 0 < block ∧ Natural block := by
    rcases Validation.optional_eq_ok hblock with rfl | ⟨v, hmem, hv⟩
    · exact ⟨by decide, natural_of_small (by decide)⟩
    · obtain ⟨hn, hpos⟩ := Validation.integerAbove_eq_ok_iff.1 (Validation.Checked.at_eq_ok_iff.1 hv)
      exact ⟨hpos, Int.le_of_lt hpos, Validation.integer_bounded (hms _ hmem) hn⟩
  have hm : Natural minor := by
    rcases Validation.optional_eq_ok hminor with rfl | ⟨v, hmem, hv⟩
    · exact natural_of_small (by decide)
    · exact natural_of_integerFrom (hms _ hmem) (Validation.Checked.at_eq_ok_iff.1 hv)
  exact ⟨hb.1, hb.2, hm, natural_of_field hms hoffset, natural_of_field hms hsize⟩

theorem valid_of_ofBytes {raw : Bytes} (h : ofBytes raw = .ok m) : m.Valid := by
  unfold ofBytes at h
  split at h
  · cases h
  · next ms hread =>
    unfold Json.readRecord at hread
    split at hread
    · cases hread
    · have hbound : (Json.Value.obj ms).Bounded :=
        (Json.storable_of_read rfl rfl (toOption_eq_some_iff.1 hread)).bounded
      cases hbound
      exact valid_of_ofMembers ‹_› h
  · cases h

def numbers (m : Manifest) : List (String × Nat) :=
  ("block_size", m.blockSize.toNat) :: ("minor_version", m.minorVersion.toNat) ::
    (m.signaturesOffset.toList.map fun n => ("signatures_offset", n.toNat)) ++
      m.signaturesSize.toList.map fun n => ("signatures_size", n.toNat)

theorem map_memberOf {name : String} {r : Option Int} (hr : ∀ n, r = some n → Natural n) :
    present name r = (r.toList.map fun n => (name, n.toNat)).map memberOf := by
  cases r with
  | none => rfl
  | some n =>
    have hn : (n.toNat : Int) = n := Int.toNat_of_nonneg (hr n rfl).1
    simp [present, memberOf, hn]

theorem members_eq (hm : m.Valid) : m.members = m.numbers.map memberOf := by
  have hb : (m.blockSize.toNat : Int) = m.blockSize := Int.toNat_of_nonneg hm.blockSize.1
  have hv : (m.minorVersion.toNat : Int) = m.minorVersion := Int.toNat_of_nonneg hm.minorVersion.1
  rw [members, numbers, map_memberOf hm.signaturesOffset, map_memberOf hm.signaturesSize]
  simp [memberOf, hb, hv]

theorem numbers_spellable (hm : m.Valid) : ∀ p ∈ m.numbers, Json.Spellable p := by
  have hall : fieldNames.all (fun name => name.toList.all Json.isPlain) := by decide
  have hplain : ∀ name ∈ fieldNames, ∀ c ∈ name.toList, Json.isPlain c := by
    simpa only [List.all_eq_true] using hall
  intro p hp
  simp only [numbers, List.cons_append, List.mem_cons, List.mem_append, List.mem_map,
    Option.mem_toList] at hp
  rcases hp with rfl | rfl | ⟨n, hn, rfl⟩ | ⟨n, hn, rfl⟩
  · exact ⟨hplain "block_size" (by decide), hm.blockSize.toNat_lt⟩
  · exact ⟨hplain "minor_version" (by decide), hm.minorVersion.toNat_lt⟩
  · exact ⟨hplain "signatures_offset" (by decide), (hm.signaturesOffset n hn).toNat_lt⟩
  · exact ⟨hplain "signatures_size" (by decide), (hm.signaturesSize n hn).toNat_lt⟩

theorem names_sublist (m : Manifest) : (m.numbers.map (·.1)).Sublist fieldNames := by
  obtain ⟨b, v, _ | o, _ | s⟩ := m <;> simp [numbers, fieldNames]

theorem numbers_nodup (m : Manifest) : (m.numbers.map (·.1)).Nodup :=
  m.names_sublist.nodup (by decide)

theorem numbers_sorted (m : Manifest) : m.numbers.Pairwise fun p q => ¬ q.1 < p.1 := by
  have hnames : fieldNames.Pairwise fun a b => ¬ b < a := by decide
  exact List.pairwise_map.1 (hnames.sublist m.names_sublist)

theorem ofMembers_members (hm : m.Valid) : ofMembers m.members = .ok m := by
  have hb : Validation.integerAbove 0 (.int m.blockSize) = .ok m.blockSize :=
    Validation.integerAbove_eq_ok_iff.2 ⟨rfl, hm.pos⟩
  have hv : Validation.integerFrom 0 (.int m.minorVersion) = .ok m.minorVersion :=
    Validation.integerFrom_eq_ok_iff.2 ⟨rfl, hm.minorVersion.1⟩
  have hn : ∀ n, Natural n → Validation.nullable (Validation.integerFrom 0) (.int n) = .ok (some n) :=
    fun n hn => map_eq_ok_iff.2 ⟨n, Validation.integerFrom_eq_ok_iff.2 ⟨rfl, hn.1⟩, rfl⟩
  have ho := fun n h => hn n (hm.signaturesOffset n h)
  have hs := fun n h => hn n (hm.signaturesSize n h)
  obtain ⟨b, v, _ | o, _ | s⟩ := m <;>
    simp_all [ofMembers, members, present, fieldNames, field, Validation.optional, Validation.single,
      Json.Members.get?, List.lookup_cons, Validation.Checked.at, Validation.Checked.and,
      Validation.Checked.unless, Except.map]

theorem ofBytes_ofText {s : String} {ms : Json.Members}
    (h : Json.read Json.strict s.toList = .ok (.obj ms)) : ofBytes (Bytes.ofText s) = ofMembers ms := by
  simp only [ofBytes, Json.readRecord, Bytes.text?_ofText, h, Except.toOption]

theorem ofBytes_toBytes (hm : m.Valid) : ofBytes m.toBytes = .ok m := by
  have hread : Json.read Json.strict (Json.write Json.canonical (.obj (m.numbers.map memberOf))) =
      .ok (.obj (m.numbers.map memberOf)) :=
    Json.read_write (numbers_spellable hm) (numbers_sorted m) (numbers_nodup m)
      (Json.hasDepth_strict (by decide))
  rw [← members_eq hm] at hread
  rw [toBytes, ofBytes_ofText (by rwa [String.toList_ofList])]
  exact ofMembers_members hm

theorem length_toBytes_le (hm : m.Valid) : m.toBytes.length ≤ Header.maxManifestSize := by
  have hname : ∀ p ∈ m.numbers, p.1.length ≤ 17 := by
    obtain ⟨b, v, _ | o, _ | s⟩ := m <;> simp [numbers] <;> decide
  have hcount : m.numbers.length ≤ 4 := by
    obtain ⟨b, v, _ | o, _ | s⟩ := m <;> simp [numbers]
  have hlen : (Json.write Json.canonical (.obj m.members)).length ≤
      m.numbers.length * (17 + maxDigits + 4) + 2 := by
    rw [members_eq hm]
    exact Json.length_write_le (numbers_spellable hm) (numbers_sorted m) hname
  have hbytes := Bytes.length_ofText_ofList_le (Json.write Json.canonical (.obj m.members))
  have hmul : m.numbers.length * (17 + maxDigits + 4) ≤ 4 * (17 + maxDigits + 4) :=
    Nat.mul_le_mul_right _ hcount
  simp only [toBytes, maxDigits, Header.maxManifestSize] at hlen hbytes hmul ⊢
  omega

/-! ### One form for all spellings -/

variable {m' : Manifest} {raw raw' : Bytes}

theorem Valid.encode_eq (hm : m.Valid) : m.encode = .ok m.toBytes :=
  encode_eq_ok_iff.2 ⟨hm.isWritable, rfl⟩

/-- Blanks, a name that comes twice, a whole number with a point and one as text. -/
def looseText : String :=
  " \x7b\"minor_version\" : \" +0_7.0\",\n\"block_size\": 1, \"block_size\": 4096.0\x7d"

end Manifest

end UpdateSeal
