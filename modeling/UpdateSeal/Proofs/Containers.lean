import UpdateSeal.Container.Signature
import UpdateSeal.Proofs.Numerals

/-!
# Containers are read back

A numeral, a field and a whole message are read back from what was written, whatever follows them.
So a container gives the signatures it was made of, in order, and its size is the one that is
predicted from the sizes of its signatures.
-/

namespace UpdateSeal

namespace Varint

theorem encode_of_lt {n : Nat} (h : n < 128) : encode n = [UInt8.ofNat n] := by
  rw [encode, if_pos h]

theorem encode_of_le {n : Nat} (h : 128 ≤ n) :
    encode n = UInt8.ofNat (n % 128 + 128) :: encode (n / 128) := by
  rw [encode, if_neg (by omega)]

theorem encode_ne_nil (n : Nat) : encode n ≠ [] := by
  rw [encode]
  split <;> simp

theorem length_encode_le (n : Nat) : (encode n).length ≤ n + 1 := by
  induction n using encode.induct with
  | case1 n h => simp [encode_of_lt h]
  | case2 n h ih =>
    rw [encode_of_le (by omega), List.length_cons]
    omega

theorem decodeWithin_encode_of_lt {n : Nat} (h : n < 128) (limit : Nat) (rest : Bytes) :
    decodeWithin (limit + 1) (encode n ++ rest) = .ok (n, rest) := by
  have hn : (UInt8.ofNat n).toNat = n := by
    rw [UInt8.toNat_ofNat']
    omega
  have hc : UInt8.ofNat n < 128 := by
    rw [UInt8.lt_iff_toNat_lt, hn]
    exact h
  rw [encode_of_lt h, List.singleton_append, decodeWithin, if_pos hc, hn]

/-- Behind the first byte of a longer numeral stands the numeral of the higher groups. -/
theorem decodeWithin_encode_of_le {n : Nat} (h : 128 ≤ n) (limit : Nat) (rest : Bytes) :
    decodeWithin (limit + 1) (encode n ++ rest) =
      (decodeWithin limit (encode (n / 128) ++ rest)).map
        fun r => (n % 128 + 128 * r.1, r.2) := by
  have hb : (UInt8.ofNat (n % 128 + 128)).toNat = n % 128 + 128 := by
    rw [UInt8.toNat_ofNat']
    omega
  have hc : ¬ UInt8.ofNat (n % 128 + 128) < 128 := by
    rw [UInt8.lt_iff_toNat_lt, hb]
    simp
  have hv : (n % 128 + 128) % 128 = n % 128 := by omega
  rw [encode_of_le h, List.cons_append, decodeWithin, if_neg hc, hb, hv]
  cases decodeWithin limit (encode (n / 128) ++ rest) <;> rfl

theorem decodeWithin_encode {limit n : Nat} (hn : n < 128 ^ (limit + 1)) (rest : Bytes) :
    decodeWithin (limit + 1) (encode n ++ rest) = .ok (n, rest) := by
  induction limit generalizing n with
  | zero => exact decodeWithin_encode_of_lt (by simpa using hn) 0 rest
  | succ limit ih =>
    by_cases h : n < 128
    · exact decodeWithin_encode_of_lt h _ rest
    · have hd : n / 128 < 128 ^ (limit + 1) := by
        rw [Nat.pow_succ] at hn
        omega
      have hv : n % 128 + 128 * (n / 128) = n := by omega
      rw [decodeWithin_encode_of_le (by omega), ih hd, Except.map, hv]

theorem decodeWithin_encode_tooLong {limit n : Nat} (hn : 128 ^ limit ≤ n) (rest : Bytes) :
    decodeWithin limit (encode n ++ rest) = .error .tooLong := by
  induction limit generalizing n with
  | zero => rfl
  | succ limit ih =>
    have hle : 128 ≤ n := Nat.le_trans (Nat.le_self_pow (Nat.succ_ne_zero limit) 128) hn
    have hd : 128 ^ limit ≤ n / 128 := by
      rw [Nat.pow_succ] at hn
      omega
    rw [decodeWithin_encode_of_le hle, ih hd]
    rfl

theorem decode_encode {n : Nat} (hn : n < 2 ^ 70) (rest : Bytes) :
    decode (encode n ++ rest) = .ok (n, rest) :=
  decodeWithin_encode hn rest

theorem decode_encode_tooLong {n : Nat} (hn : 2 ^ 70 ≤ n) (rest : Bytes) :
    decode (encode n ++ rest) = .error .tooLong :=
  decodeWithin_encode_tooLong hn rest

end Varint

namespace Wire

/-- A value whose numerals are read back and whose width is that of its wire type. -/
def Value.Fits : Value → Prop
  | .varint n => n < 2 ^ 70
  | .fixed64 b => b.length = 8
  | .delimited b => b.length < 2 ^ 70
  | .fixed32 b => b.length = 4

/-- A field that is read back. -/
def Field.Fits (f : Field) : Prop := f.number ≠ 0 ∧ 8 * f.number + 7 < 2 ^ 70 ∧ f.value.Fits

theorem cut?_append (b rest : Bytes) : (b ++ rest).cut? b.length = some (b, rest) :=
  Bytes.cut?_eq_some_iff.2 ⟨rfl, rfl⟩

theorem readVarint_encode {n : Nat} (hn : n < 2 ^ 70) (rest : Bytes) :
    readVarint (Varint.encode n ++ rest) = .ok (n, rest) := by
  rw [readVarint, Varint.decode_encode hn]

theorem Value.wireType_lt (v : Value) : v.wireType < 8 := by
  cases v <;> simp [wireType]

theorem readFixed_append {number width : Nat} {wrap : Bytes → Value} {b : Bytes}
    (hb : b.length = width) (rest : Bytes) :
    readFixed number width wrap (b ++ rest) = .ok (wrap b, rest) := by
  rw [readFixed, ← hb, cut?_append]

theorem readValue_encode (size number : Nat) {v : Value} (hv : v.Fits) (rest : Bytes) :
    readValue size number v.wireType (v.encode ++ rest) = .ok (v, rest) := by
  cases v with
  | varint n =>
    simp only [Value.wireType, Value.encode, readValue, readVarint_encode hv]
    rfl
  | fixed64 b => exact readFixed_append hv rest
  | delimited b =>
    simp only [Value.wireType, Value.encode, readValue, List.append_assoc, readVarint_encode hv,
      bind, Except.bind, cut?_append]
    rfl
  | fixed32 b => exact readFixed_append hv rest

theorem readField_encode (size : Nat) {f : Field} (hf : f.Fits) (rest : Bytes) :
    readField size (f.encode ++ rest) = .ok (f, rest) := by
  obtain ⟨h0, hk, hv⟩ := hf
  have ht := f.value.wireType_lt
  have hdiv : (8 * f.number + f.value.wireType) / 8 = f.number := by omega
  have hmod : (8 * f.number + f.value.wireType) % 8 = f.value.wireType := by omega
  rw [Field.encode, key, List.append_assoc, readField, readVarint_encode (by omega)]
  simp only [bind, Except.bind, hdiv, hmod, if_neg h0, readValue_encode size f.number hv]
  rfl

theorem Field.encode_ne_nil (f : Field) : f.encode ≠ [] :=
  List.append_ne_nil_of_left_ne_nil (Varint.encode_ne_nil _) _

theorem scanFrom_encode (size : Nat) {fs : List Field} (hf : ∀ f ∈ fs, f.Fits) :
    scanFrom size (fs.flatMap Field.encode) = ⟨fs, none⟩ := by
  induction fs with
  | nil =>
    rw [scanFrom]
    rfl
  | cons f fs ih =>
    have hne : (f.encode ++ fs.flatMap Field.encode).isEmpty = false := by
      simp [f.encode_ne_nil]
    have hread := readField_encode size (hf f List.mem_cons_self) (fs.flatMap Field.encode)
    rw [List.flatMap_cons, scanFrom, hne, if_neg Bool.false_ne_true]
    split
    · next h => simp [hread] at h
    · next h =>
      rw [hread] at h
      cases h
      rw [ih fun f hf' => hf f (List.mem_cons_of_mem _ hf')]

theorem scan_encode {fs : List Field} (hf : ∀ f ∈ fs, f.Fits) :
    scan (fs.flatMap Field.encode) = ⟨fs, none⟩ :=
  scanFrom_encode _ hf

end Wire

namespace Container

def versionOf (s : Signature) : Wire.Field := ⟨versionField, .varint s.version.toNat⟩

def dataOf (s : Signature) : Wire.Field := ⟨dataField, .delimited s.data⟩

def entryOf (s : Signature) : Wire.Field := ⟨entriesField, .delimited (encodeEntry s)⟩

theorem encodeEntry_eq (s : Signature) :
    encodeEntry s = [versionOf s, dataOf s].flatMap Wire.Field.encode := by
  simp [encodeEntry, versionOf, dataOf]

theorem encode_eq (entries : List Signature) :
    encode entries = (entries.map entryOf).flatMap Wire.Field.encode := by
  rw [encode, List.flatMap_map]
  rfl

theorem decodeEntry_encodeEntry {s : Signature} (hs : s.data.length < 2 ^ 70) :
    decodeEntry (encodeEntry s) = .ok s := by
  have hv : s.version.toNat < 2 ^ 32 := s.version.toNat_lt
  have hf : ∀ f ∈ [versionOf s, dataOf s], f.Fits := by
    intro f hf
    rw [List.mem_cons, List.mem_singleton] at hf
    rcases hf with rfl | rfl
    · exact ⟨Nat.one_ne_zero, by simp [versionOf, versionField], Nat.lt_trans hv (by decide)⟩
    · exact ⟨by simp [dataOf, dataField], by simp [dataOf, dataField], hs⟩
  have hread : applyField ⟨0, []⟩ (versionOf s) = .ok ⟨s.version, []⟩ := by
    apply (if_pos hv).trans
    rw [UInt32.ofNat_toNat]
  have hdata : applyField ⟨s.version, []⟩ (dataOf s) = .ok s := rfl
  rw [decodeEntry, encodeEntry_eq, Wire.scan_encode hf, readFields, List.foldlM_cons, hread]
  simp only [List.foldlM_cons, List.foldlM_nil, hdata, bind, Except.bind, pure, Except.pure]

/-- An entry that is read back: its body is no longer than a numeral can say. -/
def Fits (s : Signature) : Prop := (encodeEntry s).length < 2 ^ 70

theorem data_length_le (s : Signature) : s.data.length ≤ (encodeEntry s).length := by
  simp [encodeEntry, Wire.Field.encode, Wire.Value.encode]
  omega

theorem applyEntry_entryOf {s : Signature} (hs : Fits s) (entries : List Signature) :
    applyEntry entries (entryOf s) = .ok (s :: entries) := by
  have hd : s.data.length < 2 ^ 70 := Nat.lt_of_le_of_lt (data_length_le s) hs
  simp [applyEntry, entryOf, decodeEntry_encodeEntry hd, Except.map]

theorem foldlM_applyEntry {entries : List Signature} (hs : ∀ s ∈ entries, Fits s)
    (done : List Signature) :
    (entries.map entryOf).foldlM applyEntry done = .ok (entries.reverse ++ done) := by
  induction entries generalizing done with
  | nil => rfl
  | cons s entries ih =>
    rw [List.map_cons, List.foldlM_cons, applyEntry_entryOf (hs s List.mem_cons_self)]
    simp only [bind, Except.bind]
    rw [ih fun s hs' => hs s (List.mem_cons_of_mem _ hs')]
    simp

theorem fits_entryOf {entries : List Signature} (hs : ∀ s ∈ entries, Fits s) :
    ∀ f ∈ entries.map entryOf, f.Fits := by
  intro f hf
  obtain ⟨s, hmem, rfl⟩ := List.mem_map.1 hf
  exact ⟨Nat.one_ne_zero, by simp [entryOf, entriesField], hs s hmem⟩

/-- A container is read back as the signatures it was made of, in order. -/
theorem decode_encode {entries : List Signature} (hs : ∀ s ∈ entries, Fits s) :
    decode (encode entries) = .ok entries := by
  rw [decode, encode_eq, Wire.scan_encode (fits_entryOf hs), readFields, foldlM_applyEntry hs]
  simp [bind, Except.bind, pure, Except.pure, Except.map]

theorem readField_encode_of_not_fits {s : Signature} (hs : ¬ Fits s) (size : Nat)
    (entries : List Signature) :
    Wire.readField size (encode (s :: entries)) = .error (.varint .tooLong) := by
  have hkey : 8 * entriesField + 2 < 2 ^ 70 := by decide
  have hnumber : ¬ (8 * entriesField + 2) / 8 = 0 := by decide
  have hbody : 2 ^ 70 ≤ (encodeEntry s).length := Nat.le_of_not_lt hs
  simp only [encode_eq, List.map_cons, List.flatMap_cons, entryOf, Wire.Field.encode, Wire.key,
    Wire.Value.encode, Wire.Value.wireType, List.append_assoc]
  rw [Wire.readField, Wire.readVarint_encode hkey]
  simp only [bind, Except.bind, if_neg hnumber]
  rw [entriesField, Wire.readValue, Wire.readVarint, Varint.decode_encode_tooLong hbody]
  rfl

/-- A container is refused where its first entry is longer than a numeral can say. -/
theorem decode_encode_of_not_fits {s : Signature} (hs : ¬ Fits s) (entries : List Signature) :
    decode (encode (s :: entries)) = .error (.wire (.varint .tooLong)) := by
  have hread := readField_encode_of_not_fits hs (encode (s :: entries)).length entries
  have hne : (encode (s :: entries)).isEmpty = false := by
    simp [encode_eq, (entryOf s).encode_ne_nil]
  have hscan : Wire.scan (encode (s :: entries)) = ⟨[], some (.varint .tooLong)⟩ := by
    rw [Wire.scan, Wire.scanFrom, hne, if_neg Bool.false_ne_true]
    split
    · next h => rw [Except.error.inj (h.symm.trans hread)]
    · next h => cases h.symm.trans hread
  rw [decode, hscan]
  rfl

theorem fits_of_addressable {s : Signature} (hs : s.data.Addressable) : Fits s := by
  have hv := Varint.length_encode_le s.version.toNat
  have hd := Varint.length_encode_le s.data.length
  have hv' : s.version.toNat < 2 ^ 32 := s.version.toNat_lt
  have hkv := Varint.length_encode_le (8 * versionField + 0)
  have hkd := Varint.length_encode_le (8 * dataField + 2)
  simp only [Bytes.Addressable] at hs
  simp only [versionField, dataField] at hkv hkd
  simp only [Fits, encodeEntry, Wire.Field.encode, Wire.key, Wire.Value.encode, Wire.Value.wireType,
    List.length_append, versionField, dataField]
  omega

/-- Signatures of any versions and data are read back in order. -/
theorem decode_encode_of_addressable {entries : List Signature}
    (hs : ∀ s ∈ entries, s.data.Addressable) : decode (encode entries) = .ok entries :=
  decode_encode fun s hmem => fits_of_addressable (hs s hmem)

theorem decode_encode_mixed :
    decode (encode [⟨4294967295, [8, 1, 18]⟩, ⟨0, []⟩, ⟨1, [10, 4]⟩]) =
      .ok [⟨4294967295, [8, 1, 18]⟩, ⟨0, []⟩, ⟨1, [10, 4]⟩] := by
  apply decode_encode_of_addressable
  simp [Bytes.Addressable]

/-! ### Predicted sizes -/

theorem length_entryOf {s : Signature} (hs : s.version = Signature.currentVersion) :
    (entryOf s).encode.length = entryLength s.data.length := by
  have hbody : (encodeEntry s).length =
      (Wire.key versionField 0).length + Varint.length Signature.currentVersion.toNat +
        (Wire.key dataField 2).length + Varint.length s.data.length + s.data.length := by
    simp only [encodeEntry, Wire.Field.encode, Wire.Value.encode, Wire.Value.wireType,
      List.length_append, Varint.length, hs]
    omega
  simp only [entryOf, Wire.Field.encode, Wire.Value.encode, Wire.Value.wireType, List.length_append,
    entryLength, hbody, Varint.length]
  omega

theorem length_encode {entries : List Signature}
    (hs : ∀ s ∈ entries, s.version = Signature.currentVersion) :
    (encode entries).length = (entries.map fun s => entryLength s.data.length).sum := by
  induction entries with
  | nil => rfl
  | cons s entries ih =>
    rw [encode_eq, List.map_cons, List.flatMap_cons, List.length_append,
      length_entryOf (hs s List.mem_cons_self), ← encode_eq,
      ih fun s hs' => hs s (List.mem_cons_of_mem _ hs'), List.map_cons, List.sum_cons]

theorem foldlM_entryLength {sizes : List Int} (hs : ∀ size ∈ sizes, 0 < size) (total : Nat) :
    sizes.foldlM (fun total size =>
      if size ≤ 0 then Except.error size else .ok (total + entryLength size.toNat)) total =
      .ok (total + (sizes.map fun size => entryLength size.toNat).sum) := by
  induction sizes generalizing total with
  | nil => simp [pure, Except.pure]
  | cons size sizes ih =>
    have hpos : ¬ size ≤ 0 := by
      have := hs size List.mem_cons_self
      omega
    rw [List.foldlM_cons, if_neg hpos]
    simp only [bind, Except.bind]
    rw [ih fun size hs' => hs size (List.mem_cons_of_mem _ hs'), List.map_cons, List.sum_cons,
      Nat.add_assoc]

theorem encodedLength_of_pos {sizes : List Int} (hs : ∀ size ∈ sizes, 0 < size) :
    encodedLength sizes = .ok (sizes.map fun size => entryLength size.toNat).sum := by
  rw [encodedLength, foldlM_entryLength hs, Nat.zero_add]

theorem encodedLength_of_find? {sizes : List Int} {size : Int}
    (hfirst : sizes.find? (· ≤ 0) = some size) : encodedLength sizes = .error size := by
  obtain ⟨hsize, before, after, rfl, hbefore⟩ := List.find?_eq_some_iff_append.1 hfirst
  have hpos : ∀ size ∈ before, 0 < size := by simpa using hbefore
  rw [encodedLength, List.foldlM_append, foldlM_entryLength hpos]
  simp only [bind, Except.bind, List.foldlM_cons]
  rw [if_pos (of_decide_eq_true hsize)]

theorem le_entryLength (size : Nat) : size ≤ entryLength size := by
  simp only [entryLength]
  omega

theorem entryLength_le (size : Nat) : entryLength size ≤ 4 * size + 80 := by
  have hversion := Varint.length_encode_le (8 * versionField + 0)
  have hdata := Varint.length_encode_le (8 * dataField + 2)
  have hentries := Varint.length_encode_le (8 * entriesField + 2)
  have hone := Varint.length_encode_le Signature.currentVersion.toNat
  have hsize := Varint.length_encode_le size
  have hcurrent : Signature.currentVersion.toNat = 1 := rfl
  have hbody := Varint.length_encode_le ((Wire.key versionField 0).length +
    Varint.length Signature.currentVersion.toNat + (Wire.key dataField 2).length +
    Varint.length size + size)
  simp only [entryLength, Wire.key, Varint.length, versionField, dataField, entriesField, hcurrent]
    at hversion hdata hentries hone hsize hbody ⊢
  omega

/-- The predicted size is the size of the container that is then made. -/
theorem encodedLength_eq {entries : List Signature}
    (hv : ∀ s ∈ entries, s.version = Signature.currentVersion) (hd : ∀ s ∈ entries, s.data ≠ []) :
    encodedLength (entries.map fun s => (s.data.length : Int)) = .ok (encode entries).length := by
  have hpos : ∀ size ∈ entries.map fun s => (s.data.length : Int), 0 < size := by
    intro size hsize
    obtain ⟨s, hs, rfl⟩ := List.mem_map.1 hsize
    have := List.length_pos_iff.2 (hd s hs)
    omega
  rw [encodedLength_of_pos hpos, length_encode hv, List.map_map]
  rfl

end Container

end UpdateSeal
