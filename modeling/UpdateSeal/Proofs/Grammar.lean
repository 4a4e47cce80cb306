import Mathlib.Data.List.Forall2
import Mathlib.Tactic.MkIffOfInductiveProp
import UpdateSeal.Proofs.Containers
import UpdateSeal.Proofs.Numerals

/-!
# The grammar of containers

What numerals, fields and messages are is said here without a reader, and the reader accepts exactly
that. Numerals and fields delimit themselves, so a message has one factorisation into fields. A
container is a message whose entries are messages in turn, and every other byte string is refused.
-/

namespace UpdateSeal

namespace Varint

/-- `b` spells `n` in groups of seven bits, least significant first. All bytes but the last have
their high bit set. -/
inductive Spells : Nat → Bytes → Prop where
  | last {c : UInt8} (hc : c < 128) : Spells c.toNat [c]
  | more {c : UInt8} {n : Nat} {b : Bytes} (hc : ¬ c < 128) (hb : Spells n b) :
      Spells (c.toNat % 128 + 128 * n) (c :: b)

def Numeral (n : Nat) (b : Bytes) : Prop := Spells n b ∧ b.length ≤ maxLength

theorem Spells.ne_nil {n : Nat} {b : Bytes} (h : Spells n b) : b ≠ [] := by
  cases h <;> simp

theorem decodeWithin_of_spells {n limit : Nat} {b : Bytes} (hb : Spells n b)
    (hl : b.length ≤ limit) (rest : Bytes) : decodeWithin limit (b ++ rest) = .ok (n, rest) := by
  induction hb generalizing limit with
  | last hc =>
    obtain ⟨limit, rfl⟩ := Nat.exists_eq_add_of_le' hl
    rw [List.singleton_append]
    exact if_pos hc
  | more hc _ ih =>
    obtain ⟨limit, rfl⟩ := Nat.exists_eq_add_of_le' (Nat.le_trans (Nat.le_add_left 1 _) hl)
    have htail := @ih limit (by simpa using hl)
    rw [List.cons_append, decodeWithin, if_neg hc, htail]
    rfl

theorem spells_of_decodeWithin {n limit : Nat} {b rest : Bytes}
    (h : decodeWithin limit b = .ok (n, rest)) :
    ∃ front, Spells n front ∧ front.length ≤ limit ∧ b = front ++ rest := by
  induction limit generalizing b n with
  | zero => cases h
  | succ limit ih =>
    cases b with
    | nil => cases h
    | cons c b =>
      rw [decodeWithin] at h
      split at h
      · next hc =>
        cases h
        exact ⟨[c], .last hc, by simp, rfl⟩
      · next hc =>
        obtain ⟨⟨high, tail⟩, htail, h⟩ := bind_eq_ok_iff.1 h
        cases h
        obtain ⟨front, hfront, hlen, rfl⟩ := ih htail
        exact ⟨c :: front, .more hc hfront, by simpa using hlen, rfl⟩

theorem decode_eq_ok_iff {n : Nat} {b rest : Bytes} :
    decode b = .ok (n, rest) ↔ ∃ front, Numeral n front ∧ b = front ++ rest := by
  constructor
  · intro h
    obtain ⟨front, hfront, hlen, rfl⟩ := spells_of_decodeWithin h
    exact ⟨front, ⟨hfront, hlen⟩, rfl⟩
  · intro h
    obtain ⟨front, hfront, rfl⟩ := h
    exact decodeWithin_of_spells hfront.1 hfront.2 rest

end Varint

namespace Wire

/-- `b` spells the value `v` behind its key. -/
inductive Value.Spells : Value → Bytes → Prop where
  | varint {n : Nat} {b : Bytes} (hn : Varint.Numeral n b) : Spells (.varint n) b
  | fixed64 {b : Bytes} (hb : b.length = 8) : Spells (.fixed64 b) b
  | delimited {body len : Bytes} (hn : Varint.Numeral body.length len) :
      Spells (.delimited body) (len ++ body)
  | fixed32 {b : Bytes} (hb : b.length = 4) : Spells (.fixed32 b) b

/-- `b` spells the field `f`: a key, eight times the number plus the wire type, and the value. -/
def Field.Spells (f : Field) (b : Bytes) : Prop :=
  f.number ≠ 0 ∧ ∃ key body, Varint.Numeral (8 * f.number + f.value.wireType) key ∧
    f.value.Spells body ∧ b = key ++ body

/-- `b` is a message with these parts, each a field and the bytes that spell it. -/
def Factors (parts : List (Field × Bytes)) (b : Bytes) : Prop :=
  (∀ p ∈ parts, p.1.Spells p.2) ∧ b = parts.flatMap Prod.snd

/-- `b` is a message with these fields. -/
def Message (fs : List Field) (b : Bytes) : Prop :=
  ∃ parts, Factors parts b ∧ parts.map Prod.fst = fs

theorem readVarint_eq_ok_iff {n : Nat} {b rest : Bytes} :
    readVarint b = .ok (n, rest) ↔ ∃ front, Varint.Numeral n front ∧ b = front ++ rest := by
  rw [← Varint.decode_eq_ok_iff, readVarint]
  cases Varint.decode b <;> simp

theorem readFixed_eq_ok_iff {number width : Nat} {wrap : Bytes → Value} {b rest : Bytes}
    {v : Value} :
    readFixed number width wrap b = .ok (v, rest) ↔
      ∃ front, front.length = width ∧ v = wrap front ∧ b = front ++ rest := by
  unfold readFixed
  constructor
  · intro h
    split at h
    · cases h
    · next front _ hcut =>
      cases h
      obtain ⟨hlen, rfl⟩ := Bytes.cut?_eq_some_iff.1 hcut
      exact ⟨front, hlen, rfl, rfl⟩
  · intro h
    obtain ⟨front, rfl, rfl, rfl⟩ := h
    rw [cut?_append]

theorem readValue_eq_ok_iff {size number type : Nat} {b rest : Bytes} {v : Value} :
    readValue size number type b = .ok (v, rest) ↔
      v.wireType = type ∧ ∃ front, v.Spells front ∧ b = front ++ rest := by
  constructor
  · intro h
    unfold readValue at h
    split at h
    · obtain ⟨⟨n, tail⟩, hn, h⟩ := bind_eq_ok_iff.1 h
      cases h
      obtain ⟨front, hfront, rfl⟩ := readVarint_eq_ok_iff.1 hn
      exact ⟨rfl, front, .varint hfront, rfl⟩
    · obtain ⟨front, hlen, rfl, rfl⟩ := readFixed_eq_ok_iff.1 h
      exact ⟨rfl, front, .fixed64 hlen, rfl⟩
    · obtain ⟨⟨n, tail⟩, hn, h⟩ := bind_eq_ok_iff.1 h
      obtain ⟨len, hlen, hb⟩ := readVarint_eq_ok_iff.1 hn
      rw [hb]
      simp only at h
      split at h
      · cases h
      · next body _ hcut =>
        cases h
        obtain ⟨rfl, rfl⟩ := Bytes.cut?_eq_some_iff.1 hcut
        exact ⟨rfl, len ++ body, .delimited hlen, (List.append_assoc _ _ _).symm⟩
    · obtain ⟨front, hlen, rfl, rfl⟩ := readFixed_eq_ok_iff.1 h
      exact ⟨rfl, front, .fixed32 hlen, rfl⟩
    · cases h
  · intro h
    obtain ⟨rfl, front, hfront, rfl⟩ := h
    cases hfront with
    | varint hn =>
      exact bind_eq_ok_iff.2 ⟨_, readVarint_eq_ok_iff.2 ⟨_, hn, rfl⟩, rfl⟩
    | fixed64 hb => exact readFixed_eq_ok_iff.2 ⟨_, hb, rfl, rfl⟩
    | delimited hn =>
      refine bind_eq_ok_iff.2 ⟨_, readVarint_eq_ok_iff.2 ⟨_, hn, List.append_assoc _ _ _⟩, ?_⟩
      simp only [cut?_append]
      rfl
    | fixed32 hb => exact readFixed_eq_ok_iff.2 ⟨_, hb, rfl, rfl⟩

theorem readField_eq_ok_iff {size : Nat} {b rest : Bytes} {f : Field} :
    readField size b = .ok (f, rest) ↔ ∃ front, f.Spells front ∧ b = front ++ rest := by
  constructor
  · intro h
    obtain ⟨⟨k, tail⟩, hk, h⟩ := bind_eq_ok_iff.1 h
    obtain ⟨key, hkey, hb⟩ := readVarint_eq_ok_iff.1 hk
    rw [hb]
    simp only at h
    split at h
    · cases h
    · next hnumber =>
      obtain ⟨⟨v, tail'⟩, hv, h⟩ := bind_eq_ok_iff.1 h
      cases h
      obtain ⟨htype, body, hbody, rfl⟩ := readValue_eq_ok_iff.1 hv
      have hsplit : 8 * (k / 8) + v.wireType = k := by omega
      refine ⟨key ++ body, ⟨hnumber, key, body, ?_, hbody, rfl⟩, (List.append_assoc _ _ _).symm⟩
      simpa only [hsplit] using hkey
  · intro h
    obtain ⟨front, ⟨hnumber, key, body, hkey, hbody, rfl⟩, rfl⟩ := h
    have ht := f.value.wireType_lt
    have hdiv : (8 * f.number + f.value.wireType) / 8 = f.number := by omega
    have hmod : (8 * f.number + f.value.wireType) % 8 = f.value.wireType := by omega
    have hread : readVarint (key ++ body ++ rest) =
        .ok (8 * f.number + f.value.wireType, body ++ rest) :=
      readVarint_eq_ok_iff.2 ⟨key, hkey, List.append_assoc _ _ _⟩
    have hvalue : readValue size f.number f.value.wireType (body ++ rest) = .ok (f.value, rest) :=
      readValue_eq_ok_iff.2 ⟨rfl, body, hbody, rfl⟩
    rw [readField, hread, ok_bind]
    simp only [hdiv, hmod, if_neg hnumber, hvalue]
    rfl

theorem Field.Spells.inj {f g : Field} {a a' rest rest' : Bytes} (ha : f.Spells a)
    (ha' : g.Spells a') (h : a ++ rest = a' ++ rest') : f = g ∧ a = a' ∧ rest = rest' := by
  have hf : readField 0 (a ++ rest) = .ok (f, rest) := readField_eq_ok_iff.2 ⟨a, ha, rfl⟩
  have hg : readField 0 (a' ++ rest') = .ok (g, rest') := readField_eq_ok_iff.2 ⟨a', ha', rfl⟩
  rw [h, hg] at hf
  cases hf
  exact ⟨rfl, List.append_cancel_right h, rfl⟩

theorem Field.Spells.ne_nil {f : Field} {b : Bytes} (h : f.Spells b) : b ≠ [] := by
  obtain ⟨-, key, body, ⟨hkey, -⟩, -, rfl⟩ := h
  exact List.append_ne_nil_of_left_ne_nil hkey.ne_nil _

theorem factors_cons_iff {p : Field × Bytes} {parts : List (Field × Bytes)} {b : Bytes} :
    Factors (p :: parts) b ↔ p.1.Spells p.2 ∧ ∃ rest, Factors parts rest ∧ b = p.2 ++ rest := by
  simp only [Factors, List.forall_mem_cons, List.flatMap_cons]
  constructor
  · intro h
    obtain ⟨⟨hp, hparts⟩, rfl⟩ := h
    exact ⟨hp, _, ⟨hparts, rfl⟩, rfl⟩
  · intro h
    obtain ⟨hp, _, ⟨hparts, rfl⟩, rfl⟩ := h
    exact ⟨⟨hp, hparts⟩, rfl⟩

theorem Factors.unique {parts parts' : List (Field × Bytes)} {b : Bytes} (h : Factors parts b)
    (h' : Factors parts' b) : parts = parts' := by
  induction parts generalizing parts' b with
  | nil =>
    obtain rfl : b = [] := h.2
    cases parts' with
    | nil => rfl
    | cons p' parts' =>
      obtain ⟨hp', rest', -, hb⟩ := factors_cons_iff.1 h'
      exact absurd (List.append_eq_nil_iff.1 hb.symm).1 hp'.ne_nil
  | cons p parts ih =>
    obtain ⟨hp, rest, hrest, rfl⟩ := factors_cons_iff.1 h
    cases parts' with
    | nil => exact absurd (List.append_eq_nil_iff.1 h'.2).1 hp.ne_nil
    | cons p' parts' =>
      obtain ⟨hp', rest', hrest', hb⟩ := factors_cons_iff.1 h'
      -- fields delimit themselves, so both cuts begin with the same field and bytes
      obtain ⟨hfield, hbytes, rfl⟩ := hp.inj hp' hb
      rw [ih hrest hrest', Prod.ext hfield hbytes]

theorem message_nil_iff {fs : List Field} : Message fs [] ↔ fs = [] := by
  constructor
  · intro h
    obtain ⟨parts, hparts, rfl⟩ := h
    have hnil : Factors [] [] := ⟨by simp, rfl⟩
    rw [hparts.unique hnil]
    rfl
  · rintro rfl
    exact ⟨[], ⟨by simp, rfl⟩, rfl⟩

theorem message_cons {f : Field} {fs : List Field} {front rest : Bytes} (hf : f.Spells front)
    (h : Message fs rest) : Message (f :: fs) (front ++ rest) := by
  obtain ⟨parts, hparts, rfl⟩ := h
  exact ⟨(f, front) :: parts, factors_cons_iff.2 ⟨hf, rest, hparts, rfl⟩, rfl⟩

/-- Behind a message stands a message if and only if both together are one. -/
theorem message_append_iff {fs gs : List Field} {b b' : Bytes} (h : Message fs b) :
    Message gs (b ++ b') ↔ ∃ fs', Message fs' b' ∧ gs = fs ++ fs' := by
  obtain ⟨parts, hparts, rfl⟩ := h
  induction parts generalizing b gs with
  | nil =>
    obtain rfl : b = [] := hparts.2
    simp
  | cons p parts ih =>
    obtain ⟨hp, rest, hrest, rfl⟩ := factors_cons_iff.1 hparts
    rw [List.append_assoc]
    constructor
    · intro hm
      obtain ⟨all, hall, rfl⟩ := hm
      cases all with
      | nil => exact absurd (List.append_eq_nil_iff.1 hall.2).1 hp.ne_nil
      | cons p' all =>
        obtain ⟨hp', rest', hrest', hb⟩ := factors_cons_iff.1 hall
        -- the first field delimits itself, so it is the same in the whole
        obtain ⟨hfield, -, rfl⟩ := hp.inj hp' hb
        obtain ⟨fs', hfs', heq⟩ := (ih hrest).1 ⟨all, hrest', rfl⟩
        exact ⟨fs', hfs', by rw [List.map_cons, heq, ← hfield]; rfl⟩
    · rintro ⟨fs', hfs', rfl⟩
      exact message_cons hp ((ih hrest).2 ⟨fs', hfs', rfl⟩)

theorem scanFrom_of_message {size : Nat} {fs : List Field} {b : Bytes} (h : Message fs b) :
    scanFrom size b = ⟨fs, none⟩ := by
  obtain ⟨parts, hparts, rfl⟩ := h
  induction parts generalizing b with
  | nil =>
    obtain rfl : b = [] := hparts.2
    rw [scanFrom]
    rfl
  | cons p parts ih =>
    obtain ⟨hp, rest, hrest, rfl⟩ := factors_cons_iff.1 hparts
    have hread : readField size (p.2 ++ rest) = .ok (p.1, rest) :=
      readField_eq_ok_iff.2 ⟨p.2, hp, rfl⟩
    have hne : (p.2 ++ rest).isEmpty = false := by simp [hp.ne_nil]
    rw [scanFrom, hne, if_neg Bool.false_ne_true]
    split
    · next h => simp [hread] at h
    · next h =>
      rw [hread] at h
      cases h
      rw [ih hrest]
      rfl

theorem message_of_scanFrom {size : Nat} {b : Bytes} (h : (scanFrom size b).fault = none) :
    Message (scanFrom size b).fields b := by
  fun_induction scanFrom size b with
  | case1 b hb =>
    rw [List.isEmpty_iff.1 hb]
    exact message_nil_iff.2 rfl
  | case2 => cases h
  | case3 b hb f rest hread scan ih =>
    obtain ⟨front, hfront, rfl⟩ := readField_eq_ok_iff.1 hread
    exact message_cons hfront (ih h)

/-- A message is scanned to its end, and nothing else is. -/
theorem scan_eq_iff {fs : List Field} {b : Bytes} : scan b = ⟨fs, none⟩ ↔ Message fs b := by
  constructor
  · intro h
    have hm : (scan b).fault = none → Message (scan b).fields b := message_of_scanFrom
    rw [h] at hm
    exact hm rfl
  · exact scanFrom_of_message

end Wire

namespace Container

open Wire (Field Message)

def version? (f : Field) : Option Nat :=
  match f.value with
  | .varint n => if f.number = versionField then some n else none
  | _ => none

def data? (f : Field) : Option Bytes :=
  match f.value with
  | .delimited b => if f.number = dataField then some b else none
  | _ => none

/-- A field that may stand in a signature: a version has 32 bits, and data are delimited. -/
@[mk_iff]
structure FitsEntry (f : Field) : Prop where
  version : f.number = versionField → ∃ n, f.value = .varint n ∧ n ≤ 2 ^ 32 - 1
  data : f.number = dataField → ∃ b, f.value = .delimited b

/-- `body` spells the signature `s`: the last version and the last data count. -/
def SpellsEntry (s : Signature) (body : Bytes) : Prop :=
  ∃ fs, Message fs body ∧ (∀ f ∈ fs, FitsEntry f) ∧
    s.version.toNat = (fs.filterMap version?).getLast?.getD 0 ∧
    s.data = (fs.filterMap data?).getLast?.getD []

/-- The field `f` carries a spelling of the signature `s`. -/
def EntryOf (f : Field) (s : Signature) : Prop :=
  ∃ body, f.value = .delimited body ∧ SpellsEntry s body

/-- `b` spells a container of these signatures, one for each field that is an entry. -/
def Spells (entries : List Signature) (b : Bytes) : Prop :=
  ∃ fs, Message fs b ∧ List.Forall₂ EntryOf (fs.filter fun f => f.number = entriesField) entries

theorem readFields_eq_ok_iff {α : Type} {b : Bytes} {init r : α}
    {step : α → Field → Except ContainerFault α} :
    readFields (Wire.scan b) init step = .ok r ↔
      ∃ fs, Message fs b ∧ fs.foldlM step init = .ok r := by
  simp only [← Wire.scan_eq_iff]
  generalize Wire.scan b = scan
  obtain ⟨fs, fault⟩ := scan
  simp only [readFields, bind_eq_ok_iff, Wire.Scan.mk.injEq]
  cases fault with
  | some e => simp [throw, throwThe, MonadExceptOf.throw]
  | none => simp [pure_eq_ok_iff]

theorem getLast?_filterMap_cons {α β : Type} (give : α → Option β) (a : α) (as : List α) (before : β) :
    ((a :: as).filterMap give).getLast?.getD before =
      (as.filterMap give).getLast?.getD ((give a).getD before) := by
  cases h : give a with
  | none => rw [List.filterMap_cons_none h, Option.getD_none]
  | some v => rw [List.filterMap_cons_some h, List.getLast?_cons, Option.getD_some, Option.getD_some]

theorem applyField_eq_ok_iff {s r : Signature} {f : Field} :
    applyField s f = .ok r ↔ FitsEntry f ∧
      r.version.toNat = (version? f).getD s.version.toNat ∧ r.data = (data? f).getD s.data := by
  obtain ⟨number, value⟩ := f
  obtain ⟨v, d⟩ := s
  obtain ⟨v', d'⟩ := r
  rw [fitsEntry_iff]
  by_cases h1 : number = versionField
  · subst h1
    cases value with
    | varint n =>
      have hle : n ≤ 4294967295 ↔ n < 4294967296 := by omega
      by_cases hn : n < 4294967296
      · have hv : UInt32.ofNat n = v' ↔ v'.toNat = n := by
          rw [← UInt32.toNat_inj, UInt32.toNat_ofNat_of_lt' hn, eq_comm]
        simp [applyField, version?, data?, versionField, dataField, hle, hn, hv, @eq_comm _ d]
      · simp [applyField, version?, data?, versionField, dataField, hle, hn]
    | _ => simp [applyField, version?, data?, versionField, dataField]
  · by_cases h2 : number = dataField
    · subst h2
      cases value <;> simp [applyField, version?, data?, versionField, dataField, UInt32.toNat_inj, eq_comm]
    · cases value <;> simp [applyField, version?, data?, h1, h2, UInt32.toNat_inj, eq_comm]

theorem exists_applyField (s : Signature) {f : Field} (hf : FitsEntry f) :
    ∃ r, applyField s f = .ok r := by
  have hlt : (version? f).getD s.version.toNat < 2 ^ 32 := by
    unfold version?
    split
    · next n hn =>
      split
      · next h1 =>
        obtain ⟨m, hm, hle⟩ := hf.version h1
        cases hn.symm.trans hm
        exact Nat.lt_of_le_pred (by decide) hle
      · exact s.version.toNat_lt
    · exact s.version.toNat_lt
  exact ⟨⟨.ofNat ((version? f).getD s.version.toNat), (data? f).getD s.data⟩,
    applyField_eq_ok_iff.2 ⟨hf, UInt32.toNat_ofNat_of_lt' hlt, rfl⟩⟩

theorem foldlM_applyField_eq_ok_iff {s r : Signature} {fs : List Field} :
    fs.foldlM applyField s = .ok r ↔ (∀ f ∈ fs, FitsEntry f) ∧
      r.version.toNat = (fs.filterMap version?).getLast?.getD s.version.toNat ∧
      r.data = (fs.filterMap data?).getLast?.getD s.data := by
  -- the value from before counts until a field gives another
  induction fs generalizing s with
  | nil =>
    obtain ⟨v, d⟩ := s
    obtain ⟨v', d'⟩ := r
    simp [pure_eq_ok_iff, UInt32.toNat_inj, eq_comm]
  | cons f fs ih =>
    simp only [List.foldlM_cons, bind_eq_ok_iff, applyField_eq_ok_iff, ih, List.forall_mem_cons,
      getLast?_filterMap_cons]
    constructor
    · intro h
      obtain ⟨s', ⟨hf, hv, hd⟩, hfs, hrv, hrd⟩ := h
      rw [hv] at hrv
      rw [hd] at hrd
      exact ⟨⟨hf, hfs⟩, hrv, hrd⟩
    · intro h
      obtain ⟨⟨hf, hfs⟩, hrv, hrd⟩ := h
      obtain ⟨s', hs'⟩ := exists_applyField s hf
      obtain ⟨-, hv, hd⟩ := applyField_eq_ok_iff.1 hs'
      exact ⟨s', ⟨hf, hv, hd⟩, hfs, by rw [hv, hrv], by rw [hd, hrd]⟩

theorem decodeEntry_eq_ok_iff {s : Signature} {body : Bytes} :
    decodeEntry body = .ok s ↔ SpellsEntry s body := by
  simp only [decodeEntry, readFields_eq_ok_iff, foldlM_applyField_eq_ok_iff]
  rfl

theorem applyEntry_of_ne {done : List Signature} {f : Field} (hf : f.number ≠ entriesField) :
    applyEntry done f = .ok done := by
  rw [applyEntry, if_neg hf]

theorem applyEntry_eq_ok_iff {done r : List Signature} {f : Field} (hf : f.number = entriesField) :
    applyEntry done f = .ok r ↔ ∃ s, EntryOf f s ∧ r = s :: done := by
  rw [applyEntry, if_pos hf]
  obtain ⟨number, value⟩ := f
  cases value <;> simp [EntryOf, map_eq_ok_iff, decodeEntry_eq_ok_iff, @eq_comm _ r]

theorem foldlM_applyEntry_eq_ok_iff {done r : List Signature} {fs : List Field} :
    fs.foldlM applyEntry done = .ok r ↔ ∃ entries,
      List.Forall₂ EntryOf (fs.filter fun f => f.number = entriesField) entries ∧
        r = entries.reverse ++ done := by
  induction fs generalizing done with
  | nil => simp [pure_eq_ok_iff, @eq_comm _ r]
  | cons f fs ih =>
    by_cases hf : f.number = entriesField
    · simp only [List.foldlM_cons, bind_eq_ok_iff, applyEntry_eq_ok_iff hf, ih, List.filter_cons, hf,
        decide_true, if_true, List.forall₂_cons_left_iff]
      constructor
      · intro h
        obtain ⟨_, ⟨s, hs, rfl⟩, entries, hentries, rfl⟩ := h
        exact ⟨s :: entries, ⟨s, entries, hs, hentries, rfl⟩, by simp⟩
      · intro h
        obtain ⟨_, ⟨s, entries, hs, hentries, rfl⟩, rfl⟩ := h
        exact ⟨s :: done, ⟨s, hs, rfl⟩, entries, hentries, by simp⟩
    · rw [List.foldlM_cons, applyEntry_of_ne hf, ok_bind, ih, List.filter_cons, if_neg (by simpa)]

theorem decode_eq_ok_iff {entries : List Signature} {b : Bytes} :
    decode b = .ok entries ↔ Spells entries b := by
  simp only [decode, map_eq_ok_iff, readFields_eq_ok_iff, foldlM_applyEntry_eq_ok_iff, Spells]
  constructor
  · intro h
    obtain ⟨_, ⟨fs, hfs, entries', hentries, rfl⟩, rfl⟩ := h
    exact ⟨fs, hfs, by simpa using hentries⟩
  · intro h
    obtain ⟨fs, hfs, hentries⟩ := h
    exact ⟨_, ⟨fs, hfs, entries, hentries, rfl⟩, by simp⟩

theorem decode_append {entries entries' : List Signature} {b b' : Bytes}
    (h : decode b = .ok entries) (h' : decode b' = .ok entries') :
    decode (b ++ b') = .ok (entries ++ entries') := by
  rw [decode_eq_ok_iff] at h h' ⊢
  obtain ⟨fs, hfs, hentries⟩ := h
  obtain ⟨fs', hfs', hentries'⟩ := h'
  refine ⟨fs ++ fs', (Wire.message_append_iff hfs).2 ⟨fs', hfs', rfl⟩, ?_⟩
  rw [List.filter_append]
  exact List.rel_append hentries hentries'

theorem exists_decode_of_append {entries all : List Signature} {b b' : Bytes}
    (h : decode b = .ok entries) (hall : decode (b ++ b') = .ok all) :
    ∃ entries', decode b' = .ok entries' := by
  rw [decode_eq_ok_iff] at h hall
  obtain ⟨fs, hfs, -⟩ := h
  obtain ⟨gs, hgs, hall⟩ := hall
  obtain ⟨fs', hfs', rfl⟩ := (Wire.message_append_iff hfs).1 hgs
  rw [List.filter_append] at hall
  have hentries' := List.forall₂_drop (fs.filter fun f => f.number = entriesField).length hall
  rw [List.drop_left] at hentries'
  exact ⟨_, decode_eq_ok_iff.2 ⟨fs', hfs', hentries'⟩⟩

/-- The parser accepts exactly the containers, and gives what they spell. Every other byte string
has a fault. What is read does not hang on how a message is cut into fields, since there is one way
to do so. -/
theorem decode_accepts_grammar :
    (∀ b entries, decode b = .ok entries ↔ Spells entries b) ∧
      (∀ b, (∃ e, decode b = .error e) ↔ ¬ ∃ entries, Spells entries b) ∧
      ∀ b parts parts', Wire.Factors parts b → Wire.Factors parts' b → parts = parts' := by
  refine ⟨fun b entries => decode_eq_ok_iff, fun b => ?_, fun b parts parts' => Wire.Factors.unique⟩
  simp only [← decode_eq_ok_iff]
  cases decode b <;> simp

end Container

end UpdateSeal
