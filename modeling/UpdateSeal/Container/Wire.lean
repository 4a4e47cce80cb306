import UpdateSeal.Container.Varint

/-!
# Wire fields

A message is a sequence of fields. Each field opens with a key, eight times its number plus its
wire type, and goes on with a numeral, a fixed number of bytes, or a length and that many bytes.
A message is scanned from the front into the fields that are whole and the fault, if any, that
stopped the scan.
-/

namespace UpdateSeal.Wire

inductive Fault where
  | varint (e : Varint.Fault)
  | fieldZero
  | overrun (number length offset available : Nat)
  | truncatedFixed (number : Nat)
  | wireType (type number : Nat)
deriving DecidableEq, Repr

/-- What a field carries, by wire type. -/
inductive Value where
  | varint (n : Nat)
  | fixed64 (b : Bytes)
  | delimited (b : Bytes)
  | fixed32 (b : Bytes)
deriving DecidableEq, Repr

structure Field where
  number : Nat
  value : Value
deriving DecidableEq, Repr

def Value.wireType : Value → Nat
  | .varint _ => 0
  | .fixed64 _ => 1
  | .delimited _ => 2
  | .fixed32 _ => 5

def key (number type : Nat) : Bytes := Varint.encode (8 * number + type)

def Value.encode : Value → Bytes
  | .varint n => Varint.encode n
  | .fixed64 b => b
  | .delimited b => Varint.encode b.length ++ b
  | .fixed32 b => b

def Field.encode (f : Field) : Bytes := key f.number f.value.wireType ++ f.value.encode

def readVarint (b : Bytes) : Except Fault (Nat × Bytes) :=
  match Varint.decode b with
  | .ok r => .ok r
  | .error e => .error (.varint e)

def readFixed (number width : Nat) (wrap : Bytes → Value) (b : Bytes) :
    Except Fault (Value × Bytes) :=
  match b.cut? width with
  | none => .error (.truncatedFixed number)
  | some (body, rest) => .ok (wrap body, rest)

/-- Reads the value of field `number`, of wire type `type`, inside a message of `size` bytes. -/
def readValue (size number type : Nat) (b : Bytes) : Except Fault (Value × Bytes) :=
  match type with
  | 0 => do
    let (n, b) ← readVarint b
    return (.varint n, b)
  | 1 => readFixed number 8 .fixed64 b
  | 2 => do
    let (length, b) ← readVarint b
    match b.cut? length with
    | none => throw (.overrun number length (size - b.length) size)
    | some (body, rest) => return (.delimited body, rest)
  | 5 => readFixed number 4 .fixed32 b
  | _ => .error (.wireType type number)

/-- Reads the field at the front of `b`, the end of a message of `size` bytes. -/
def readField (size : Nat) (b : Bytes) : Except Fault (Field × Bytes) := do
  let (key, b) ← readVarint b
  if key / 8 = 0 then throw .fieldZero
  let (value, b) ← readValue size (key / 8) (key % 8) b
  return (⟨key / 8, value⟩, b)

theorem length_lt_of_readVarint {b : Bytes} {r : Nat × Bytes} (h : readVarint b = .ok r) :
    r.2.length < b.length := by
  unfold readVarint at h
  cases hd : Varint.decode b with
  | error e => simp [hd] at h
  | ok r' =>
    rw [hd] at h
    cases h
    exact Varint.length_lt_of_decode hd

theorem length_le_of_readFixed {number width : Nat} {wrap : Bytes → Value} {b : Bytes}
    {w : Value × Bytes} (h : readFixed number width wrap b = .ok w) : w.2.length ≤ b.length := by
  unfold readFixed at h
  split at h
  · cases h
  · next hc =>
    cases h
    exact Bytes.length_le_of_cut? hc

theorem length_le_of_readValue {size number type : Nat} {b : Bytes} {w : Value × Bytes}
    (h : readValue size number type b = .ok w) : w.2.length ≤ b.length := by
  unfold readValue at h
  split at h
  · cases hv : readVarint b with
    | error e => simp [hv, bind, Except.bind] at h
    | ok r =>
      have hl := length_lt_of_readVarint hv
      simp only [hv, bind, Except.bind, pure, Except.pure, Except.ok.injEq] at h
      rw [← h]
      exact Nat.le_of_lt hl
  · exact length_le_of_readFixed h
  · cases hv : readVarint b with
    | error e => simp [hv, bind, Except.bind] at h
    | ok r =>
      have hl := length_lt_of_readVarint hv
      simp only [hv, bind, Except.bind, pure, Except.pure] at h
      split at h
      · cases h
      · next hc =>
        cases h
        exact Nat.le_trans (Bytes.length_le_of_cut? hc) (Nat.le_of_lt hl)
  · exact length_le_of_readFixed h
  · cases h

theorem length_lt_of_readField {size : Nat} {b rest : Bytes} {f : Field}
    (h : readField size b = .ok (f, rest)) : rest.length < b.length := by
  unfold readField at h
  cases hk : readVarint b with
  | error e => simp [hk, bind, Except.bind] at h
  | ok r =>
    have hl := length_lt_of_readVarint hk
    simp only [hk, bind, Except.bind, pure, Except.pure] at h
    split at h
    · cases h
    · cases hv : readValue size (r.1 / 8) (r.1 % 8) r.2 with
      | error e => simp [hv] at h
      | ok w =>
        simp only [hv, Except.ok.injEq, Prod.mk.injEq] at h
        have := length_le_of_readValue hv
        rw [← h.2]
        omega

/-- The fields at the front of a message, and the fault behind them, if the message has one. -/
structure Scan where
  fields : List Field
  fault : Option Fault := none
deriving DecidableEq, Repr

/-- Scans the last bytes `b` of a message of `size` bytes. -/
def scanFrom (size : Nat) (b : Bytes) : Scan :=
  if b.isEmpty then ⟨[], none⟩
  else
    match _h : readField size b with
    | .error e => ⟨[], some e⟩
    | .ok (f, rest) =>
      let s := scanFrom size rest
      ⟨f :: s.fields, s.fault⟩
termination_by b.length
decreasing_by exact length_lt_of_readField _h

def scan (b : Bytes) : Scan := scanFrom b.length b

end UpdateSeal.Wire
