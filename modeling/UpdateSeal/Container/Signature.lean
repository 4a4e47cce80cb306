import UpdateSeal.Container.Wire

/-!
# Signature containers

A container is an ordered list of signatures, each with a version and data. It is a message whose
fields numbered 1 are the signatures; the body of a signature is a message whose field 1 is the
version and whose field 2 is the data. Other fields are skipped, and of repeated ones the last
counts. Versions that are not understood are kept.
-/

namespace UpdateSeal

structure Signature where
  version : UInt32
  data : Bytes
deriving DecidableEq, Repr

/-- The version of the signatures this library makes and checks. -/
def Signature.currentVersion : UInt32 := 1

inductive ContainerFault where
  | wire (e : Wire.Fault)
  | versionWireType
  | versionRange (n : Nat)
  | dataWireType
  | entryWireType
  /-- A container that was to be embedded holds no signature. -/
  | empty (name : String)
deriving DecidableEq, Repr

def Wire.Fault.message : Wire.Fault → String
  | .varint .truncated => "Truncated varint in signature container"
  | .varint .tooLong => "Varint exceeds 10 bytes in signature container"
  | .fieldZero => "Invalid field number 0 in signature container"
  | .overrun number length offset available =>
    s!"Length-delimited field {number} overruns container ({length} bytes at offset {offset}, {available} available)"
  | .truncatedFixed number => s!"Truncated fixed-width field {number}"
  | .wireType type number => s!"Unsupported wire type {type} for field {number}"

def ContainerFault.message : ContainerFault → String
  | .wire e => e.message
  | .versionWireType => "Signature version must be a varint"
  | .versionRange n => s!"Signature version {n} exceeds uint32"
  | .dataWireType => "Signature data must be length-delimited"
  | .entryWireType => "Signature entries must be length-delimited"
  | .empty name => s!"The {name} signature container holds no signatures"

namespace Container

def entriesField : Nat := 1
def versionField : Nat := 1
def dataField : Nat := 2

def encodeEntry (s : Signature) : Bytes :=
  Wire.Field.encode ⟨versionField, .varint s.version.toNat⟩ ++
    Wire.Field.encode ⟨dataField, .delimited s.data⟩

def encode (entries : List Signature) : Bytes :=
  entries.flatMap fun s => Wire.Field.encode ⟨entriesField, .delimited (encodeEntry s)⟩

def applyField (s : Signature) (f : Wire.Field) : Except ContainerFault Signature :=
  if f.number = versionField then
    match f.value with
    | .varint n =>
      if n < UInt32.size then .ok { s with version := .ofNat n } else .error (.versionRange n)
    | _ => .error .versionWireType
  else if f.number = dataField then
    match f.value with
    | .delimited b => .ok { s with data := b }
    | _ => .error .dataWireType
  else .ok s

/-- Goes through the fields of a message in order, and reports its fault when they are used up. -/
def readFields {α : Type} (scan : Wire.Scan) (init : α)
    (step : α → Wire.Field → Except ContainerFault α) : Except ContainerFault α := do
  let r ← scan.fields.foldlM step init
  match scan.fault with
  | some e => throw (.wire e)
  | none => return r

def decodeEntry (body : Bytes) : Except ContainerFault Signature :=
  readFields (Wire.scan body) ⟨0, []⟩ applyField

/-- Takes one field of a container into account. The newest signature stands first. -/
def applyEntry (entries : List Signature) (f : Wire.Field) : Except ContainerFault (List Signature) :=
  if f.number = entriesField then
    match f.value with
    | .delimited body => (decodeEntry body).map (· :: entries)
    | _ => .error .entryWireType
  else .ok entries

def decode (blob : Bytes) : Except ContainerFault (List Signature) :=
  (readFields (Wire.scan blob) [] applyEntry).map List.reverse

/-- The size of one entry with `size` bytes of data, framing included. -/
def entryLength (size : Nat) : Nat :=
  let body := (Wire.key versionField 0).length + Varint.length Signature.currentVersion.toNat +
    (Wire.key dataField 2).length + Varint.length size + size
  (Wire.key entriesField 2).length + Varint.length body + body

/-- The size of a container of current signatures with data of the given sizes, in order. A size
that is not positive is returned instead. -/
def encodedLength (sizes : List Int) : Except Int Nat :=
  sizes.foldlM (fun total size =>
    if size ≤ 0 then .error size else .ok (total + entryLength size.toNat)) 0

end Container

end UpdateSeal
