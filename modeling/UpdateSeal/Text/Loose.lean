import UpdateSeal.Bytes

/-!
# Loose texts

Names of files that are not UTF-8 are shown with surrogates that stand alone, one for each byte that
is no part of a character. A text with such a surrogate is no string: it is passed on and compared,
but cannot be written. A message shows the surrogate by its escape.

A text is quoted inside a message by single quotes, or double ones where that spares an escape, with
the escapes of control characters.
-/

namespace UpdateSeal

/-- A surrogate, by its place among them. -/
abbrev Surrogate := Fin 0x800

/-- The surrogate for a byte that is no part of a character. -/
def Surrogate.ofByte (b : UInt8) : Surrogate :=
  ⟨0x400 + b.toNat, by have := b.toNat_lt; omega⟩

inductive LooseText where
  | string (s : String)
  | broken (front : String) (u : Surrogate) (rest : LooseText)
deriving DecidableEq, Repr

namespace LooseText

instance : Coe String LooseText := ⟨string⟩

def string? : LooseText → Option String
  | string s => some s
  | broken .. => none

def isString (t : LooseText) : Bool := t.string?.isSome

def append : LooseText → LooseText → LooseText
  | string s, string s' => string (s ++ s')
  | string s, broken front u rest => broken (s ++ front) u rest
  | broken front u rest, t => broken front u (append rest t)

instance : Append LooseText := ⟨append⟩

def join (separator : LooseText) : List LooseText → LooseText
  | [] => ""
  | [t] => t
  | t :: t' :: ts => t ++ (separator ++ join separator (t' :: ts))

/-- The characters and the surrogates between them. -/
def points : LooseText → List (Char ⊕ Surrogate)
  | string s => s.toList.map .inl
  | broken front u rest => front.toList.map .inl ++ .inr u :: points rest

def ofPoints (ps : List (Char ⊕ Surrogate)) : LooseText :=
  ps.foldr (fun p t =>
    match p with
    | .inl c => string (String.ofList [c]) ++ t
    | .inr u => broken "" u t) ""

def escape (u : Surrogate) : List Char := '\\' :: 'u' :: Bytes.hexChars (Bytes.ofNat 2 (0xd800 + u))

/-- The text as a message shows it. -/
def shown : LooseText → String
  | string s => s
  | broken front u rest => front ++ String.ofList (escape u) ++ shown rest

theorem isString_iff {t : LooseText} : t.isString ↔ ∃ s, t = string s := by
  cases t <;> simp [isString, string?]

@[simp] theorem string?_string (s : String) : (string s).string? = some s := rfl

@[simp] theorem isString_string (s : String) : (string s).isString := rfl

@[simp] theorem points_append (t t' : LooseText) : (t ++ t').points = t.points ++ t'.points := by
  show (append t t').points = _
  induction t with
  | string s => cases t' <;> simp [append, points]
  | broken front u rest ih => simp [append, points, ih]

theorem mapM_string?_eq_some_iff {ts : List LooseText} {ss : List String} :
    ts.mapM string? = some ss ↔ ts = ss.map string := by
  induction ts generalizing ss with
  | nil => cases ss <;> simp
  | cons t ts ih =>
    rw [List.mapM_cons]
    cases t with
    | broken front u rest => cases ss <;> simp [string?]
    | string s =>
      cases ss with
      | nil => simp [Option.bind_eq_some_iff]
      | cons s' ss => simpa [Option.bind_eq_some_iff, ih] using and_comm

@[simp] theorem mapM_string?_strings (ss : List String) : (ss.map string).mapM string? = some ss :=
  mapM_string?_eq_some_iff.2 rfl

theorem exists_strings_iff {ts : List LooseText} :
    (∃ ss : List String, ts = ss.map string) ↔ ∀ t ∈ ts, t.isString := by
  constructor
  · rintro ⟨ss, rfl⟩
    simp
  · intro h
    induction ts with
    | nil => exact ⟨[], rfl⟩
    | cons t ts ih =>
      obtain ⟨ht, hts⟩ := List.forall_mem_cons.1 h
      obtain ⟨s, rfl⟩ := isString_iff.1 ht
      obtain ⟨ss, rfl⟩ := ih hts
      exact ⟨s :: ss, rfl⟩

end LooseText

namespace Text

/-- Characters that are shown by an escape. Beyond U+00AD all characters are shown as they are. -/
def isHidden (c : Char) : Bool :=
  let n := c.toNat
  n < 0x20 || (0x7f ≤ n && n ≤ 0xa0) || n == 0xad

def quoteChar (mark c : Char) : List Char :=
  if c == mark || c == '\\' then ['\\', c]
  else if c == '\t' then ['\\', 't']
  else if c == '\n' then ['\\', 'n']
  else if c == '\r' then ['\\', 'r']
  else if isHidden c then '\\' :: 'x' :: Bytes.hexChars [UInt8.ofNat c.toNat]
  else [c]

def quote (t : LooseText) : String :=
  let ps := t.points
  let mark := if ps.contains (.inl '\'') && !ps.contains (.inl '"') then '"' else '\''
  String.ofList (mark :: ps.flatMap (Sum.elim (quoteChar mark) LooseText.escape) ++ [mark])

end Text

end UpdateSeal
