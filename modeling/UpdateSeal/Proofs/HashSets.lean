import UpdateSeal.Payload.HashSet
import UpdateSeal.Proofs.Objects
import UpdateSeal.Proofs.Texts
import UpdateSeal.Proofs.Values

/-!
# Hash sets are read back

The document that carries a hash set to an offline signer holds its two digests in hexadecimal, and
reading it gives the hash set again, from the text and from its bytes. The documents that are read are
the objects that spell two digests of the right size, in any form. Two of them hold the same hash set
exactly if it is written alike for both.
-/

namespace UpdateSeal

namespace Text

theorem isAsciiBlank_hexDigit {n : ℕ} (hn : n < 16) : isAsciiBlank (Bytes.hexDigit n) = false := by
  revert n
  decide

theorem unhexFrom_hexChars (pos : ℕ) (b : Bytes) : unhexFrom pos (Bytes.hexChars b) = .ok b := by
  induction b generalizing pos with
  | nil => rfl
  | cons c b ih =>
    have hc := c.toNat_lt
    have hhigh : c.toNat / 16 < 16 := by omega
    have hlow : c.toNat % 16 < 16 := Nat.mod_lt _ (by decide)
    have hbyte : UInt8.ofNat (c.toNat / 16 * 16 + c.toNat % 16) = c := by
      rw [Nat.div_add_mod', UInt8.ofNat_toNat]
    rw [Bytes.hexChars, unhexFrom, isAsciiBlank_hexDigit hhigh, if_neg Bool.false_ne_true,
      Json.hexValue?_hexDigit hhigh, Json.hexValue?_hexDigit hlow]
    simp only [ih, hbyte]
    rfl

theorem unhex_hexChars (b : Bytes) : unhex (Bytes.hexChars b) = .ok b := by
  have hascii : ∀ c ∈ Bytes.hexChars b, decide (127 < c.toNat) = false := by
    intro c hc
    have := Bytes.toNat_lt_of_mem_hexChars hc
    exact decide_eq_false (by omega)
  rw [unhex, List.findIdx?_eq_none_iff.2 hascii]
  exact unhexFrom_hexChars 0 b

theorem decodeUtf8_cons {a : UInt8} (ha : a < 0x80) (rest : Bytes) :
    decodeUtf8 (a :: rest) = (decodeUtf8 rest).map (Char.ofNat a.toNat :: ·) := by
  rcases rest with _ | ⟨b, _ | ⟨c, _ | ⟨d, rest⟩⟩⟩ <;> simp [decodeUtf8, ha]

theorem decodeUtf8_ofText {cs : List Char} (hcs : ∀ c ∈ cs, c.toNat < 128) :
    decodeUtf8 (Bytes.ofText (String.ofList cs)) = some cs := by
  rw [Bytes.ofText_ofList]
  induction cs with
  | nil => rfl
  | cons c cs ih =>
    obtain ⟨hc, hcs⟩ := List.forall_mem_cons.1 hcs
    have hbyte : String.utf8EncodeChar c = [UInt8.ofNat c.toNat] := if_pos (Nat.le_of_lt_succ hc)
    have hnat : (UInt8.ofNat c.toNat).toNat = c.toNat := by
      rw [UInt8.toNat_ofNat']
      exact Nat.mod_eq_of_lt (by omega)
    rw [List.flatMap_cons, hbyte, List.singleton_append,
      decodeUtf8_cons (UInt8.lt_iff_toNat_lt.2 (hnat.trans_lt hc)), ih hcs, hnat, Char.ofNat_toNat]
    rfl

end Text

namespace HashSet

theorem ofDigests_self (h : HashSet) : ofDigests h.payload h.metadata = .ok h := by
  rw [ofDigests, dif_pos h.length_payload, dif_pos h.length_metadata]

theorem storable_document (h : HashSet) :
    (Json.Value.obj [(metadataName, .str h.metadata.hex), (payloadName, .str h.payload.hex)]).Storable
      1 := by
  refine .obj nofun (by simp [metadataName, payloadName]) ?_
  simp only [List.forall_mem_cons, List.not_mem_nil, false_implies, implies_true, and_true]
  exact ⟨.str 0 _, .str 0 _⟩

theorem arrange_document (style : Json.Style) (v w : Json.Value) :
    style.arrange [(metadataName, v), (payloadName, w)] = [(metadataName, v), (payloadName, w)] := by
  have hnames : ¬ payloadName < metadataName := by decide
  apply Json.Style.arrange_of_sorted
  exact List.pairwise_pair.2 hnames

theorem stored_document (h : HashSet) :
    (Json.Value.obj [(metadataName, .str h.metadata.hex),
      (payloadName, .str h.payload.hex)]).stored Json.canonical =
        .obj [(metadataName, .str h.metadata.hex), (payloadName, .str h.payload.hex)] := by
  rw [Json.Value.stored_obj, arrange_document]
  rfl

theorem member_hex {ms : Json.Members} {name : String} {b : Bytes}
    (hget : ms.get? name = some (.str b.hex)) : member ms name = .ok b := by
  simp only [member, hget, Bytes.hex, String.toList_ofList, Text.unhex_hexChars]
  rfl

theorem ofJson_toJson (h : HashSet) : ofJson h.toJson = .ok h := by
  have hread : Json.read Json.lenient h.toJson = _ :=
    Json.read_write_obj h.storable_document nofun
  rw [ofJson, hread, stored_document]
  simp only [ofValue]
  rw [member_hex (b := h.payload) rfl, member_hex (b := h.metadata) rfl]
  exact h.ofDigests_self

/-! ### Documents -/

theorem isPlain_hexChars (b : Bytes) : ∀ c ∈ Bytes.hexChars b, Json.isPlain c :=
  Bytes.forall_mem_hexChars (by decide +kernel) b

theorem writeString_hex (b : Bytes) :
    Json.writeString true b.hex = '"' :: Bytes.hexChars b ++ ['"'] := by
  rw [Json.writeString, Bytes.hex, String.toList_ofList,
    Json.flatMap_escapeChar_of_isPlain true (isPlain_hexChars b)]

/-- The written form: the two names in order, each with the hexadecimal digits of its digest. -/
theorem toJson_eq (h : HashSet) :
    h.toJson = "\x7b\"metadata_hash\":\"".toList ++ Bytes.hexChars h.metadata ++
      "\",\"payload_hash\":\"".toList ++ Bytes.hexChars h.payload ++ "\"\x7d".toList := by
  have hpayload : Json.writeString true payloadName = "\"payload_hash\"".toList := by decide
  have hmetadata : Json.writeString true metadataName = "\"metadata_hash\"".toList := by decide
  rw [toJson, Json.write_obj, arrange_document]
  simp [Json.braced, Json.commaSeparated, Json.memberText, Json.canonical, Json.write, hpayload,
    hmetadata, writeString_hex]

theorem ascii_toJson (h : HashSet) : ∀ c ∈ h.toJson, c.toNat < 128 := by
  have hhex : ∀ b : Bytes, ∀ c ∈ Bytes.hexChars b, c.toNat < 128 :=
    fun b c hc => Bytes.toNat_lt_of_mem_hexChars hc
  rw [toJson_eq]
  simp only [List.forall_mem_append]
  exact ⟨⟨⟨⟨by simp, hhex _⟩, by simp⟩, hhex _⟩, by simp⟩

theorem ofJsonBytes_toJson (h : HashSet) :
    ofJsonBytes (Bytes.ofText (String.ofList h.toJson)) = .ok h := by
  -- the first four bytes tell the encoding
  have hdecode : Text.decodeDocument (Bytes.ofText (String.ofList h.toJson)) =
      Text.decodeUtf8 (Bytes.ofText (String.ofList h.toJson)) := by
    rw [toJson_eq, Bytes.ofText_ofList]
    simp only [List.append_assoc, List.flatMap_append]
    rfl
  rw [ofJsonBytes, hdecode, Text.decodeUtf8_ofText h.ascii_toJson]
  exact h.ofJson_toJson

theorem ofDigests_eq_ok_iff {payload metadata : Bytes} {h : HashSet} :
    ofDigests payload metadata = .ok h ↔ h.payload = payload ∧ h.metadata = metadata := by
  constructor
  · intro hok
    unfold ofDigests at hok
    split at hok
    · split at hok
      · cases hok
        exact ⟨rfl, rfl⟩
      · cases hok
    · cases hok
  · rintro ⟨rfl, rfl⟩
    exact h.ofDigests_self

/-- The member `name` is a text that spells `b` in hexadecimal. -/
def Spells (ms : Json.Members) (name : String) (b : Bytes) : Prop :=
  ∃ s, ms.get? name = some (.str s) ∧ Text.unhex s.toList = .ok b

theorem member_eq_ok_iff {ms : Json.Members} {name : String} {b : Bytes} :
    member ms name = .ok b ↔ Spells ms name b := by
  unfold member
  split
  · next hget => simp [Spells, hget]
  · next s hget =>
    have hhex : ((Text.unhex s.toList).mapError Fault.hex = .ok b) ↔ Text.unhex s.toList = .ok b :=
      mapError_eq_ok_iff
    simp [Spells, hget, hhex]
  · next v hne hget =>
    refine iff_of_false nofun ?_
    rintro ⟨s, hs, -⟩
    exact hne s (Option.some.inj (hget.symm.trans hs))

theorem ofJson_eq_ok_iff {cs : List Char} {h : HashSet} :
    ofJson cs = .ok h ↔ ∃ ms, Json.read Json.lenient cs = .ok (.obj ms) ∧
      Spells ms payloadName h.payload ∧ Spells ms metadataName h.metadata := by
  cases hread : Json.read Json.lenient cs with
  | error e => cases e <;> simp [ofJson, hread]
  | ok v =>
    simp only [ofJson, hread]
    cases v with
    | obj ms =>
      simp only [ofValue, bind_eq_ok_iff, member_eq_ok_iff, ofDigests_eq_ok_iff, Except.ok.injEq,
        Json.Value.obj.injEq]
      constructor
      · rintro ⟨_, hp, _, hm, rfl, rfl⟩
        exact ⟨ms, rfl, hp, hm⟩
      · rintro ⟨_, rfl, hp, hm⟩
        exact ⟨_, hp, _, hm, rfl, rfl⟩
    | _ => simp [ofValue]

/-- A document comes as text or as bytes. -/
inductive Document where
  | text (cs : List Char)
  | bytes (raw : Bytes)

namespace Document

def read : Document → Except Fault HashSet
  | .text cs => ofJson cs
  | .bytes raw => ofJsonBytes raw

def chars? : Document → Option (List Char)
  | .text cs => some cs
  | .bytes raw => Text.decodeDocument raw

/-- The document is an object whose members spell the two digests. -/
def Carries (d : Document) (payload metadata : Bytes) : Prop :=
  ∃ cs ms, d.chars? = some cs ∧ Json.read Json.lenient cs = .ok (.obj ms) ∧
    Spells ms payloadName payload ∧ Spells ms metadataName metadata

variable {d : Document} {h h' : HashSet} {payload metadata : Bytes}

theorem read_eq_ok_iff_chars : d.read = .ok h ↔ ∃ cs, d.chars? = some cs ∧ ofJson cs = .ok h := by
  cases d with
  | text cs => simp [read, chars?]
  | bytes raw =>
    rw [read, chars?, ofJsonBytes]
    cases Text.decodeDocument raw <;> simp

theorem read_eq_ok_iff : d.read = .ok h ↔ d.Carries h.payload h.metadata := by
  simp only [read_eq_ok_iff_chars, ofJson_eq_ok_iff, Carries, exists_and_left]

theorem exists_read_iff :
    (∃ h, d.read = .ok h ∧ h.payload = payload ∧ h.metadata = metadata) ↔
      d.Carries payload metadata ∧ payload.length = 32 ∧ metadata.length = 32 := by
  constructor
  · rintro ⟨h, hread, rfl, rfl⟩
    exact ⟨read_eq_ok_iff.1 hread, h.length_payload, h.length_metadata⟩
  · rintro ⟨hcarries, hp, hm⟩
    exact ⟨⟨payload, metadata, hp, hm⟩, read_eq_ok_iff.2 hcarries, rfl, rfl⟩

end Document

theorem toJson_injective : Function.Injective toJson := by
  intro h h' heq
  have hread := h.ofJson_toJson
  rw [heq, ofJson_toJson] at hread
  exact (Except.ok.inj hread).symm

/-- Two digests of 32 bytes are a hash set, which is read back from its text and from the bytes of its
text. A document is read exactly if it carries two such digests. What is read survives another trip,
and two documents hold the same hash set exactly if it is written alike for both. -/
theorem documents_carry :
    (∀ payload metadata : Bytes, payload.length = 32 → metadata.length = 32 →
      ∃ h, ofDigests payload metadata = .ok h ∧ h.payload = payload ∧ h.metadata = metadata ∧
        ofJson h.toJson = .ok h ∧ ofJsonBytes (Bytes.ofText (String.ofList h.toJson)) = .ok h) ∧
    (∀ (d : Document) payload metadata,
      (∃ h, d.read = .ok h ∧ h.payload = payload ∧ h.metadata = metadata) ↔
        d.Carries payload metadata ∧ payload.length = 32 ∧ metadata.length = 32) ∧
    ∀ (d : Document) h, d.read = .ok h →
      h.payload.length = 32 ∧ h.metadata.length = 32 ∧ ofJson h.toJson = .ok h ∧
        ofJsonBytes (Bytes.ofText (String.ofList h.toJson)) = .ok h ∧
        ∀ (d' : Document) h', d'.read = .ok h' → (h = h' ↔ h.toJson = h'.toJson) := by
  refine ⟨fun payload metadata hp hm => ?_, fun _ _ _ => Document.exists_read_iff, fun _ h _ => ?_⟩
  · exact ⟨⟨payload, metadata, hp, hm⟩, ofDigests_eq_ok_iff.2 ⟨rfl, rfl⟩, rfl, rfl, ofJson_toJson _,
      ofJsonBytes_toJson _⟩
  · exact ⟨h.length_payload, h.length_metadata, h.ofJson_toJson, h.ofJsonBytes_toJson,
      fun _ _ _ => toJson_injective.eq_iff.symm⟩

def looseHex : String := String.ofList (List.replicate 32 "Ab ".toList).flatten

/-- Names in another order, one of them twice, a member too many, and blanks between great digits. -/
def looseChars : List Char :=
  "\x7b \"payload_hash\": 7, \"note\": [null],\n\"payload_hash\": \"".toList ++
    looseHex.toList ++ "\", \"metadata_hash\": \"".toList ++ List.replicate 64 '0' ++
      "\" \x7d".toList

/-- The same in UTF-16, behind a mark. -/
def looseDocument : Document :=
  .bytes (0xff :: 0xfe :: looseChars.flatMap fun c => [UInt8.ofNat c.toNat, 0])

def looseSet : HashSet := ⟨List.replicate 32 0xab, List.replicate 32 0, rfl, rfl⟩

def swappedSet : HashSet := ⟨List.replicate 32 0, List.replicate 32 0xab, rfl, rfl⟩

theorem looseDocument_read : looseDocument.read = .ok looseSet := by
  have hchars : looseDocument.chars? = some looseChars := by decide +kernel
  have htokens : Json.tokens Json.lenient looseChars =
      [.openObject, .str "payload_hash", .colon, .int 7, .comma, .str "note", .colon, .openArray,
        .null, .closeArray, .comma, .str "payload_hash", .colon,
        .str looseHex, .comma, .str "metadata_hash", .colon,
        .str (String.ofList (List.replicate 64 '0')), .closeObject] := by decide +kernel
  have hread : Json.read Json.lenient looseChars =
      .ok (.obj [("payload_hash", .str looseHex), ("note", .arr [.null]),
        ("metadata_hash", .str (String.ofList (List.replicate 64 '0')))]) := by
    rw [Json.read, htokens]
    rfl
  have hpayload : Text.unhex looseHex.toList = .ok looseSet.payload := by decide +kernel
  have hmetadata : Text.unhex (String.ofList (List.replicate 64 '0')).toList =
      .ok looseSet.metadata := by decide +kernel
  exact Document.read_eq_ok_iff_chars.2 ⟨looseChars, hchars,
    ofJson_eq_ok_iff.2 ⟨_, hread, ⟨_, rfl, hpayload⟩, ⟨_, rfl, hmetadata⟩⟩⟩

theorem documents_carry_loosely :
    (∃ h, ofDigests (List.replicate 32 0xab) (List.replicate 32 0) = .ok h ∧
      ofJsonBytes (Bytes.ofText (String.ofList h.toJson)) = .ok h) ∧
    ofJson looseSet.toJson = .ok looseSet ∧ looseSet.toJson ≠ swappedSet.toJson := by
  obtain ⟨h, hdigests, -, -, -, hbytes⟩ :=
    documents_carry.1 (List.replicate 32 0xab) (List.replicate 32 0) rfl rfl
  obtain ⟨-, -, htext, -, hsame⟩ := documents_carry.2.2 looseDocument looseSet looseDocument_read
  have hne : looseSet ≠ swappedSet := by decide
  exact ⟨⟨h, hdigests, hbytes⟩, htext,
    mt (hsame (.text swappedSet.toJson) swappedSet swappedSet.ofJson_toJson).2 hne⟩

end HashSet

end UpdateSeal
