import Mathlib.Data.List.Induction
import UpdateSeal.Proofs.Appending

/-!
# What the last seal commits to

The text that is sealed joins the number of an entry, the hash before it, its own hash, and the seal
before it with bars, and none of the first three holds a bar. So where no two of the texts that are
hashed or sealed collide, the last seal of a valid ledger determines every entry of it.
-/

namespace UpdateSeal

/-! ### Texts that hold no bar -/

theorem Bytes.hexChars_injective : Function.Injective Bytes.hexChars := by
  intro a
  induction a with
  | nil =>
    intro b h
    cases b with
    | nil => rfl
    | cons d b => cases h
  | cons c a ih =>
    intro b h
    cases b with
    | nil => cases h
    | cons d b =>
      have hdigit : ∀ {m n : ℕ}, m < 16 → n < 16 → hexDigit m = hexDigit n → m = n := by
        intro m n hm hn hmn
        have hvalue := Json.hexValue?_hexDigit hm
        rw [hmn, Json.hexValue?_hexDigit hn] at hvalue
        exact (Option.some.inj hvalue).symm
      have hc := c.toNat_lt
      have hd := d.toNat_lt
      simp only [hexChars, List.cons.injEq] at h
      have hhigh := hdigit (by omega) (by omega) h.1
      have hlow := hdigit (by omega) (by omega) h.2.1
      rw [UInt8.toNat_inj.1 (show c.toNat = d.toNat by omega), ih h.2.2]

theorem Bytes.hex_injective : Function.Injective Bytes.hex :=
  fun _ _ h => hexChars_injective (String.ofList_injective h)

theorem bar_notMem_hex (b : Bytes) : '|' ∉ (Bytes.hex b).toList := by
  rw [Bytes.hex, String.toList_ofList]
  intro hmem
  exact Bytes.forall_mem_hexChars (P := (· ≠ '|')) (by decide +kernel) b _ hmem rfl

theorem toList_genesis : genesis.toList = List.replicate 64 '0' := String.toList_ofList

theorem bar_notMem_genesis : '|' ∉ genesis.toList := by
  rw [toList_genesis]
  intro hmem
  have hzero := List.eq_of_mem_replicate hmem
  exact absurd hzero (by decide)

theorem toList_toString_natCast (n : ℕ) : (toString (n : ℤ)).toList = Nat.toDigits 10 n := by
  show (toString n).toList = _
  rw [Nat.toString_eq_ofList_toDigits, String.toList_ofList]

theorem bar_notMem_toDigits (n : ℕ) : '|' ∉ Nat.toDigits 10 n := fun hmem =>
  absurd (Json.isDigit_of_mem_toDigits hmem) (by decide)

theorem toDigits_injective {m n : ℕ} (h : Nat.toDigits 10 m = Nat.toDigits 10 n) : m = n := by
  rw [← Json.numeral_toDigits m, h, Json.numeral_toDigits]

/-- A bar that comes first splits a text in one way only. -/
theorem eq_and_eq_of_append_bar {front front' back back' : List Char} (hfront : '|' ∉ front)
    (hfront' : '|' ∉ front') (h : front ++ '|' :: back = front' ++ '|' :: back') :
    front = front' ∧ back = back' := by
  induction front generalizing front' with
  | nil =>
    cases front' with
    | nil => exact ⟨rfl, (List.cons.inj h).2⟩
    | cons d front' => exact absurd ((List.cons.inj h).1 ▸ List.mem_cons_self) hfront'
  | cons c front ih =>
    cases front' with
    | nil => exact absurd ((List.cons.inj h).1 ▸ List.mem_cons_self) hfront
    | cons d front' =>
      rw [List.mem_cons, not_or] at hfront hfront'
      obtain ⟨rfl, hrest⟩ := List.cons.inj h
      obtain ⟨rfl, hback⟩ := ih hfront.2 hfront'.2 hrest
      exact ⟨rfl, hback⟩

open UpdateSeal.Action

namespace Ledger

variable {key : Bytes} {es es' : List Entry} {e e' : Entry}

theorem toList_sealText (e : Entry) (previousSeal : String) :
    (sealText e previousSeal).toList =
      (toString (e.sequence.getD 0)).toList ++ '|' :: (e.previousHash.toList ++
        '|' :: ((e.entryHash.getD "").toList ++ '|' :: previousSeal.toList)) := by
  have hbar : "|".toList = ['|'] := rfl
  rw [sealText, String.intercalate_cons_cons, String.intercalate_cons_cons,
    String.intercalate_cons_cons, String.intercalate_singleton]
  simp only [String.toList_append, hbar, List.append_assoc, List.singleton_append]

namespace Chain

theorem bar_notMem_hash (h : Chain key es true) : '|' ∉ (tailOf es).hash.toList := by
  rcases List.eq_nil_or_concat' es with rfl | ⟨es, e, rfl⟩
  · exact bar_notMem_genesis
  · rw [h.of_concat.2.tailOf]
    exact bar_notMem_hex _

theorem sequence_tailOf (h : Chain key es true) : (tailOf es).sequence = es.length := by
  have hseq := h.sequence_eq rfl (Nat.le_refl es.length)
  rwa [List.take_length] at hseq

/-- Of the entries at the ends of two chains the text that is sealed gives all that the seal is
made over. -/
theorem sealText_inj (h : Chain key es true) (h' : Chain key es' true)
    (he : Continues key (tailOf es) e) (he' : Continues key (tailOf es') e')
    (heq : sealText e (tailOf es).signature = sealText e' (tailOf es').signature) :
    es.length = es'.length ∧ e.previousHash = e'.previousHash ∧ e.contentHash = e'.contentHash ∧
      (tailOf es).signature = (tailOf es').signature := by
  have hlist := congrArg String.toList heq
  rw [toList_sealText, toList_sealText, he.sequence, he'.sequence, he.entryHash, he'.entryHash,
    h.sequence_tailOf, h'.sequence_tailOf, he.previousHash, he'.previousHash] at hlist
  simp only [Option.getD_some] at hlist
  rw [← Nat.cast_add_one, ← Nat.cast_add_one, toList_toString_natCast,
    toList_toString_natCast] at hlist
  -- the parts peel off one bar after another
  obtain ⟨hdigits, hlist⟩ :=
    eq_and_eq_of_append_bar (bar_notMem_toDigits _) (bar_notMem_toDigits _) hlist
  obtain ⟨hhash, hlist⟩ := eq_and_eq_of_append_bar h.bar_notMem_hash h'.bar_notMem_hash hlist
  obtain ⟨hcontent, hseal⟩ := eq_and_eq_of_append_bar (bar_notMem_hex _) (bar_notMem_hex _) hlist
  refine ⟨by simpa using toDigits_injective hdigits, ?_, String.toList_injective hcontent,
    String.toList_injective hseal⟩
  rw [he.previousHash, he'.previousHash]
  exact String.toList_injective hhash

end Chain

/-! ### Texts that are hashed and sealed -/

/-- No two different texts of the list have the same digest. -/
def NoCollision (digest : Bytes → Bytes) (texts : List String) : Prop :=
  ∀ s ∈ texts, ∀ t ∈ texts, digest (Bytes.ofText s) = digest (Bytes.ofText t) → s = t

theorem NoCollision.mono {digest : Bytes → Bytes} {texts texts' : List String}
    (h : NoCollision digest texts') (hsub : texts ⊆ texts') : NoCollision digest texts :=
  fun s hs t ht => h s (hsub hs) t (hsub ht)

theorem append_subset_concat (texts texts' : List String) (s s' : String) :
    texts ++ texts' ⊆ (texts ++ [s]) ++ (texts' ++ [s']) :=
  List.append_subset.2 ⟨List.subset_append_of_subset_left _ (List.subset_append_left _ _),
    List.subset_append_of_subset_right _ (List.subset_append_left _ _)⟩

/-- The texts that the check of these entries hashes. -/
def hashedTexts (es : List Entry) : List String := es.map fun e => String.ofList e.content

/-- The texts that the check of these entries seals, behind the given seal. -/
def sealedTexts (previousSeal : String) : List Entry → List String
  | [] => []
  | e :: es => sealText e previousSeal :: sealedTexts (e.signature.getD "") es

theorem sealedTexts_concat (previousSeal : String) (es : List Entry) (e : Entry) :
    sealedTexts previousSeal (es ++ [e]) = sealedTexts previousSeal es ++
      [sealText e (es.foldl (fun _ f => f.signature.getD "") previousSeal)] := by
  induction es generalizing previousSeal with
  | nil => rfl
  | cons f es ih =>
    rw [List.cons_append, sealedTexts, sealedTexts, ih, List.cons_append, List.foldl_cons]

theorem Chain.sealedTexts_concat (h : Chain key es true) (e : Entry) :
    sealedTexts genesis (es ++ [e]) =
      sealedTexts genesis es ++ [sealText e (tailOf es).signature] := by
  rw [Ledger.sealedTexts_concat]
  rcases List.eq_nil_or_concat' es with rfl | ⟨es, f, rfl⟩
  · rfl
  · rw [List.foldl_concat, h.of_concat.2.tailOf, h.of_concat.2.signature, Option.getD_some]

theorem Chain.signature_getLast? (h : Chain key es true) :
    es.getLast?.map Entry.signature =
      if es = [] then none else some (some (tailOf es).signature) := by
  rcases List.eq_nil_or_concat' es with rfl | ⟨es, f, rfl⟩
  · rfl
  · rw [List.getLast?_concat, if_neg (by simp), h.of_concat.2.tailOf, Option.map_some,
      h.of_concat.2.signature]

/-- What the last seal of a ledger fixes of an entry. -/
structure Commitment where
  sequence : Option Int
  previousHash : String
  entryHash : Option String
  signature : Option String
  content : List Char
deriving DecidableEq

def commitmentOf (e : Entry) : Commitment :=
  ⟨e.sequence, e.previousHash, e.entryHash, e.signature, e.content⟩

theorem NoCollision.content_eq {texts : List String} (h : NoCollision sha256 texts)
    (he : String.ofList e.content ∈ texts) (he' : String.ofList e'.content ∈ texts)
    (heq : e.contentHash = e'.contentHash) : e.content = e'.content :=
  String.ofList_injective (h _ he _ he' (Bytes.hex_injective heq))

theorem NoCollision.sealText_eq {texts : List String} (h : NoCollision (hmac key) texts)
    {s s' : String} (he : sealText e s ∈ texts) (he' : sealText e' s' ∈ texts)
    (heq : sealOf key e s = sealOf key e' s') : sealText e s = sealText e' s' :=
  h _ he _ he' (Bytes.hex_injective heq)

/-- Two chains that end with the same seal are the same, as far as they are hashed and sealed. -/
theorem Chain.commitments_eq (h : Chain key es true) (h' : Chain key es' true)
    (hlast : es.getLast?.map Entry.signature = es'.getLast?.map Entry.signature)
    (hhash : NoCollision sha256 (hashedTexts es ++ hashedTexts es'))
    (hseal : NoCollision (hmac key) (sealedTexts genesis es ++ sealedTexts genesis es')) :
    es.map commitmentOf = es'.map commitmentOf := by
  -- from the last entries backward: equal seals have equal texts, which hold the seals before
  induction es using List.reverseRecOn generalizing es' with
  | nil =>
    obtain rfl : es' = [] := by simpa using hlast.symm
    rfl
  | append_singleton es e ih =>
    rcases List.eq_nil_or_concat' es' with rfl | ⟨es', e', rfl⟩
    · simp at hlast
    obtain ⟨h, he⟩ := h.of_concat
    obtain ⟨h', he'⟩ := h'.of_concat
    rw [h.sealedTexts_concat, h'.sealedTexts_concat] at hseal
    rw [hashedTexts, hashedTexts, List.map_append, List.map_append] at hhash
    have hsignature : e.signature = e'.signature := by simpa using hlast
    have hsealed : sealOf key e (tailOf es).signature = sealOf key e' (tailOf es').signature := by
      rw [he.signature, he'.signature] at hsignature
      exact Option.some.inj hsignature
    obtain ⟨hlength, hprevious, hcontentHash, hbefore⟩ :=
      h.sealText_inj h' he he' (hseal.sealText_eq (by simp) (by simp) hsealed)
    have hcontent : e.content = e'.content := hhash.content_eq (by simp) (by simp) hcontentHash
    have hentries : es.map commitmentOf = es'.map commitmentOf := by
      refine ih h h' ?_ (hhash.mono (append_subset_concat ..))
        (hseal.mono (append_subset_concat ..))
      rw [h.signature_getLast?, h'.signature_getLast?, hbefore]
      simp only [← List.length_eq_zero_iff, hlength]
    have hcommitment : commitmentOf e = commitmentOf e' := by
      rw [commitmentOf, commitmentOf, he.sequence, he'.sequence, h.sequence_tailOf,
        h'.sequence_tailOf, hlength, hprevious, he.entryHash, he'.entryHash, hcontentHash,
        hsignature, hcontent]
    rw [List.map_append, List.map_append, hentries, List.map_singleton, List.map_singleton,
      hcommitment]

/-- The last seal commits to the whole ledger: two ledgers that are found valid under one key, and
whose last entries carry the same signature, hold as many entries, and entry by entry the same
number, hash of the entry before, hash, signature and hashed content. This takes it that no two of
the texts that are hashed have the same digest, and no two of those that are sealed. -/
theorem commitments_of_last_signature {l₁ l₂ : Ledger} {h₁ h₂ : Host} {es₁ es₂ : List Entry}
    {e₁ e₂ : Entry} (hkey : l₁.key = l₂.key) (hverify₁ : (runOn l₁.verify h₁).1 = .ok .valid)
    (hverify₂ : (runOn l₂.verify h₂).1 = .ok .valid)
    (hread₁ : (runOn l₁.readEntries h₁).1 = .ok es₁)
    (hread₂ : (runOn l₂.readEntries h₂).1 = .ok es₂) (hlast₁ : es₁.getLast? = some e₁)
    (hlast₂ : es₂.getLast? = some e₂) (hsignature : e₁.signature = e₂.signature)
    (hhash : NoCollision sha256 (hashedTexts es₁ ++ hashedTexts es₂))
    (hseal : NoCollision (hmac l₁.key) (sealedTexts genesis es₁ ++ sealedTexts genesis es₂)) :
    es₁.length = es₂.length ∧ es₁.map commitmentOf = es₂.map commitmentOf := by
  have hchain₁ := chain_of_verify hverify₁ hread₁
  have hchain₂ := chain_of_verify hverify₂ hread₂
  rw [← hkey] at hchain₂
  have hlast : es₁.getLast?.map Entry.signature = es₂.getLast?.map Entry.signature := by
    rw [hlast₁, hlast₂, Option.map_some, Option.map_some, hsignature]
  have hcommitments := hchain₁.commitments_eq hchain₂ hlast hhash hseal
  exact ⟨by simpa using congrArg List.length hcommitments, hcommitments⟩

theorem noCollision_of_forall_eq_or {digest : Bytes → Bytes} {texts : List String} {s s' : String}
    (h : ∀ t ∈ texts, t = s ∨ t = s') (hne : digest (Bytes.ofText s) ≠ digest (Bytes.ofText s')) :
    NoCollision digest texts := by
  intro t ht t' ht' heq
  rcases h t ht with rfl | rfl <;> rcases h t' ht' with rfl | rfl
  · rfl
  · exact absurd heq hne
  · exact absurd heq.symm hne
  · rfl

/-! ### Ledgers with two entries -/

def firstHash : String := "76c0f6639dd27cf5b1e7cc990a23d2ded1b18f904df65600655e4bb04ebaad46"

def firstSeal : String := "e06e8f8deb23ab284cf1a1acedc5190c5b693180d9d2a7e1e2b11b24024ca5d6"

def secondHash : String := "1e3c543e98b0cde5ed65b867e098952d9ca329b2237d1439208e4b8d5fe1f660"

def secondSeal : String := "a1cc3e54a98d2175e96eaedc07e334a6f4b6e7839a8c57560051474ce4199e8d"

def secondEntry : Entry :=
  nextEntry [7] ⟨firstHash, 1, firstSeal⟩ (Timestamp.text 0) "verify_payload" ["payload"] [] []

set_option maxRecDepth 100000 in
theorem contentHash_firstEntry : firstEntry.contentHash = firstHash := by
  rw [Entry.contentHash, Bytes.ofText_ofList]
  decide +kernel

set_option maxRecDepth 100000 in
theorem contentHash_secondEntry : secondEntry.contentHash = secondHash := by
  rw [Entry.contentHash, Bytes.ofText_ofList]
  decide +kernel

set_option maxRecDepth 100000 in
theorem sealOf_firstEntry : sealOf [7] firstEntry genesis = firstSeal := by
  have htext : sealText firstEntry genesis = "|".intercalate ["1", genesis, firstHash, genesis] := by
    rw [← contentHash_firstEntry]
    rfl
  rw [sealOf, htext]
  decide +kernel

set_option maxRecDepth 100000 in
theorem sealOf_secondEntry : sealOf [7] secondEntry firstSeal = secondSeal := by
  have htext : sealText secondEntry firstSeal =
      "|".intercalate ["2", firstHash, secondHash, firstSeal] := by
    rw [← contentHash_secondEntry]
    rfl
  rw [sealOf, htext]
  decide +kernel

theorem continues_firstEntry : Continues [7] {} firstEntry.stored := (continues_nextEntry ..).stored

theorem signature_firstEntry : firstEntry.stored.signature = some firstSeal :=
  continues_firstEntry.signature.trans (congrArg some sealOf_firstEntry)

theorem tailOf_firstEntry : tailOf [firstEntry.stored] = ⟨firstHash, 1, firstSeal⟩ := by
  have htail : tailOf [firstEntry.stored] =
      ⟨firstEntry.stored.contentHash, 0 + 1, sealOf [7] firstEntry genesis⟩ :=
    continues_firstEntry.tailOf []
  rw [htail, Entry.contentHash_stored, contentHash_firstEntry, sealOf_firstEntry]
  rfl

theorem sha256_content_ne : sha256 (Bytes.ofText (String.ofList firstEntry.stored.content)) ≠
    sha256 (Bytes.ofText (String.ofList secondEntry.stored.content)) := by
  rw [firstEntry.content_stored, secondEntry.content_stored]
  intro hsame
  have hhash : firstHash = secondHash :=
    contentHash_firstEntry.symm.trans ((congrArg Bytes.hex hsame).trans contentHash_secondEntry)
  exact absurd hhash (by decide)

theorem hmac_sealText_ne : hmac [7] (Bytes.ofText (sealText firstEntry.stored genesis)) ≠
    hmac [7] (Bytes.ofText (sealText secondEntry.stored firstSeal)) := by
  intro hsame
  have hseal : firstSeal = secondSeal :=
    sealOf_firstEntry.symm.trans ((congrArg Bytes.hex hsame).trans sealOf_secondEntry)
  exact absurd hseal (by decide)

/-- A ledger of one entry that ends with a blank line is logged to. -/
theorem exists_two_entries {blanks : List Char} (hunbroken : Text.Unbroken blanks)
    (hblanks : ∀ c ∈ blanks, Text.isSpace c) :
    ∃ (l : Ledger) (h : Host), l.key = [7] ∧ (runOn l.verify h).1 = .ok .valid ∧
      (runOn l.readEntries h).1 = .ok [firstEntry.stored, secondEntry.stored] := by
  have hl := current_ledgerHost (entriesOf_firstEntry hunbroken hblanks) firstEntry_chain
  have hends := endsAt_ledgerHost
    ⟨_, _, String.toList_ofList, ended_line firstEntry, hunbroken, hblanks⟩
  have hargs : (Json.Value.obj []).Storable 199 := Json.Value.storable_empty 199
  have hcount : 1 + 1 < 10 ^ Json.maxDigits := by decide +kernel
  obtain ⟨l', e, content, t, now, hlog, -⟩ :=
    log_returns (l := ⟨ledgerPath, [7], tailOf [firstEntry.stored]⟩) "verify_payload" ["payload"] []
      [] (ledgerHost_admits _)
  have hl' := hl.log hends hargs hcount hlog
  obtain ⟨he, rfl, -⟩ := runOn_log_eq_ok hlog
  obtain rfl : e = secondEntry := by
    rw [he]
    exact congrArg (fun tail => nextEntry [7] tail (Timestamp.text 0) "verify_payload" ["payload"] []
      []) tailOf_firstEntry
  exact ⟨_, _, rfl, congrArg Prod.fst hl'.verify, congrArg Prod.fst hl'.readEntries⟩

/-- The files of the two ledgers may differ. -/
theorem commitments_of_blank_line :
    ∃ (l₁ l₂ : Ledger) (h₁ h₂ : Host) (es₁ es₂ : List Entry),
      (l₁.key = l₂.key ∧ (runOn l₁.verify h₁).1 = .ok .valid ∧
        (runOn l₂.verify h₂).1 = .ok .valid ∧ (runOn l₁.readEntries h₁).1 = .ok es₁ ∧
        (runOn l₂.readEntries h₂).1 = .ok es₂ ∧ es₁.length = 2 ∧
        (∃ e₁ e₂, es₁.getLast? = some e₁ ∧ es₂.getLast? = some e₂ ∧ e₁.signature = e₂.signature) ∧
        NoCollision sha256 (hashedTexts es₁ ++ hashedTexts es₂) ∧
        NoCollision (hmac l₁.key) (sealedTexts genesis es₁ ++ sealedTexts genesis es₂)) ∧
      es₁.length = es₂.length ∧ es₁.map commitmentOf = es₂.map commitmentOf := by
  obtain ⟨l₁, h₁, hkey₁, hverify₁, hread₁⟩ := exists_two_entries (show Text.Unbroken [] from nofun) nofun
  obtain ⟨l₂, h₂, hkey₂, hverify₂, hread₂⟩ := exists_two_entries unbroken_blank isSpace_blank
  have hkey := hkey₁.trans hkey₂.symm
  have hhash : NoCollision sha256 (hashedTexts [firstEntry.stored, secondEntry.stored] ++
      hashedTexts [firstEntry.stored, secondEntry.stored]) :=
    noCollision_of_forall_eq_or (by simp [hashedTexts]) sha256_content_ne
  have hseal : NoCollision (hmac l₁.key)
      (sealedTexts genesis [firstEntry.stored, secondEntry.stored] ++
        sealedTexts genesis [firstEntry.stored, secondEntry.stored]) := by
    rw [hkey₁]
    exact noCollision_of_forall_eq_or (by simp [sealedTexts, signature_firstEntry])
      hmac_sealText_ne
  exact ⟨l₁, l₂, h₁, h₂, _, _, ⟨hkey, hverify₁, hverify₂, hread₁, hread₂, rfl, ⟨_, _, rfl, rfl, rfl⟩,
    hhash, hseal⟩, commitments_of_last_signature hkey hverify₁ hverify₂ hread₁ hread₂ rfl rfl rfl
      hhash hseal⟩

end Ledger

end UpdateSeal
