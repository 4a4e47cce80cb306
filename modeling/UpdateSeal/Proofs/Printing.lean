import UpdateSeal.Proofs.Values

/-!
# Values are written on one line

Control characters are escaped in strings and occur nowhere else, so the text of a value holds no
end of a line.
-/

namespace UpdateSeal.Json

def Printable (cs : List Char) : Prop := ∀ c ∈ cs, 32 ≤ c.toNat

namespace Printable

variable {cs ds : List Char}

theorem nil : Printable [] := by simp [Printable]

theorem cons {c : Char} (hc : 32 ≤ c.toNat) (hcs : Printable cs) : Printable (c :: cs) :=
  List.forall_mem_cons.2 ⟨hc, hcs⟩

theorem append (hcs : Printable cs) (hds : Printable ds) : Printable (cs ++ ds) :=
  List.forall_mem_append.2 ⟨hcs, hds⟩

theorem of_isDigit (h : ∀ c ∈ cs, isDigit c) : Printable cs := by
  intro c hc
  have hd := h c hc
  simp only [isDigit, Bool.and_eq_true, decide_eq_true_eq] at hd
  exact Nat.le_trans (by decide : 32 ≤ '0'.toNat) hd.1

theorem digits (n : ℕ) : Printable (Nat.toDigits 10 n) :=
  of_isDigit fun _ => isDigit_of_mem_toDigits

theorem zeros (n : ℕ) : Printable (List.replicate n '0') := of_isDigit fun _ => isDigit_of_mem_zeros

end Printable

theorem printable_signed (negative : Bool) {cs : List Char} (hcs : Printable cs) :
    Printable (signed negative cs) := by
  cases negative with
  | false => exact hcs
  | true => exact hcs.cons (by decide)

theorem printable_scientific (format : Decimal.Form) (ds : List Char) (hds : Printable ds) (e : ℤ) :
    Printable (format.scientific ds e) := by
  have hsign : 32 ≤ (if e < 0 then '-' else '+').toNat := by split <;> decide
  have htail := ((Printable.zeros (format.exponentWidth - (Nat.toDigits 10 e.natAbs).length)).append
    (Printable.digits e.natAbs)).cons hsign |>.cons (by decide : 32 ≤ 'e'.toNat)
  cases ds with
  | nil =>
    simpa [Decimal.Form.scientific, Decimal.digitChars] using htail
  | cons a ds =>
    obtain ⟨ha, hds⟩ := List.forall_mem_cons.1 hds
    rw [scientific_cons]
    apply Printable.append _ htail
    apply Printable.append (Printable.nil.cons ha)
    cases ds with
    | nil => exact .nil
    | cons b ds => exact Printable.cons (by decide) hds

theorem printable_decimal (format : Decimal.Form) (d : Decimal.Numeral) :
    Printable (format.write d) := by
  have hds := Printable.digits d.digits
  have htake : ∀ n, Printable ((Nat.toDigits 10 d.digits).take n) := fun n c hc =>
    hds c (List.mem_of_mem_take hc)
  have hdrop : ∀ n, Printable ((Nat.toDigits 10 d.digits).drop n) := fun n c hc =>
    hds c (List.mem_of_mem_drop hc)
  have hpoint : 32 ≤ '.'.toNat := by decide
  have hzero : 32 ≤ '0'.toNat := by decide
  unfold Decimal.Form.write Decimal.digitChars
  simp only
  split
  · split
    · exact (((Printable.zeros _).append hds).cons hpoint).cons hzero
    · split
      · exact (hds.append (.zeros _)).append ((Printable.nil.cons hzero).cons hpoint)
      · exact (htake _).append ((hdrop _).cons hpoint)
  · exact printable_scientific format _ hds _

theorem printable_writeFinite (format : Decimal.Form) (negative : Bool) (code : ℕ) :
    Printable (format.writeFinite negative code) := by
  have hbody : Printable
      (if code = 0 then ['0', '.', '0'] else format.write (Decimal.shortest code)) := by
    split
    · simp [Printable]
    · exact printable_decimal format _
  exact printable_signed negative hbody

theorem printable_unitEscape (n : ℕ) : Printable (unitEscape n) := by
  have hhex : ∀ n < 16, 32 ≤ (Bytes.hexDigit n).toNat := by decide +kernel
  rw [unitEscape_eq]
  simp only [Printable, List.forall_mem_cons]
  refine ⟨by decide, by decide, hhex _ ?_, hhex _ ?_, hhex _ ?_, hhex _ ?_, List.forall_mem_nil _⟩ <;>
    omega

theorem printable_escapeChar (ascii : Bool) (c : Char) : Printable (escapeChar ascii c) := by
  unfold escapeChar
  split
  · next e he =>
    unfold shortEscape? at he
    split at he <;> cases he <;> simp [Printable]
  · simp only
    split
    · exact printable_unitEscape _
    · next hc =>
      split
      · exact Printable.nil.cons (Nat.not_lt.1 hc)
      · split
        · exact printable_unitEscape _
        · exact (printable_unitEscape _).append (printable_unitEscape _)

theorem printable_writeString (ascii : Bool) (s : String) : Printable (writeString ascii s) := by
  have hchars : Printable (s.toList.flatMap (escapeChar ascii)) := by
    intro c hc
    obtain ⟨d, -, hc⟩ := List.mem_flatMap.1 hc
    exact printable_escapeChar ascii d c hc
  exact (hchars.cons (by decide)).append (Printable.nil.cons (by decide))

theorem printable_commaSeparated {ts : List (List Char)} (hts : ∀ t ∈ ts, Printable t) :
    Printable (commaSeparated ts) := by
  induction ts using commaSeparated.induct with
  | case1 => exact .nil
  | case2 t => exact hts t List.mem_cons_self
  | case3 t ts _ ih =>
    obtain ⟨ht, hts⟩ := List.forall_mem_cons.1 hts
    rw [commaSeparated]
    · exact ht.append ((ih hts).cons (by decide))
    · assumption

theorem printable_write (style : Style) (v : Value) : Printable (write style v) := by
  induction v using Value.induct with
  | null => simp [write, Printable]
  | bool b => cases b <;> simp [write, Printable]
  | int k =>
    rw [write, writeInt_eq_signed]
    exact printable_signed _ (.digits _)
  | float x =>
    cases x with
    | finite negative code => exact printable_writeFinite _ negative code
    | infinite | nan => simp [write, writeFloat, Printable]
  | str s => exact printable_writeString _ s
  | arr _ ih =>
    have hitems := printable_commaSeparated (List.forall_mem_map.2 ih)
    rw [write, writeItems_eq]
    exact (hitems.cons (by decide)).append (Printable.nil.cons (by decide))
  | obj ms ih =>
    have hmembers : ∀ t ∈ (style.arrange ms).map (memberText style), Printable t := by
      rw [List.forall_mem_map]
      intro m hm
      have hvalue := ih m ((style.arrange_perm ms).mem_iff.1 hm)
      exact (printable_writeString _ _).append (hvalue.cons (by decide))
    rw [write_obj]
    exact ((printable_commaSeparated hmembers).cons (by decide)).append
      (Printable.nil.cons (by decide))

end UpdateSeal.Json
