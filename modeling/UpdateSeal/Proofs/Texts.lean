import Mathlib.Algebra.Ring.Nat
import Mathlib.Data.List.Basic
import UpdateSeal.Bytes
import UpdateSeal.Text.Lines

/-!
# Texts and their lines

A text is read back from its bytes, and lines that were written one after another, each with its end
behind it, are split again where they were joined.
-/

namespace UpdateSeal

namespace Bytes

theorem text?_ofText (s : String) : text? (ofText s) = some s := by
  have hmk : ByteArray.mk (ofText s).toArray = s.toByteArray := by simp [ofText]
  rw [text?, hmk, String.fromUTF8?, dif_pos s.isValidUTF8]
  rfl

theorem ofText_injective {s t : String} (h : ofText s = ofText t) : s = t := by
  have htext := text?_ofText s
  rw [h, text?_ofText] at htext
  exact (Option.some.inj htext).symm

theorem eq_ofText_of_text? {b : Bytes} {s : String} (h : text? b = some s) : b = ofText s := by
  unfold text? String.fromUTF8? at h
  split at h
  · obtain rfl := Option.some.inj h
    rfl
  · cases h

theorem ofText_ofList (cs : List Char) :
    ofText (String.ofList cs) = cs.flatMap String.utf8EncodeChar := by
  simp [ofText, List.utf8Encode]

theorem ofText_ofList_append (cs ds : List Char) :
    ofText (String.ofList (cs ++ ds)) = ofText (String.ofList cs) ++ ofText (String.ofList ds) := by
  rw [ofText_ofList, ofText_ofList, ofText_ofList, List.flatMap_append]

theorem length_ofText_ofList_le (cs : List Char) :
    (ofText (String.ofList cs)).length ≤ 4 * cs.length := by
  induction cs with
  | nil => simp [ofText]
  | cons c cs ih =>
    have hc := Char.utf8Size_le_four c
    simp only [ofText] at ih ⊢
    simp [List.utf8Encode] at ih ⊢
    omega

end Bytes

namespace Text

/-- No line ends within these characters. -/
def Unbroken (cs : List Char) : Prop := ∀ c ∈ cs, c ≠ '\n' ∧ c ≠ '\r'

theorem Unbroken.append {cs ds : List Char} (hcs : Unbroken cs) (hds : Unbroken ds) :
    Unbroken (cs ++ ds) := List.forall_mem_append.2 ⟨hcs, hds⟩

theorem Unbroken.head?_ne {cs : List Char} (hcs : Unbroken cs) : cs.head? ≠ some '\n' :=
  fun hhead => (hcs _ (List.mem_of_head? hhead)).1 rfl

theorem linesFrom_append {cs : List Char} (hcs : Unbroken cs) (line rest : List Char) :
    linesFrom line (cs ++ '\n' :: rest) = (line.reverse ++ cs) :: linesFrom [] rest := by
  induction cs generalizing line with
  | nil => simp [linesFrom]
  | cons c cs ih =>
    obtain ⟨hc, hcs⟩ := List.forall_mem_cons.1 hcs
    rw [List.cons_append, linesFrom]
    · simp [hc.1, hc.2, ih hcs]
    · simp [hc.2]

def joinLines (ls : List (List Char)) : List Char := ls.flatMap (· ++ ['\n'])

theorem lines_joinLines {ls : List (List Char)} (hls : ∀ l ∈ ls, Unbroken l) :
    lines (joinLines ls) = ls := by
  induction ls with
  | nil => rfl
  | cons l ls ih =>
    obtain ⟨hl, hls⟩ := List.forall_mem_cons.1 hls
    have hlines := ih hls
    unfold lines joinLines at hlines ⊢
    rw [List.flatMap_cons, List.append_assoc, List.singleton_append, linesFrom_append hl, hlines]
    rfl

theorem trim_of_ends {p : Char → Bool} {c d : Char} {cs : List Char} (hc : p c = false)
    (hd : p d = false) : trim p (c :: cs ++ [d]) = c :: cs ++ [d] := by
  rw [trim, List.cons_append, List.dropWhile_cons_of_neg (by simp [hc]), trimRight,
    ← List.cons_append, List.reverse_append, List.reverse_singleton, List.singleton_append,
    List.dropWhile_cons_of_neg (by simp [hd]), List.reverse_cons, List.reverse_reverse]

theorem trim_append_of_blank {p : Char → Bool} {blanks : List Char} (hblanks : ∀ c ∈ blanks, p c)
    (cs : List Char) : trim p (blanks ++ cs) = trim p cs := by
  rw [trim, trim, List.dropWhile_append_of_pos hblanks]

/-! ### Texts that a line can be put behind -/

/-- Behind its last line end a text is blank. -/
def Ended (cs : List Char) : Prop :=
  ∃ front blanks, cs = front ++ blanks ∧ (∀ c ∈ front.getLast?, c = '\n' ∨ c = '\r') ∧
    Unbroken blanks ∧ ∀ c ∈ blanks, isSpace c

theorem ended_of_getLast? {cs : List Char} (hlast : ∀ c ∈ cs.getLast?, c = '\n' ∨ c = '\r') :
    Ended cs :=
  ⟨cs, [], (List.append_nil cs).symm, hlast, List.forall_mem_nil _, List.forall_mem_nil _⟩

theorem ended_nil : Ended [] := ended_of_getLast? (by simp)

theorem linesFrom_cons {c : Char} {rest : List Char} (hpair : c = '\r' → rest.head? ≠ some '\n')
    (line : List Char) :
    linesFrom line (c :: rest) =
      if c == '\n' || c == '\r' then line.reverse :: linesFrom [] rest
      else linesFrom (c :: line) rest := by
  rw [linesFrom]
  rintro tail hc rfl
  exact hpair hc rfl

theorem linesFrom_append_of_ended {line front rest : List Char} (hline : front = [] → line = [])
    (hlast : ∀ c ∈ front.getLast?, c = '\n' ∨ c = '\r') (hrest : rest.head? ≠ some '\n') :
    linesFrom line (front ++ rest) = linesFrom line front ++ linesFrom [] rest := by
  induction line, front using linesFrom.induct with
  | case1 line => rw [hline rfl]; rfl
  | case2 line hne => rw [hline rfl]; rfl
  | case3 line front ih =>
    rw [List.cons_append, List.cons_append, linesFrom, linesFrom, List.cons_append]
    rw [ih (fun _ => rfl) fun c hc => hlast c (List.mem_getLast?_cons (List.mem_getLast?_cons hc))]
  | case4 line c front hpair hc ih =>
    have hfront : c = '\r' → front.head? ≠ some '\n' := by
      intro hcr hhead
      obtain ⟨tail, htail⟩ := List.head?_eq_some_iff.1 hhead
      exact hpair tail hcr htail
    have hboth : c = '\r' → (front ++ rest).head? ≠ some '\n' := by
      intro hcr
      cases front with
      | nil => exact hrest
      | cons d front => exact hfront hcr
    rw [List.cons_append, linesFrom_cons hboth, linesFrom_cons hfront, if_pos hc, if_pos hc,
      ih (fun _ => rfl) fun d hd => hlast d (List.mem_getLast?_cons hd), List.cons_append]
  | case5 line c front hpair hc ih =>
    rw [Bool.or_eq_true, beq_iff_eq, beq_iff_eq] at hc
    have hcr : ¬ c = '\r' := fun h => hc (.inr h)
    rw [List.cons_append, linesFrom_cons (absurd · hcr), linesFrom_cons (absurd · hcr),
      if_neg (by simpa using hc), if_neg (by simpa using hc)]
    refine ih ?_ fun d hd => hlast d (List.mem_getLast?_cons hd)
    rintro rfl
    exact absurd (hlast c rfl) hc

theorem lines_append_of_ended {front rest : List Char}
    (hlast : ∀ c ∈ front.getLast?, c = '\n' ∨ c = '\r') (hrest : rest.head? ≠ some '\n') :
    lines (front ++ rest) = lines front ++ lines rest :=
  linesFrom_append_of_ended (fun _ => rfl) hlast hrest

theorem lines_of_unbroken {cs : List Char} (hcs : Unbroken cs) (hne : cs ≠ []) :
    lines cs = [cs] := by
  have hlines : ∀ line, cs ++ line ≠ [] → linesFrom line cs = [line.reverse ++ cs] := by
    clear hne
    induction cs with
    | nil =>
      intro line hline
      rw [linesFrom, if_neg (by simpa using hline), List.append_nil]
    | cons c cs ih =>
      intro line _
      obtain ⟨hc, hcs⟩ := List.forall_mem_cons.1 hcs
      rw [linesFrom_cons (absurd · hc.2), if_neg (by simp [hc.1, hc.2]), ih hcs _ (by simp)]
      simp
  exact hlines [] (by rwa [List.append_nil])

end Text

end UpdateSeal
