import UpdateSeal.Proofs.Plans

/-!
# Digests of file regions

Digesting regions of a file answers with the digest of the bytes given in advance and those of the
regions, in their order, if all regions lie inside the file. Otherwise the first that does not is
reported. How many bytes are read at a time makes no difference to either. A report can be made only
if the numbers that it shows can be written.
-/

namespace UpdateSeal

open UpdateSeal.Action

variable {h : Host} {path : Path} {content : Bytes} {regions : List Region} {r : Region}

/-- The report on a region that does not lie inside the `size` bytes of a file. -/
def Region.report (r : Region) (size : Nat) (path : Path) : SourceFault :=
  if r.offset < 0 ∨ r.length < 0 then .negativeRegion r path else .regionExceeds r size path

theorem Failure.ofSource_eq (e : SourceFault) :
    ofSource e =
      if ∀ n ∈ e.numbers, n.natAbs < 10 ^ Json.maxDigits then .source e else .value .longNumber := by
  have hiff : e.numbers.all Manifest.isShort = true ↔
      ∀ n ∈ e.numbers, n.natAbs < 10 ^ Json.maxDigits := by
    simp only [List.all_eq_true, Manifest.isShort_iff]
  rw [ofSource]
  exact if_congr hiff rfl rfl

namespace Plan

theorem fault_eq_ofSource (path : Path) (r : Region) (size : Nat) :
    digestFile.fault path (r.fault size) = .ofSource (r.report size path) := by
  unfold Region.fault Region.report
  split <;> rfl

theorem answers_digestFile_of_find? {chunk : Int} (hchunk : 0 < chunk) (hr : h.Holds path content)
    (hfirst : regions.find? (¬ ·.Inside content.length) = some r) (lead : Bytes) :
    Answers (digestFile path regions lead chunk) h
      (.error (.ofSource (r.report content.length path))) := by
  have hdigest := digestRegions_of_find? hchunk hfirst lead
  have hfails : Answers (liftExcept (digestFile.fault path)
      (digestRegions content regions lead chunk)) h
        (.error (digestFile.fault path (r.fault content.length))) :=
    answers_liftExcept_error hdigest h
  rw [fault_eq_ofSource] at hfails
  exact (answers_read hr).tryCatch_ok.bind hfails

/-- Digesting regions of a file answers the same, however many bytes are read at a time. It gives a
digest exactly if every region lies inside the file, that of the bytes given in advance and the bytes
of the regions. Otherwise the first region that does not is reported, unless the report would show a
number that is too long to be written. -/
theorem digestFile_exact (hr : h.Holds path content) (regions : List Region) (lead : Bytes) :
    ∃ answer : Except Failure Bytes,
      (∀ chunk, 1 ≤ chunk → Answers (digestFile path regions lead chunk) h answer) ∧
      (∀ digest, answer = .ok digest ↔
        (∀ r ∈ regions, 0 ≤ r.offset ∧ 0 ≤ r.length ∧ r.offset + r.length ≤ content.length) ∧
          digest = sha256 (lead ++ regions.flatMap fun r =>
            (content.drop r.offset.toNat).take r.length.toNat)) ∧
      ∀ e, answer = .error e →
        ∃ r, regions.find? (¬ ·.Inside content.length) = some r ∧
          e = if ∀ n ∈ (r.report content.length path).numbers, n.natAbs < 10 ^ Json.maxDigits
            then .source (r.report content.length path) else .value .longNumber := by
  cases hfirst : regions.find? (¬ ·.Inside content.length) with
  | none =>
    have hin : ∀ r ∈ regions, r.Inside content.length := by
      simpa using List.find?_eq_none.1 hfirst
    refine ⟨_, fun chunk hchunk => answers_digestFile hchunk hr hin lead, fun digest => ?_, nofun⟩
    rw [Except.ok.injEq, eq_comm]
    exact (and_iff_right hin).symm
  | some r =>
    obtain ⟨hout, -⟩ := List.find?_eq_some_iff_append.1 hfirst
    have hout : ¬ r.Inside content.length := of_decide_eq_true hout
    refine ⟨_, fun chunk hchunk => answers_digestFile_of_find? hchunk hr hfirst lead,
      fun digest => ?_, ?_⟩
    · refine iff_of_false nofun fun hin => hout (hin.1 r (List.mem_of_find?_eq_some hfirst))
    · intro e he
      cases he
      exact ⟨r, rfl, Failure.ofSource_eq _⟩

/-- A region that ends too far behind any file for its end to be written. -/
def farRegion : Region := ⟨1, 10 ^ Json.maxDigits - 1⟩

theorem farRegion_stop : farRegion.stop = 10 ^ Json.maxDigits := by
  show (1 : Int) + (10 ^ Json.maxDigits - 1) = 10 ^ Json.maxDigits
  omega

theorem farRegion_not_inside {size : Nat} (hsize : size < 10) : ¬ farRegion.Inside size := by
  have hbase : 10 ≤ 10 ^ Json.maxDigits := Nat.le_self_pow (by decide) 10
  rintro ⟨-, -, hstop⟩
  rw [farRegion_stop] at hstop
  have hstop : 10 ^ Json.maxDigits ≤ size := by exact_mod_cast hstop
  omega

theorem farRegion_not_bounded (size : Nat) (path : Path) :
    ¬ ∀ n ∈ (farRegion.report size path).numbers, n.natAbs < 10 ^ Json.maxDigits := by
  have hpos : (0 : Int) < 10 ^ Json.maxDigits := by positivity
  have hreport : farRegion.report size path = .regionExceeds farRegion size path := by
    rw [Region.report, if_neg]
    show ¬ ((1 : Int) < 0 ∨ (10 : Int) ^ Json.maxDigits - 1 < 0)
    omega
  have hbase : (10 : Int).natAbs = 10 := rfl
  intro hall
  rw [hreport] at hall
  have hstop := hall farRegion.stop (List.mem_cons_of_mem _ List.mem_cons_self)
  rw [farRegion_stop, Int.natAbs_pow, hbase] at hstop
  exact Nat.lt_irrefl _ hstop

theorem digestFile_overlapping :
    (payloadHost [0, 1, 2, 3]).Holds ⟨false, ["payload"]⟩ [0, 1, 2, 3] ∧
      Answers (digestFile ⟨false, ["payload"]⟩ [⟨1, 3⟩, ⟨0, 2⟩, ⟨4, 0⟩] [9] 2)
        (payloadHost [0, 1, 2, 3]) (.ok (sha256 [9, 1, 2, 3, 0, 1])) ∧
      Answers (digestFile ⟨false, ["payload"]⟩ [farRegion] [] 2)
        (payloadHost [0, 1, 2, 3]) (.error (.value .longNumber)) := by
  have hr := payloadHost_holds [0, 1, 2, 3]
  refine ⟨hr, ?_, ?_⟩
  · obtain ⟨answer, hanswers, hok, -⟩ :=
      digestFile_exact hr [⟨1, 3⟩, ⟨0, 2⟩, ⟨4, 0⟩] [9]
    have hdigest := (hok (sha256 [9, 1, 2, 3, 0, 1])).2 ⟨by decide, rfl⟩
    rw [← hdigest]
    exact hanswers 2 (by decide)
  · obtain ⟨answer, hanswers, hok, herror⟩ := digestFile_exact hr [farRegion] []
    cases answer with
    | ok digest =>
      have hin := ((hok digest).1 rfl).1 farRegion List.mem_cons_self
      exact absurd hin (farRegion_not_inside (by decide))
    | error e =>
      obtain ⟨r, hfirst, rfl⟩ := herror e rfl
      obtain rfl := List.mem_singleton.1 (List.mem_of_find?_eq_some hfirst)
      have hanswer := hanswers 2 (by decide)
      rwa [if_neg (farRegion_not_bounded _ _)] at hanswer

end Plan

end UpdateSeal
