import UpdateSeal.Digest.Region

/-!
# Digests of what was fed in pieces

Feeding a message in pieces gives the digest of the message. So the digest of file regions is the
digest of their bytes one after another, whatever the number of bytes that is read at a time.
-/

namespace UpdateSeal

namespace Sha256

theorem absorb_of_short {s : Chain} {b : Bytes} (h : b.length < 64) : absorb s b = (s, b) := by
  have hd : b.drop 63 = [] := List.drop_eq_nil_of_le (by omega)
  unfold absorb
  split
  · rfl
  · next h' => simp [hd] at h'

theorem absorb_of_drop {s : Chain} {b rest : Bytes} {c : UInt8} (h : b.drop 63 = c :: rest) :
    absorb s b = absorb (compress s (b.take 64)) rest := by
  rw [absorb]
  split
  · next h' => simp [h] at h'
  · next h' =>
    rw [h] at h'
    cases h'
    rfl

theorem absorb_append (s : Chain) (a b : Bytes) :
    absorb s (a ++ b) = absorb (absorb s a).1 ((absorb s a).2 ++ b) := by
  induction s, a using absorb.induct with
  | case1 s a h =>
    have ha : a.length < 64 := by
      have := congrArg List.length h
      simp at this
      omega
    rw [absorb_of_short ha]
  | case2 s a c rest h ih =>
    have hl : 64 ≤ a.length := by
      have := congrArg List.length h
      simp at this
      omega
    have hd : (a ++ b).drop 63 = c :: (rest ++ b) := by
      rw [List.drop_append_of_le_length (by omega), h, List.cons_append]
    rw [absorb_of_drop hd, absorb_of_drop h, List.take_append_of_le_length hl, ih]

theorem Stream.update_update (s : Stream) (a b : Bytes) :
    (s.update a).update b = s.update (a ++ b) := by
  simp only [Stream.update, List.length_append, Nat.add_assoc]
  rw [← List.append_assoc, absorb_append s.chain (s.pending ++ a) b]

end Sha256

theorem feedChunks_update {chunk : Int} (hchunk : 0 < chunk) (s : Sha256.Stream) (lead rest : Bytes)
    (n : Nat) (hn : n ≤ rest.length) :
    feedChunks chunk (s.update lead) rest n = .ok (s.update (lead ++ rest.take n)) := by
  induction n using Nat.strongRecOn generalizing lead rest with
  | ind n ih =>
    rw [feedChunks]
    by_cases h0 : n = 0
    · simp [h0]
    · have hmin : 0 ≤ min chunk n := by omega
      have hpos : 0 < (min chunk (n : Int)).toNat := by omega
      have hle : (min chunk (n : Int)).toNat ≤ n := by omega
      rw [if_neg h0, readBytes, if_pos hmin]
      generalize hm : (min chunk (n : Int)).toNat = m at hpos hle
      have hlen : (rest.take m).length = m := List.length_take_of_le (by omega)
      cases hp : rest.take m with
      | nil =>
        rw [hp, List.length_nil] at hlen
        omega
      | cons c piece =>
        rw [hp, List.length_cons] at hlen
        simp only [hlen]
        rw [← hp, Sha256.Stream.update_update, ih (n - m) (by omega) _ _ (by simp; omega)]
        congr 2
        rw [List.append_assoc, ← List.take_add, Nat.add_sub_cancel' hle]

/-- A region lies inside `size` bytes. -/
def Region.Inside (r : Region) (size : Nat) : Prop := 0 ≤ r.offset ∧ 0 ≤ r.length ∧ r.stop ≤ size

instance (r : Region) (size : Nat) : Decidable (r.Inside size) :=
  inferInstanceAs (Decidable (0 ≤ r.offset ∧ 0 ≤ r.length ∧ r.stop ≤ size))

/-- The bytes of a region. -/
def Region.bytes (r : Region) (content : Bytes) : Bytes :=
  Bytes.slice r.offset.toNat r.length.toNat content

theorem Region.length_bytes {r : Region} {content : Bytes} (h : r.Inside content.length) :
    ((r.bytes content).length : Int) = r.length := by
  obtain ⟨ho, hl, hs⟩ := h
  simp only [Region.stop] at hs
  simp only [Region.bytes, Bytes.slice, List.length_take, List.length_drop]
  omega

theorem feedRegion_update {chunk : Int} (hchunk : 0 < chunk) {content : Bytes} {r : Region}
    (hr : r.Inside content.length) (s : Sha256.Stream) (lead : Bytes) :
    feedRegion chunk content (s.update lead) r = .ok (s.update (lead ++ r.bytes content)) := by
  obtain ⟨ho, hl, hs⟩ := hr
  have hs' : r.offset + r.length ≤ content.length := hs
  rw [feedRegion, if_neg (by omega), if_neg (by omega),
    feedChunks_update hchunk s lead _ _ (by simp; omega)]
  rfl

theorem foldlM_feedRegion {chunk : Int} (hchunk : 0 < chunk) {content : Bytes} {regions : List Region}
    (hr : ∀ r ∈ regions, r.Inside content.length) (s : Sha256.Stream) (lead : Bytes) :
    regions.foldlM (feedRegion chunk content) (s.update lead) =
      .ok (s.update (lead ++ regions.flatMap (·.bytes content))) := by
  induction regions generalizing lead with
  | nil => simp [pure, Except.pure]
  | cons r regions ih =>
    rw [List.foldlM_cons, feedRegion_update hchunk (hr r List.mem_cons_self)]
    simp only [bind, Except.bind, List.flatMap_cons]
    rw [ih fun r hr' => hr r (List.mem_cons_of_mem _ hr'), List.append_assoc]

/-- The digest of regions is that of their bytes, whatever is read at a time. -/
theorem digestRegions_eq {chunk : Int} (hchunk : 0 < chunk) {content : Bytes} {regions : List Region}
    (hr : ∀ r ∈ regions, r.Inside content.length) (lead : Bytes) :
    digestRegions content regions lead chunk =
      .ok (sha256 (lead ++ regions.flatMap (·.bytes content))) := by
  rw [digestRegions, foldlM_feedRegion hchunk hr]
  rfl

/-! ### Regions that do not lie inside -/

/-- What is wrong with a region that does not lie inside `size` bytes. -/
def Region.fault (r : Region) (size : Nat) : RegionFault :=
  if r.offset < 0 ∨ r.length < 0 then .negative r else .exceeds r size

theorem feedRegion_of_not_inside {content : Bytes} {r : Region} (hr : ¬ r.Inside content.length)
    (chunk : Int) (s : Sha256.Stream) :
    feedRegion chunk content s r = .error (r.fault content.length) := by
  rw [feedRegion, Region.fault]
  split
  · rfl
  · next hnegative =>
    have hstop : (content.length : Int) < r.stop :=
      Int.not_le.1 fun hstop => hr ⟨by omega, by omega, hstop⟩
    rw [if_pos hstop]

theorem digestRegions_of_find? {chunk : Int} (hchunk : 0 < chunk) {content : Bytes}
    {regions : List Region} {r : Region}
    (hfirst : regions.find? (¬ ·.Inside content.length) = some r) (lead : Bytes) :
    digestRegions content regions lead chunk = .error (r.fault content.length) := by
  obtain ⟨hr, before, after, rfl, hbefore⟩ := List.find?_eq_some_iff_append.1 hfirst
  have hin : ∀ r ∈ before, r.Inside content.length := by simpa using hbefore
  rw [digestRegions, List.foldlM_append, foldlM_feedRegion hchunk hin]
  simp only [bind, Except.bind, List.foldlM_cons]
  rw [feedRegion_of_not_inside (of_decide_eq_true hr)]

end UpdateSeal
