import Mathlib.Algebra.Order.Field.Basic
import Mathlib.Data.List.Basic
import Mathlib.Data.List.Pairwise
import Mathlib.Tactic.Linarith
import Mathlib.Tactic.Ring

/-!
# Token buckets

A bucket of some capacity gains tokens at a steady rate until it is full.  It is known by the level
that it had at some time.  A draw takes one token; from a bucket that holds less than one it takes
nothing.

`length_taken_within_le`: in a window of time, no more draws succeed than a full bucket gives and
the window brings.
-/

/-- How much a bucket holds, and how much it gains in a unit of time. -/
structure TokenBucket (K : Type*) where
  capacity : K
  refill : K

namespace TokenBucket

variable {K : Type*} [Field K] [LinearOrder K] (B : TokenBucket K)

/-- The level now of a bucket that had a level at some time. -/
def levelAt (b : K × K) (now : K) : K := min B.capacity (b.1 + (now - b.2) * B.refill)

/-- A draw. -/
def draw (b : K × K) (now : K) : K × K :=
  if B.levelAt b now < 1 then (B.levelAt b now, now) else (B.levelAt b now - 1, now)

/-- The times of the draws that succeed. -/
def taken (b : K × K) : List K → List K
  | [] => []
  | t :: ts =>
    if B.levelAt b t < 1 then taken (B.draw b t) ts else t :: taken (B.draw b t) ts

theorem levelAt_le_capacity (b : K × K) (now : K) : B.levelAt b now ≤ B.capacity := min_le_left _ _

theorem levelAt_le_add (b : K × K) (now : K) : B.levelAt b now ≤ b.1 + (now - b.2) * B.refill :=
  min_le_right _ _

@[simp] theorem draw_snd (b : K × K) (now : K) : (B.draw b now).2 = now := by
  unfold draw
  split <;> rfl

variable {B}

/-- The draws that succeed are some of the draws. -/
theorem taken_sublist (b : K × K) (ts : List K) : (B.taken b ts).Sublist ts := by
  induction ts generalizing b with
  | nil => exact List.Sublist.slnil
  | cons t ts ih =>
    unfold taken
    split
    · exact (ih _).cons t
    · exact (ih _).cons_cons t

/-- The first draw may start from the level that it finds. -/
theorem taken_levelAt (b : K × K) (t : K) (ts : List K) :
    B.taken (B.levelAt b t, t) (t :: ts) = B.taken b (t :: ts) := by
  have hlevel : B.levelAt (B.levelAt b t, t) t = B.levelAt b t := by
    unfold levelAt
    simp
  simp only [taken, draw, hlevel]

variable [IsStrictOrderedRing K]

/-- A full bucket stays full. -/
theorem levelAt_full (hrefill : 0 ≤ B.refill) {s t : K} (h : s ≤ t) :
    B.levelAt (B.capacity, s) t = B.capacity :=
  min_eq_left (le_add_of_nonneg_right (mul_nonneg (sub_nonneg.mpr h) hrefill))

theorem levelAt_nonneg (hcapacity : 0 ≤ B.capacity) (hrefill : 0 ≤ B.refill) {b : K × K} {now : K}
    (hb : 0 ≤ b.1) (h : b.2 ≤ now) : 0 ≤ B.levelAt b now :=
  le_min hcapacity (add_nonneg hb (mul_nonneg (sub_nonneg.mpr h) hrefill))

theorem draw_fst_nonneg (hcapacity : 0 ≤ B.capacity) (hrefill : 0 ≤ B.refill) {b : K × K} {now : K}
    (hb : 0 ≤ b.1) (h : b.2 ≤ now) : 0 ≤ (B.draw b now).1 := by
  unfold draw
  split
  · exact levelAt_nonneg hcapacity hrefill hb h
  · rename_i hlevel
    exact sub_nonneg.mpr (not_lt.mp hlevel)

/-- Until some time no more draws succeed than the bucket holds and gains. -/
theorem length_taken_until_le (hcapacity : 0 ≤ B.capacity) (hrefill : 0 ≤ B.refill) {b : K × K}
    {ts : List K} {stop : K} (hb : 0 ≤ b.1) (hstop : b.2 ≤ stop)
    (hsorted : (b.2 :: ts).Pairwise (· ≤ ·)) :
    (((B.taken b ts).filter (· ≤ stop)).length : K) ≤ b.1 + (stop - b.2) * B.refill := by
  induction ts generalizing b with
  | nil =>
    simp only [taken, List.filter_nil, List.length_nil, Nat.cast_zero]
    exact add_nonneg hb (mul_nonneg (sub_nonneg.mpr hstop) hrefill)
  | cons t ts ih =>
    obtain ⟨hfirst, hrest⟩ := List.pairwise_cons.mp hsorted
    have ht : b.2 ≤ t := hfirst t List.mem_cons_self
    rcases le_or_gt t stop with hin | hout
    · have hlater := ih (b := B.draw b t) (draw_fst_nonneg hcapacity hrefill hb ht)
        (by rwa [draw_snd]) (by rwa [draw_snd])
      rw [draw_snd] at hlater
      have hlevel := levelAt_le_add B b t
      unfold taken
      by_cases hone : B.levelAt b t < 1
      · have hdraw : (B.draw b t).1 = B.levelAt b t := by rw [draw, if_pos hone]
        rw [if_pos hone]
        rw [hdraw] at hlater
        linarith
      · have hdraw : (B.draw b t).1 = B.levelAt b t - 1 := by rw [draw, if_neg hone]
        rw [if_neg hone, List.filter_cons_of_pos (by simpa using hin), List.length_cons]
        rw [hdraw] at hlater
        push_cast
        linarith
    · -- every draw is too late
      have hnone : (B.taken b (t :: ts)).filter (· ≤ stop) = [] := by
        refine List.filter_eq_nil_iff.mpr fun s hs => ?_
        have hs' : t ≤ s := by
          rcases List.mem_cons.mp ((taken_sublist b _).subset hs) with rfl | hmem
          · exact le_rfl
          · exact List.rel_of_pairwise_cons hrest hmem
        simpa using lt_of_lt_of_le hout hs'
      rw [hnone]
      simp only [List.length_nil, Nat.cast_zero]
      exact add_nonneg hb (mul_nonneg (sub_nonneg.mpr hstop) hrefill)

/-- **The rate is enforced**: in a window no more draws succeed than a full bucket gives and the
window brings. -/
theorem length_taken_within_le (hcapacity : 0 ≤ B.capacity) (hrefill : 0 ≤ B.refill) {b : K × K}
    {ts : List K} {start stop : K} (hb : 0 ≤ b.1) (hsorted : (b.2 :: ts).Pairwise (· ≤ ·))
    (h : start ≤ stop) :
    (((B.taken b ts).filter fun t => start ≤ t ∧ t ≤ stop).length : K) ≤
      B.capacity + (stop - start) * B.refill := by
  have hwindow : 0 ≤ (stop - start) * B.refill := mul_nonneg (sub_nonneg.mpr h) hrefill
  induction ts generalizing b with
  | nil =>
    simp only [taken, List.filter_nil, List.length_nil, Nat.cast_zero]
    exact add_nonneg hcapacity hwindow
  | cons t ts ih =>
    obtain ⟨hfirst, hrest⟩ := List.pairwise_cons.mp hsorted
    have ht : b.2 ≤ t := hfirst t List.mem_cons_self
    rcases lt_or_ge t start with hearly | hstart
    · have hlater := ih (b := B.draw b t) (draw_fst_nonneg hcapacity hrefill hb ht)
        (by rwa [draw_snd])
      unfold taken
      split
      · exact hlater
      · rwa [List.filter_cons_of_neg (by simp [hearly])]
    · rcases le_or_gt t stop with hin | hout
      · have hfrom : ((B.levelAt b t, t).2 :: t :: ts).Pairwise (· ≤ ·) := by
          refine List.pairwise_cons.mpr ⟨fun s hs => ?_, hrest⟩
          rcases List.mem_cons.mp hs with rfl | hmem
          · exact le_rfl
          · exact List.rel_of_pairwise_cons hrest hmem
        have huntil := length_taken_until_le hcapacity hrefill
          (levelAt_nonneg hcapacity hrefill hb ht) hin hfrom
        rw [taken_levelAt] at huntil
        have hfewer : ((B.taken b (t :: ts)).filter fun s => start ≤ s ∧ s ≤ stop).length ≤
            ((B.taken b (t :: ts)).filter (· ≤ stop)).length := by
          refine (List.monotone_filter_right _ fun s hs => ?_).length_le
          simp only [decide_eq_true_eq] at hs ⊢
          exact hs.2
        have hlevel := levelAt_le_capacity B b t
        have hshort : (stop - t) * B.refill ≤ (stop - start) * B.refill :=
          mul_le_mul_of_nonneg_right (by linarith) hrefill
        have hfewer' : (((B.taken b (t :: ts)).filter fun s => start ≤ s ∧ s ≤ stop).length : K) ≤
            (((B.taken b (t :: ts)).filter (· ≤ stop)).length : K) := Nat.cast_le.mpr hfewer
        simp only at huntil
        linarith
      · have hnone : ((B.taken b (t :: ts)).filter fun s => start ≤ s ∧ s ≤ stop) = [] := by
          refine List.filter_eq_nil_iff.mpr fun s hs => ?_
          have hs' : t ≤ s := by
            rcases List.mem_cons.mp ((taken_sublist b _).subset hs) with rfl | hmem
            · exact le_rfl
            · exact List.rel_of_pairwise_cons hrest hmem
          simp only [decide_eq_true_eq, not_and, not_le]
          exact fun _ => lt_of_lt_of_le hout hs'
        rw [hnone]
        simp only [List.length_nil, Nat.cast_zero]
        exact add_nonneg hcapacity hwindow

end TokenBucket
