import Istos.Queue.Equiv.Chord

/-!
# A chord across a restart

Jobs are written to storage and barriers are not.  Two stores whose barriers of a chord are the
same answer the reports of that chord alike (`firings_congr`), so a restart goes unnoticed where no
barrier was open; where one was, the members that reported before the restart are gone and the
chord never fires.

* `restart_keeps_chord`: the result lists are the same with and without the restart exactly when
  no barrier was open (`chord_lost_in_restart`).
-/

namespace Istos

variable {T : Type} [LinearOrder T]

/-! ### Two stores with one barrier -/

/-- What a report does depends on the barrier and on nothing else. -/
theorem chordReport_congr {s s' : QueueStore T} {chordId : String}
    (h : s.chords.get? chordId = s'.chords.get? chordId) (index size : ℤ) (res : Option String)
    (now : T) :
    (∃ e, s.chordReport chordId index size res now = .error e ∧
        s'.chordReport chordId index size res now = .error e) ∨
      ∃ t t' : QueueStore T, ∃ answer, s.chordReport chordId index size res now = .ok (t, answer) ∧
        s'.chordReport chordId index size res now = .ok (t', answer) ∧
        t.chords.get? chordId = t'.chords.get? chordId := by
  have hbarrier : s.barrier chordId index size now = s'.barrier chordId index size now := by
    unfold QueueStore.barrier
    rw [h]
  have hput : ∀ (t : Table (Prod.fst : String × Chord T → String)) (ch : Chord T),
      (t.put (chordId, ch)).get? chordId = some (chordId, ch) := by
    intro t ch
    exact t.get?_put_self (chordId, ch)
  unfold QueueStore.chordReport
  rw [hbarrier]
  by_cases hrange : size ≤ 0 ∨ index < 0 ∨ size ≤ index
  · rw [if_pos hrange, if_pos hrange]
    exact Or.inl ⟨_, rfl, rfl⟩
  · rw [if_neg hrange, if_neg hrange]
    cases s'.barrier chordId index size now with
    | error e => exact Or.inl ⟨e, rfl, rfl⟩
    | ok chord =>
      right
      dsimp only
      by_cases hold : chord.fired = true ∨ index ∈ chord.reported
      · rw [if_pos hold, if_pos hold]
        refine ⟨_, _, none, rfl, rfl, ?_⟩
        simp only [hput]
      · rw [if_neg hold, if_neg hold]
        by_cases hfull : chord.size ≤ ((insert index chord.reported).card : ℤ)
        · rw [if_pos hfull, if_pos hfull]
          refine ⟨_, _, _, rfl, rfl, ?_⟩
          simp only [Table.get?_erase_self]
        · rw [if_neg hfull, if_neg hfull]
          refine ⟨_, _, none, rfl, rfl, ?_⟩
          simp only [hput]

variable [Zero T] [Add T]

/-- **Two stores with one barrier** fire alike. -/
theorem firings_congr (c : QueueConfig T) (chordId : String) (size : ℤ)
    (calls : List (ChordCall T)) {s s' : QueueStore T} (w : List (Report T))
    (h : s.chords.get? chordId = s'.chords.get? chordId) :
    s.firings c chordId size w calls = s'.firings c chordId size w calls := by
  induction calls generalizing s s' w with
  | nil => rfl
  | cons call calls ih =>
    cases call with
    | op op =>
      have hnext : (s.perform c op).store.chords.get? chordId
          = (s'.perform c op).store.chords.get? chordId := by
        rw [chords_perform, chords_perform, h]
      simp only [QueueStore.firings]
      rw [hnext]
      exact ih _ hnext
    | report r =>
      rcases chordReport_congr h r.index size r.result r.now with
        ⟨e, he, he'⟩ | ⟨t, t', answer, ht, ht', hnext⟩
      · simp only [QueueStore.firings, he, he']
        exact ih w h
      · simp only [QueueStore.firings, ht, ht']
        cases answer with
        | none => exact ih _ hnext
        | some results => exact congrArg _ (ih _ hnext)

/-! ### The restart -/

/-- The members that have not been counted, each with one report. -/
def missing (size : ℤ) (w : List (Report T)) : List (Report T) :=
  ((List.range size.toNat).filter fun j : ℕ => w.all fun r => decide (r.index ≠ j)).map
    fun j : ℕ => ⟨j, none, 0⟩

omit [LinearOrder T] [Add T] in
theorem mem_missing {size : ℤ} {w : List (Report T)} {j : ℤ} :
    (∃ r ∈ missing size w, r.index = j) ↔ 0 ≤ j ∧ j < size ∧ ¬ ∃ r ∈ w, r.index = j := by
  simp only [missing, List.mem_map, List.mem_filter, List.mem_range, List.all_eq_true,
    decide_eq_true_eq]
  constructor
  · rintro ⟨-, ⟨k, ⟨hk, hnone⟩, rfl⟩, rfl⟩
    refine ⟨Int.natCast_nonneg k, ?_, ?_⟩
    · show (k : ℤ) < size
      omega
    · rintro ⟨r, hr, hidx⟩
      exact hnone r hr hidx
  · rintro ⟨h0, hlt, hnone⟩
    refine ⟨⟨j, none, 0⟩, ⟨j.toNat, ⟨by omega, fun r hr hidx => hnone ⟨r, hr, ?_⟩⟩, ?_⟩, rfl⟩
    · omega
    · rw [Int.toNat_of_nonneg h0]

/-- The members that had not been counted report in `rest`. -/
def Completes (size : ℤ) (w : List (Report T)) (rest : List (ChordCall T)) : Prop :=
  ∀ j, 0 ≤ j → j < size → ∃ r ∈ w ++ reports rest, r.index = j

/-- **Chord progress survives a restart** if and only if the barrier is not open when it happens:
then, and only then, whatever the calls in which the remaining members report, the result lists are
those there would have been without the restart, and there is one unless a sweep dropped the
barrier. -/
theorem restart_keeps_chord (c : QueueConfig T) (chordId : String) (size : ℤ) (hsize : 0 < size)
    (before : List (ChordCall T)) (σ : Storage T) (fails : ℕ → Bool) (clock : ℕ → T) :
    let (s, w) := QueueStore.init.chordRun c chordId size [] before
    let s' := QueueStore.init.load c σ fails clock
    (∀ rest, Completes size w rest →
        (s'.firings c chordId size [] rest).map Firing.results
            = (s.firings c chordId size w rest).map Firing.results ∧
          ((∀ now, .op (.sweep now) ∉ rest) → s'.firings c chordId size [] rest ≠ [])) ↔
      s.chords.get? chordId = none := by
  have hcounts := chordRun_counts c chordId size before (s := QueueStore.init) (w := []) rfl
  obtain ⟨-, -, -, hload⟩ := load_spec c σ fails clock QueueStore.init
  generalize (QueueStore.init : QueueStore T).chordRun c chordId size [] before = x at hcounts ⊢
  obtain ⟨s, w⟩ := x
  have hfresh : (QueueStore.init.load c σ fails clock).chords.get? chordId = none := by
    rw [hload]
    rfl
  have hfreshCounts : CountsIn size []
    ((QueueStore.init.load c σ fails clock).chords.get? chordId) := by
    rw [hfresh]
    exact rfl
  dsimp only at hcounts ⊢
  constructor
  · intro hkeeps
    cases hget : s.chords.get? chordId with
    | none => rfl
    | some x =>
      -- let every other member report once: the reports before the restart are missed
      rw [hget] at hcounts
      obtain ⟨hw, hopen⟩ := hcounts
      have hcompletes : Completes size w ((missing size w).map .report) := by
        intro j h0 hj
        rw [reports_map]
        by_cases hin : ∃ r ∈ w, r.index = j
        · obtain ⟨r, hr, hidx⟩ := hin
          exact ⟨r, List.mem_append_left _ hr, hidx⟩
        · obtain ⟨r, hr, hidx⟩ := mem_missing.mpr ⟨h0, hj, hin⟩
          exact ⟨r, List.mem_append_right _ hr, hidx⟩
      have hfires := (hkeeps _ hcompletes).2 (sweep_notMem_map _)
      have hall := complete_of_firings c chordId size _ hfreshCounts hfires
      rw [List.nil_append, reports_map] at hall
      obtain ⟨r, hr⟩ := List.exists_mem_of_ne_nil w hw
      obtain ⟨h0, hlt⟩ := hopen.valid r hr
      obtain ⟨-, -, hnone⟩ := mem_missing.mp (hall.2 r.index h0 hlt)
      exact absurd ⟨r, hr, rfl⟩ hnone
  · intro hclosed rest hrest
    -- no barrier was open at the restart, so nothing is missed
    rw [hclosed] at hcounts
    obtain rfl : w = [] := hcounts
    refine ⟨congrArg _ (firings_congr c chordId size rest [] (hfresh.trans hclosed.symm)), ?_⟩
    intro nosweep
    exact firings_of_complete c chordId size rest nosweep hfreshCounts ⟨hsize, hrest⟩

/-- A chord of two that starts after a restart fires as if there had been none. -/
theorem restart_keeps_chord_unopened :
    let s' : QueueStore ℤ := QueueStore.init.load .defaults .empty QueueStore.reliable fun _ => 1
    s'.firings .defaults "c" 2 [] [.report ⟨0, some "YQ==", 1⟩, .report ⟨1, some "Yg==", 2⟩]
      ≠ [] := by
  intro s'
  have hkeeps := (restart_keeps_chord QueueConfig.defaults "c" 2 (by decide) [] .empty
    QueueStore.reliable fun _ => 1).mpr rfl
  refine (hkeeps [.report ⟨0, some "YQ==", 1⟩, .report ⟨1, some "Yg==", 2⟩] ?_).2 ?_
  · intro j h0 hj
    obtain rfl | rfl : j = 0 ∨ j = 1 := by omega
    · exact ⟨_, List.mem_cons_self, rfl⟩
    · exact ⟨_, List.mem_cons_of_mem _ List.mem_cons_self, rfl⟩
  · simp

/-- The first member of a chord of two reports, the owner is restarted, the second member reports:
without the restart the chord fires, with it it does not. -/
theorem chord_lost_in_restart :
    let a : Report ℤ := ⟨0, some "YQ==", 1⟩
    let b : Report ℤ := ⟨1, some "Yg==", 3⟩
    let (s, w) := (QueueStore.init : QueueStore ℤ).chordRun .defaults "c" 2 [] [.report a]
    let s' : QueueStore ℤ := QueueStore.init.load .defaults .empty QueueStore.reliable fun _ => 2
    (s.firings .defaults "c" 2 w [.report b]).map Firing.results = [[some "YQ==", some "Yg=="]] ∧
      s'.firings .defaults "c" 2 [] [.report b] = [] := by
  decide

end Istos
