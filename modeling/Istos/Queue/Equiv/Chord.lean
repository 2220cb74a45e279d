import Istos.Queue.Chord
import Istos.Queue.Equiv.Storage
import Mathlib.Data.Int.Interval

/-!
# The barrier of a chord

A barrier is the list of reports it has counted (`Counts`): an entry of its result list is what the
first of them said.  It fires with the report that makes the list complete, and then forgets that
it ever was there.

* `chord_fires_once`: so it fires a second time exactly when the reports of the whole run can be
  cut in two parts that each have a report of every member (`double_fire`).
* `restart_keeps_chord`: and a restart, which loses the barrier, is harmless exactly when no
  barrier was open.
-/

namespace Istos

variable {T : Type}

/-! ### What a barrier has counted -/

/-- Every member of the chord has reported. -/
def Complete (size : ℤ) (w : List (Report T)) : Prop :=
  0 < size ∧ ∀ j, 0 ≤ j → j < size → ∃ r ∈ w, r.index = j

/-- What the first report of a member said. -/
def firstResult (w : List (Report T)) (j : ℤ) : Option String :=
  (w.find? fun r => decide (r.index = j)).bind Report.result

/-- A barrier that has counted the reports `w` and waits for more. -/
structure Chord.Counts (n : ℤ) (w : List (Report T)) (chord : Chord T) : Prop where
  size : chord.size = n
  waiting : chord.fired = false
  length : chord.results.length = n.toNat
  reported : ∀ j, j ∈ chord.reported ↔ ∃ r ∈ w, r.index = j
  valid : ∀ r ∈ w, 0 ≤ r.index ∧ r.index < n
  results : ∀ j : ℕ, (j : ℤ) < n → chord.results[j]? = some (firstResult w j)
  incomplete : ¬ Complete n w

/-- The barrier in the store, or that there is none, agrees with the reports counted. -/
def CountsIn (size : ℤ) (w : List (Report T)) : Option (String × Chord T) → Prop
  | none => w = []
  | some (_, chord) => w ≠ [] ∧ chord.Counts size w

theorem counts_new {size : ℤ} (h : 0 < size) (now : T) :
    Chord.Counts size [] ⟨size, List.replicate size.toNat none, ∅, false, now⟩ where
  size := rfl
  waiting := rfl
  length := List.length_replicate
  reported := by simp
  valid := by simp
  results := by
    intro j hj
    have hlt : j < size.toNat := by omega
    simp [hlt, firstResult]
  incomplete := by
    rintro ⟨-, hall⟩
    obtain ⟨r, hr, -⟩ := hall 0 (le_refl 0) h
    cases hr

/-- Enough members have reported when all have. -/
theorem card_reported_iff {size : ℤ} (h : 0 < size) {w : List (Report T)} {reported : Finset ℤ}
    (hreported : ∀ j, j ∈ reported ↔ ∃ r ∈ w, r.index = j)
    (valid : ∀ r ∈ w, 0 ≤ r.index ∧ r.index < size) :
    size ≤ reported.card ↔ Complete size w := by
  have hsub : reported ⊆ Finset.Ico 0 size := by
    intro j hj
    obtain ⟨r, hr, rfl⟩ := (hreported j).mp hj
    exact Finset.mem_Ico.mpr (valid r hr)
  have hcard : (Finset.Ico 0 size).card = size.toNat := by
    rw [Int.card_Ico, sub_zero]
  constructor
  · intro hle
    have heq : reported = Finset.Ico 0 size := by
      apply Finset.eq_of_subset_of_card_le hsub
      omega
    refine ⟨h, fun j h0 hj => (hreported j).mp ?_⟩
    rw [heq]
    exact Finset.mem_Ico.mpr ⟨h0, hj⟩
  · rintro ⟨-, hall⟩
    have heq : reported = Finset.Ico 0 size := by
      apply Finset.Subset.antisymm hsub
      intro j hj
      obtain ⟨h0, hlt⟩ := Finset.mem_Ico.mp hj
      exact (hreported j).mpr (hall j h0 hlt)
    rw [heq, hcard]
    omega

/-- A later report of the same member is not the first. -/
theorem firstResult_append_old {w : List (Report T)} {r : Report T} {j : ℤ}
    (h : (∃ q ∈ w, q.index = j) ∨ r.index ≠ j) : firstResult (w ++ [r]) j = firstResult w j := by
  unfold firstResult
  rw [List.find?_append]
  cases hf : w.find? (fun r => decide (r.index = j)) with
  | some q => rfl
  | none =>
    have hne : r.index ≠ j := by
      rcases h with ⟨q, hq, hj⟩ | hne
      · have := List.find?_eq_none.mp hf q hq
        exact absurd hj (by simpa using this)
      · exact hne
    simp [hne]

theorem firstResult_append_new {w : List (Report T)} {r : Report T}
    (h : ¬ ∃ q ∈ w, q.index = r.index) : firstResult (w ++ [r]) r.index = r.result := by
  unfold firstResult
  have hf : w.find? (fun q => decide (q.index = r.index)) = none := by
    rw [List.find?_eq_none]
    intro q hq
    simpa using fun hj => h ⟨q, hq, hj⟩
  rw [List.find?_append, hf]
  simp

/-! ### One report -/

theorem exists_index_append {w : List (Report T)} {r : Report T} {j : ℤ} :
    (∃ q ∈ w ++ [r], q.index = j) ↔ (∃ q ∈ w, q.index = j) ∨ r.index = j := by
  simp only [List.mem_append, List.mem_singleton, or_and_right, exists_or, exists_eq_left]

/-- A member that reports again is not counted again. -/
theorem Chord.Counts.again {size : ℤ} {w : List (Report T)} {chord : Chord T}
    (h : chord.Counts size w) {r : Report T} (hr : r.index ∈ chord.reported) :
    chord.Counts size (w ++ [r]) := by
  have hin := (h.reported r.index).mp hr
  refine { h with reported := fun j => ?_, valid := fun q hq => ?_, results := fun j hj => ?_,
                  incomplete := ?_ }
  · rw [exists_index_append, h.reported j]
    constructor
    · exact Or.inl
    · rintro (hj | rfl)
      · exact hj
      · exact hin
  · rcases List.mem_append.mp hq with hq | hq
    · exact h.valid q hq
    · obtain rfl := List.mem_singleton.mp hq
      obtain ⟨q', hq', hidx⟩ := hin
      exact hidx ▸ h.valid q' hq'
  · rw [firstResult_append_old]
    · exact h.results j hj
    · by_cases hj' : r.index = (j : ℤ)
      · exact Or.inl (hj' ▸ hin)
      · exact Or.inr hj'
  · rintro ⟨hpos, hall⟩
    refine h.incomplete ⟨hpos, fun j h0 hj => ?_⟩
    rcases exists_index_append.mp (hall j h0 hj) with hq | rfl
    · exact hq
    · exact hin

/-- The barrier once a member that had not reported has. -/
def Chord.count (chord : Chord T) (r : Report T) : Chord T :=
  { chord with
    reported := insert r.index chord.reported
    results := chord.results.set r.index.toNat r.result }

/-- A new member is counted: its result is entered, and if it was the last the barrier is
complete. -/
theorem Chord.Counts.count {size : ℤ} {w : List (Report T)} {chord : Chord T}
    (h : chord.Counts size w) (hpos : 0 < size) {r : Report T} (h0 : 0 ≤ r.index)
    (hlt : r.index < size) (hr : r.index ∉ chord.reported) :
    (chord.count r).results.length = size.toNat ∧
    (∀ j : ℕ, (j : ℤ) < size → (chord.count r).results[j]? = some (firstResult (w ++ [r]) j)) ∧
    (size ≤ (chord.count r).reported.card ↔ Complete size (w ++ [r])) ∧
    (¬ Complete size (w ++ [r]) → (chord.count r).Counts size (w ++ [r])) := by
  have hnew : ¬ ∃ q ∈ w, q.index = r.index := fun hin => hr ((h.reported r.index).mpr hin)
  have hlength : (chord.count r).results.length = size.toNat := by
    rw [← h.length]
    exact List.length_set
  have hresults : ∀ j : ℕ, (j : ℤ) < size →
      (chord.count r).results[j]? = some (firstResult (w ++ [r]) j) := by
    intro j hj
    change (chord.results.set r.index.toNat r.result)[j]? = _
    rw [List.getElem?_set]
    by_cases hidx : r.index.toNat = j
    · have hrj : r.index = (j : ℤ) := by omega
      have hin : r.index.toNat < chord.results.length := by
        rw [h.length]
        omega
      rw [if_pos hidx, if_pos hin, ← hrj, firstResult_append_new hnew]
    · have hrj : r.index ≠ (j : ℤ) := by omega
      rw [if_neg hidx, firstResult_append_old (Or.inr hrj)]
      exact h.results j hj
  have hreported : ∀ j, j ∈ (chord.count r).reported ↔ ∃ q ∈ w ++ [r], q.index = j := by
    intro j
    rw [exists_index_append, ← h.reported j]
    change j ∈ insert r.index chord.reported ↔ _
    rw [Finset.mem_insert, or_comm, eq_comm]
  have hvalid : ∀ q ∈ w ++ [r], 0 ≤ q.index ∧ q.index < size := by
    intro q hq
    rcases List.mem_append.mp hq with hq | hq
    · exact h.valid q hq
    · obtain rfl := List.mem_singleton.mp hq
      exact ⟨h0, hlt⟩
  refine ⟨hlength, hresults, card_reported_iff hpos hreported hvalid, fun hinc => ?_⟩
  exact ⟨h.size, h.waiting, hlength, hreported, hvalid, hresults, hinc⟩

variable [LinearOrder T]

/-- **`chord_report`**: a report outside the chord is refused; one that completes the barrier is
answered with the first results of all members and closes it; any other is counted. -/
theorem chordReport_spec {s : QueueStore T} {chordId : String} {size : ℤ} {w : List (Report T)}
    (h : CountsIn size w (s.chords.get? chordId)) (r : Report T) :
    (¬ (0 < size ∧ 0 ≤ r.index ∧ r.index < size) ∧
        ∃ e, s.chordReport chordId r.index size r.result r.now = .error e) ∨
      (0 < size ∧ 0 ≤ r.index ∧ r.index < size) ∧
        ((¬ Complete size (w ++ [r]) ∧ ∃ s',
            s.chordReport chordId r.index size r.result r.now = .ok (s', none) ∧
            (s'.chords.get? chordId).isSome ∧
            CountsIn size (w ++ [r]) (s'.chords.get? chordId)) ∨
          Complete size (w ++ [r]) ∧ ∃ s' results,
            s.chordReport chordId r.index size r.result r.now = .ok (s', some results) ∧
            s'.chords.get? chordId = none ∧ results.length = size.toNat ∧
            ∀ j : ℕ, (j : ℤ) < size → results[j]? = some (firstResult (w ++ [r]) j)) := by
  by_cases hvalid : 0 < size ∧ 0 ≤ r.index ∧ r.index < size
  · right
    refine ⟨hvalid, ?_⟩
    obtain ⟨hpos, h0, hlt⟩ := hvalid
    have hrange : ¬ (size ≤ 0 ∨ r.index < 0 ∨ size ≤ r.index) := by omega
    -- the barrier the report meets, opened now or before
    obtain ⟨chord, hchord, hcounts⟩ : ∃ chord : Chord T,
        s.barrier chordId r.index size r.now = .ok chord ∧ chord.Counts size w := by
      unfold QueueStore.barrier
      cases hget : s.chords.get? chordId with
      | none =>
        rw [hget] at h
        obtain rfl : w = [] := h
        exact ⟨_, rfl, counts_new hpos r.now⟩
      | some x =>
        obtain ⟨id', chord⟩ := x
        rw [hget] at h
        have hin : ¬ chord.size ≤ r.index := by
          rw [h.2.size]
          omega
        exact ⟨chord, if_neg hin, h.2⟩
    have hput : ∀ (t : Table (Prod.fst : String × Chord T → String)) (ch : Chord T),
        (t.put (chordId, ch)).get? chordId = some (chordId, ch) := by
      intro t ch
      exact t.get?_put_self (chordId, ch)
    have hfired : ¬ chord.fired = true := by
      rw [hcounts.waiting]
      exact Bool.false_ne_true
    by_cases hin : r.index ∈ chord.reported
    · have hagain := hcounts.again hin
      refine Or.inl ⟨hagain.incomplete, ⟨{ s with chords := s.chords.put (chordId, chord) }, ?_, ?_,
        ?_⟩⟩
      · unfold QueueStore.chordReport
        rw [if_neg hrange]
        simp only [hchord]
        rw [if_pos (Or.inr hin)]
      · simp only [hput]
        rfl
      · simp only [hput]
        exact ⟨by simp, hagain⟩
    · obtain ⟨hlength, hresults, hcard, hnext⟩ := hcounts.count hpos h0 hlt hin
      have hsize : chord.size ≤ ((chord.count r).reported.card : ℤ) ↔ Complete size (w ++ [r]) := by
        rw [hcounts.size]
        exact hcard
      have hnot : ¬ (chord.fired = true ∨ r.index ∈ chord.reported) := not_or.mpr ⟨hfired, hin⟩
      by_cases hdone : Complete size (w ++ [r])
      · refine Or.inr ⟨hdone, ⟨{ s with
          chords := (s.chords.put (chordId, chord)).erase chordId }, (chord.count r).results,
          ?_, ?_, hlength, hresults⟩⟩
        · unfold QueueStore.chordReport
          rw [if_neg hrange]
          simp only [hchord]
          rw [if_neg hnot]
          exact if_pos (hsize.mpr hdone)
        · exact Table.get?_erase_self _ _
      · refine Or.inl ⟨hdone, ⟨{ s with
          chords := (s.chords.put (chordId, chord)).put (chordId, chord.count r) }, ?_, ?_, ?_⟩⟩
        · unfold QueueStore.chordReport
          rw [if_neg hrange]
          simp only [hchord]
          rw [if_neg hnot]
          exact if_neg fun hle => hdone (hsize.mp hle)
        · simp only [hput]
          rfl
        · simp only [hput]
          exact ⟨by simp, hnext hdone⟩
  · left
    refine ⟨hvalid, ?_⟩
    have hrange : size ≤ 0 ∨ r.index < 0 ∨ size ≤ r.index := by omega
    unfold QueueStore.chordReport
    rw [if_pos hrange]
    exact ⟨_, rfl⟩

/-! ### The other calls -/

section Perform

variable [Zero T] [Add T]

/-- Whether a call leaves a barrier in place: a sweep drops it once it is past its TTL. -/
def Op.keepsChord (c : QueueConfig T) (op : Op T) (chord : Chord T) : Bool :=
  match op, c.chordTtl with
  | .sweep now, some ttl => ¬ chord.createdAt + ttl ≤ now
  | _, _ => true

/-- **No call on the queue** but a sweep touches a barrier, and a sweep can only drop it. -/
theorem chords_perform (c : QueueConfig T) (s : QueueStore T) (op : Op T) (chordId : String) :
    (s.perform c op).store.chords.get? chordId
      = (s.chords.get? chordId).filter fun x => op.keepsChord c x.2 := by
  have hkeep : ∀ o : Option (String × Chord T), o.filter (fun _ => true) = o := by
    intro o
    cases o with
    | none => rfl
    | some x => rfl
  cases op with
  | add job id t₁ t₂ t₃ =>
    show (s.add c job id t₁ t₂ t₃).store.chords.get? chordId = _
    obtain ⟨delayed, ready, h, -⟩ := offerReady_spec { s with
      seq := s.seq + 1
      jobs := s.jobs.put (job.record id (s.seq + 1) (startTime t₁ job.delay) t₂)
      ids := if id ∈ s.ids then s.ids else s.ids ++ [id] }
      (job.record id (s.seq + 1) (startTime t₁ job.delay) t₂) t₃
    exact (congrArg (fun s' => s'.chords.get? chordId) h).trans (hkeep _).symm
  | claim now lease =>
    show (s.claim now lease).store.chords.get? chordId = _
    have hw : (s.wake now).1.chords.get? chordId = s.chords.get? chordId := by
      rw [(woken s now).chords]
    rcases claim_cases s now lease with ⟨h, -⟩ | ⟨pre, k, rest, r, -, -, -, -, h⟩
    · rw [h]
      exact hw.trans (hkeep _).symm
    · rw [h]
      exact hw.trans (hkeep _).symm
  | ack id res attempt now =>
    show (s.ack c id res attempt now).store.chords.get? chordId = _
    rcases ack_cases c s id res attempt now with ⟨-, h⟩ | ⟨r, -, -, ⟨-, h⟩ | ⟨-, h⟩⟩
    · rw [h]
      exact (hkeep _).symm
    · rw [h]
      exact (hkeep _).symm
    · rw [h]
      exact (hkeep _).symm
  | nack id error delay attempt t₁ t₂ =>
    show (s.nack id error delay attempt t₁ t₂).store.chords.get? chordId = _
    rcases nack_cases s id error delay attempt t₁ t₂ with ⟨-, h⟩ | ⟨r, -, -, ⟨-, h⟩ | ⟨-, h⟩⟩
    · rw [h]
      exact (hkeep _).symm
    · rw [h]
      exact (hkeep _).symm
    · obtain ⟨delayed, ready, h', -⟩ := offerReady_spec
        { s with jobs := s.jobs.put (r.requeue error (startTime t₁ delay)) }
        (r.requeue error (startTime t₁ delay)) t₂
      rw [h, h']
      exact (hkeep _).symm
  | sweep now =>
    show (s.sweep c now).store.chords.get? chordId = _
    obtain ⟨gone, done, -, -, h, -⟩ := sweep_spec c s now
    obtain ⟨jobs, ids, hf, -⟩ := forgetAll_spec c (s.reclaimLeases now).1 gone
    have hr := (reclaimed s now).chords
    rw [h, hf, QueueStore.dropChords]
    unfold Op.keepsChord
    cases c.chordTtl with
    | none => exact (congrArg (Table.get? · chordId) hr).trans (hkeep _).symm
    | some ttl =>
      show ((s.reclaimLeases now).1.chords.filter _).get? chordId = _
      rw [hr, Table.get?_filter]

/-- What a call on the queue leaves of the reports counted. -/
theorem countsIn_perform {c : QueueConfig T} {s : QueueStore T} {op : Op T} {chordId : String}
    {size : ℤ} {w : List (Report T)} (h : CountsIn size w (s.chords.get? chordId)) :
    let s' := (s.perform c op).store
    CountsIn size (if (s'.chords.get? chordId).isSome then w else []) (s'.chords.get? chordId) := by
  show CountsIn size (if ((s.perform c op).store.chords.get? chordId).isSome then w else [])
    ((s.perform c op).store.chords.get? chordId)
  rw [chords_perform]
  cases hget : s.chords.get? chordId with
  | none => exact rfl
  | some x =>
    rw [hget] at h
    rw [Option.filter_some]
    by_cases hkeep : op.keepsChord c x.2 = true
    · rw [if_pos hkeep]
      exact h
    · rw [if_neg hkeep]
      exact rfl

/-! ### Runs -/

/-- A result list that says what it should: the members have all been counted, and its entries are
what they first reported. -/
structure Firing.Correct (size : ℤ) (f : Firing T) : Prop where
  complete : Complete size f.counted
  length : f.results.length = size.toNat
  entries : ∀ j : ℕ, (j : ℤ) < size → f.results[j]? = some (firstResult f.counted j)

/-- One report in a run: it is refused, or counted, or answered. -/
theorem report_cases (c : QueueConfig T) {s : QueueStore T} {chordId : String} {size : ℤ}
    {w : List (Report T)} (h : CountsIn size w (s.chords.get? chordId)) (r : Report T) :
    (¬ (0 < size ∧ 0 ≤ r.index ∧ r.index < size) ∧ ∀ calls,
        s.chordRun c chordId size w (.report r :: calls) = s.chordRun c chordId size w calls ∧
          s.firings c chordId size w (.report r :: calls) = s.firings c chordId size w calls) ∨
      ∃ s' : QueueStore T,
        ((¬ Complete size (w ++ [r]) ∧ CountsIn size (w ++ [r]) (s'.chords.get? chordId) ∧
          ∀ calls,
            s.chordRun c chordId size w (.report r :: calls)
                = s'.chordRun c chordId size (w ++ [r]) calls ∧
              s.firings c chordId size w (.report r :: calls)
                = s'.firings c chordId size (w ++ [r]) calls) ∨
          CountsIn size [] (s'.chords.get? chordId) ∧
            ∃ results, Firing.Correct size ⟨w ++ [r], results⟩ ∧ ∀ calls,
              s.chordRun c chordId size w (.report r :: calls)
                  = s'.chordRun c chordId size [] calls ∧
                s.firings c chordId size w (.report r :: calls)
                  = ⟨w ++ [r], results⟩ :: s'.firings c chordId size [] calls) := by
  rcases chordReport_spec h r with ⟨hout, e, hrep⟩ | ⟨-,
    ⟨hdone, s', hrep, -, hnext⟩ | ⟨hdone, s', results, hrep, hnone, hlength, hentries⟩⟩
  · left
    refine ⟨hout, fun calls => ?_⟩
    simp only [QueueStore.chordRun, QueueStore.firings, hrep, and_self]
  · right
    refine ⟨s', Or.inl ⟨hdone, hnext, fun calls => ?_⟩⟩
    simp only [QueueStore.chordRun, QueueStore.firings, hrep, and_self]
  · right
    refine ⟨s', Or.inr ⟨?_, results, ⟨hdone, hlength, hentries⟩, fun calls => ?_⟩⟩
    · rw [hnone]
      exact rfl
    · simp only [QueueStore.chordRun, QueueStore.firings, hrep, and_self]

omit [LinearOrder T] [Zero T] [Add T] in
/-- More reports do not undo completeness. -/
theorem Complete.mono {size : ℤ} {w w' : List (Report T)} (h : Complete size w)
    (hsub : ∀ r ∈ w, r ∈ w') : Complete size w' := by
  refine ⟨h.1, fun j h0 hj => ?_⟩
  obtain ⟨r, hr, hidx⟩ := h.2 j h0 hj
  exact ⟨r, hsub r hr, hidx⟩

omit [LinearOrder T] [Zero T] [Add T] in
theorem reports_report (r : Report T) (calls : List (ChordCall T)) :
    reports (.report r :: calls) = r :: reports calls := rfl

omit [LinearOrder T] [Zero T] [Add T] in
theorem reports_op (op : Op T) (calls : List (ChordCall T)) :
    reports (.op op :: calls) = reports calls := rfl

/-- The store counts what the run says it does. -/
theorem chordRun_counts (c : QueueConfig T) (chordId : String) (size : ℤ)
    (calls : List (ChordCall T)) {s : QueueStore T} {w : List (Report T)}
    (h : CountsIn size w (s.chords.get? chordId)) :
    CountsIn size (s.chordRun c chordId size w calls).2
      ((s.chordRun c chordId size w calls).1.chords.get? chordId) := by
  induction calls generalizing s w with
  | nil => exact h
  | cons call calls ih =>
    cases call with
    | op op => exact ih (countsIn_perform h)
    | report r =>
      rcases report_cases c h r with ⟨-, hrefused⟩ | ⟨s',
        ⟨-, hnext, heq⟩ | ⟨hnext, results, -, heq⟩⟩
      · rw [(hrefused calls).1]
        exact ih h
      · rw [(heq calls).1]
        exact ih hnext
      · rw [(heq calls).1]
        exact ih hnext

/-- Every result list of a run says what it should. -/
theorem firings_correct (c : QueueConfig T) (chordId : String) (size : ℤ)
    (calls : List (ChordCall T)) {s : QueueStore T} {w : List (Report T)}
    (h : CountsIn size w (s.chords.get? chordId)) :
    ∀ f ∈ s.firings c chordId size w calls, f.Correct size := by
  induction calls generalizing s w with
  | nil => exact fun f hf => absurd hf List.not_mem_nil
  | cons call calls ih =>
    cases call with
    | op op => exact ih (countsIn_perform h)
    | report r =>
      rcases report_cases c h r with ⟨-, hrefused⟩ | ⟨s',
        ⟨-, hnext, heq⟩ | ⟨hnext, results, hc, heq⟩⟩
      · rw [(hrefused calls).2]
        exact ih h
      · rw [(heq calls).2]
        exact ih hnext
      · rw [(heq calls).2]
        rintro f (- | ⟨_, hf⟩)
        · exact hc
        · exact ih hnext f hf

/-- **Only a complete chord fires**: the reports counted before a run and those of the run cover
all members if the run has a result list. -/
theorem complete_of_firings (c : QueueConfig T) (chordId : String) (size : ℤ)
    (calls : List (ChordCall T)) {s : QueueStore T} {w : List (Report T)}
    (h : CountsIn size w (s.chords.get? chordId))
    (hfires : s.firings c chordId size w calls ≠ []) : Complete size (w ++ reports calls) := by
  induction calls generalizing s w with
  | nil => exact absurd rfl hfires
  | cons call calls ih =>
    cases call with
    | op op =>
      refine (ih (countsIn_perform h) hfires).mono fun r hr => ?_
      -- the sweep may have dropped what was counted, not added to it
      rw [reports_op]
      split at hr
      · exact hr
      · exact List.mem_append_right w hr
    | report r =>
      rw [reports_report]
      rcases report_cases c h r with ⟨-, hrefused⟩ | ⟨s',
        ⟨-, hnext, heq⟩ | ⟨hnext, results, hc, heq⟩⟩
      · rw [(hrefused calls).2] at hfires
        refine (ih h hfires).mono fun q hq => ?_
        simp only [List.mem_append, List.mem_cons] at hq ⊢
        exact hq.imp_right Or.inr
      · rw [(heq calls).2] at hfires
        have hrest := ih hnext hfires
        rw [List.append_assoc] at hrest
        exact hrest
      · refine hc.complete.mono fun q hq => ?_
        simp only [List.mem_append, List.mem_cons, List.not_mem_nil, or_false] at hq ⊢
        exact hq.imp_right Or.inl

/-- **A chord that fires twice** was reported twice by all its members. -/
theorem split_of_firings (c : QueueConfig T) (chordId : String) (size : ℤ)
    (calls : List (ChordCall T)) {s : QueueStore T} {w : List (Report T)}
    (h : CountsIn size w (s.chords.get? chordId))
    (hfires : 1 < (s.firings c chordId size w calls).length) :
    ∃ l₁ l₂, reports calls = l₁ ++ l₂ ∧ Complete size (w ++ l₁) ∧ Complete size l₂ := by
  induction calls generalizing s w with
  | nil => exact absurd hfires (Nat.not_lt_zero 1)
  | cons call calls ih =>
    cases call with
    | op op =>
      obtain ⟨l₁, l₂, hsplit, h₁, h₂⟩ := ih (countsIn_perform h) hfires
      refine ⟨l₁, l₂, hsplit, h₁.mono fun r hr => ?_, h₂⟩
      split at hr
      · exact hr
      · exact List.mem_append_right w hr
    | report r =>
      rw [reports_report]
      rcases report_cases c h r with ⟨-, hrefused⟩ | ⟨s',
        ⟨-, hnext, heq⟩ | ⟨hnext, results, hc, heq⟩⟩
      · rw [(hrefused calls).2] at hfires
        obtain ⟨l₁, l₂, hsplit, h₁, h₂⟩ := ih h hfires
        refine ⟨r :: l₁, l₂, congrArg (r :: ·) hsplit, h₁.mono fun q hq => ?_, h₂⟩
        simp only [List.mem_append, List.mem_cons] at hq ⊢
        exact hq.imp_right Or.inr
      · rw [(heq calls).2] at hfires
        obtain ⟨l₁, l₂, hsplit, h₁, h₂⟩ := ih hnext hfires
        refine ⟨r :: l₁, l₂, congrArg (r :: ·) hsplit, ?_, h₂⟩
        rw [List.append_assoc] at h₁
        exact h₁
      · -- this report fires; the rest of the run fires again from a barrier opened anew
        rw [(heq calls).2, List.length_cons] at hfires
        have hagain : s'.firings c chordId size [] calls ≠ [] := by
          apply List.ne_nil_of_length_pos
          omega
        exact ⟨[r], reports calls, rfl, hc.complete,
          complete_of_firings c chordId size calls hnext hagain⟩

/-- **A complete chord fires** unless a sweep drops the barrier. -/
theorem firings_of_complete (c : QueueConfig T) (chordId : String) (size : ℤ)
    (calls : List (ChordCall T)) (nosweep : ∀ now, .op (.sweep now) ∉ calls) {s : QueueStore T}
    {w : List (Report T)} (h : CountsIn size w (s.chords.get? chordId))
    (hdone : Complete size (w ++ reports calls)) : s.firings c chordId size w calls ≠ [] := by
  induction calls generalizing s w with
  | nil =>
    -- a barrier that is still there is not complete, and a chord has a member
    exfalso
    replace hdone : Complete size w := (List.append_nil w).symm ▸ hdone
    cases hget : s.chords.get? chordId with
    | none =>
      rw [hget] at h
      obtain rfl : w = [] := h
      obtain ⟨r, hr, -⟩ := hdone.2 0 (le_refl 0) hdone.1
      cases hr
    | some x =>
      rw [hget] at h
      exact h.2.incomplete hdone
  | cons call calls ih =>
    replace ih := fun {s w} => ih (s := s) (w := w) fun now hmem =>
      nosweep now (List.mem_cons_of_mem call hmem)
    cases call with
    | op op =>
      have hkeep : (fun x : String × Chord T => op.keepsChord c x.2) = fun _ => true := by
        funext x
        cases op with
        | sweep now => exact absurd List.mem_cons_self (nosweep now)
        | _ => rfl
      have hsame : (s.perform c op).store.chords.get? chordId = s.chords.get? chordId := by
        rw [chords_perform, hkeep]
        cases s.chords.get? chordId with
        | none => rfl
        | some x => rfl
      have hw : (if ((s.perform c op).store.chords.get? chordId).isSome then w else []) = w := by
        rw [hsame]
        cases hget : s.chords.get? chordId with
        | none =>
          rw [hget] at h
          exact Eq.symm h
        | some x => rfl
      have hnext : CountsIn size w ((s.perform c op).store.chords.get? chordId) := by
        rw [hsame]
        exact h
      show (s.perform c op).store.firings c chordId size
        (if ((s.perform c op).store.chords.get? chordId).isSome then w else []) calls ≠ []
      rw [hw]
      exact ih hnext hdone
    | report r =>
      rw [reports_report] at hdone
      rcases report_cases c h r with
        ⟨hout, hrefused⟩ | ⟨s', ⟨-, hnext, heq⟩ | ⟨hnext, results, hc, heq⟩⟩
      · rw [(hrefused _).2]
        apply ih h
        refine ⟨hdone.1, fun j h0 hj => ?_⟩
        obtain ⟨q, hq, rfl⟩ := hdone.2 j h0 hj
        refine ⟨q, ?_, rfl⟩
        simp only [List.mem_append, List.mem_cons] at hq ⊢
        rcases hq with hq | rfl | hq
        · exact Or.inl hq
        · exact absurd ⟨hdone.1, h0, hj⟩ hout
        · exact Or.inr hq
      · rw [(heq _).2]
        apply ih hnext
        rw [List.append_assoc]
        exact hdone
      · rw [(heq _).2]
        exact List.cons_ne_nil _ _

omit [LinearOrder T] [Zero T] [Add T] in
/-- The calls that are some reports and nothing else. -/
theorem reports_map (rs : List (Report T)) : reports (rs.map .report) = rs := by
  induction rs with
  | nil => rfl
  | cons r rs ih => exact congrArg (r :: ·) ih

omit [LinearOrder T] [Zero T] [Add T] in
theorem sweep_notMem_map (rs : List (Report T)) (now : T) :
    ChordCall.op (.sweep now) ∉ rs.map .report := by
  intro h
  obtain ⟨r, -, hr⟩ := List.mem_map.mp h
  cases hr

/-- A run in two parts fires what its parts fire. -/
theorem firings_append (c : QueueConfig T) (chordId : String) (size : ℤ)
    (calls calls' : List (ChordCall T)) (s : QueueStore T) (w : List (Report T)) :
    s.firings c chordId size w (calls ++ calls')
      = s.firings c chordId size w calls
        ++ (s.chordRun c chordId size w calls).1.firings c chordId size
          (s.chordRun c chordId size w calls).2 calls' := by
  induction calls generalizing s w with
  | nil => rfl
  | cons call calls ih =>
    rw [List.cons_append]
    cases call with
    | op op => exact ih _ _
    | report r =>
      simp only [QueueStore.firings, QueueStore.chordRun]
      split
      · exact ih s w
      · exact ih _ _
      · rw [ih, List.cons_append]

/-! ### How often a chord fires -/

/-- **A chord fires at most once**, whatever sweeps and other calls come between the reports, if and
only if the reports cannot be cut in two parts that each have a report of every member.  A result
list has an entry for every member, which is what its first counted report carried. -/
theorem chord_fires_once (c : QueueConfig T) (s : QueueStore T) (chordId : String) (size : ℤ)
    (rs : List (Report T)) (fresh : s.chords.get? chordId = none) :
    (∀ calls, reports calls = rs → (s.firings c chordId size [] calls).length ≤ 1 ∧
        ∀ f ∈ s.firings c chordId size [] calls, f.Correct size) ↔
      ¬ ∃ l₁ l₂, rs = l₁ ++ l₂ ∧ Complete size l₁ ∧ Complete size l₂ := by
  have hstart : CountsIn size [] (s.chords.get? chordId) := by
    rw [fresh]
    exact rfl
  constructor
  · rintro honce ⟨l₁, l₂, rfl, h₁, h₂⟩
    -- without a sweep, each part fires
    have hlen := (honce ((l₁ ++ l₂).map .report) (reports_map _)).1
    rw [List.map_append, firings_append, List.length_append] at hlen
    have hfirst := List.length_pos_of_ne_nil (firings_of_complete c chordId size (l₁.map .report)
      (sweep_notMem_map l₁) hstart (by rwa [reports_map]))
    have hrest := chordRun_counts c chordId size (l₁.map .report) hstart
    have hsecond := List.length_pos_of_ne_nil (firings_of_complete c chordId size (l₂.map .report)
      (sweep_notMem_map l₂) hrest (by
        rw [reports_map]
        exact h₂.mono fun r hr => List.mem_append_right _ hr))
    omega
  · rintro hsplit calls rfl
    refine ⟨?_, firings_correct c chordId size calls hstart⟩
    -- two firings split the reports into two complete parts
    by_contra hlen
    exact hsplit (split_of_firings c chordId size calls hstart (not_le.mp hlen))

end Perform

/-- A chord of two whose second member reports twice, and which is swept in between, fires once. -/
theorem chord_fires_once_redelivery :
    let a : Report ℤ := ⟨0, some "YQ==", 1⟩
    let b : Report ℤ := ⟨1, some "Yg==", 2⟩
    ((QueueStore.init : QueueStore ℤ).firings .defaults "c" 2 []
      [.report b, .op (.sweep 2), .report b, .report a]).length ≤ 1 := by
  intro a b
  have hcut : ¬ ∃ l₁ l₂, [b, b, a] = l₁ ++ l₂ ∧ Complete 2 l₁ ∧ Complete 2 l₂ := by
    rintro ⟨l₁, l₂, hsplit, h₁, h₂⟩
    obtain ⟨q₁, hq₁, hidx₁⟩ := h₁.2 0 (by decide) (by decide)
    obtain ⟨q₂, hq₂, hidx₂⟩ := h₂.2 0 (by decide) (by decide)
    have hcount := congrArg (List.countP fun q => decide (q.index = 0)) hsplit
    rw [List.countP_append] at hcount
    have hpos₁ : 0 < l₁.countP fun q => decide (q.index = 0) :=
      List.countP_pos_iff.mpr ⟨q₁, hq₁, decide_eq_true hidx₁⟩
    have hpos₂ : 0 < l₂.countP fun q => decide (q.index = 0) :=
      List.countP_pos_iff.mpr ⟨q₂, hq₂, decide_eq_true hidx₂⟩
    have hone : [b, b, a].countP (fun q => decide (q.index = 0)) = 1 := by decide
    omega
  exact ((chord_fires_once .defaults .init "c" 2 [b, b, a] rfl).mpr hcut _ rfl).1

/-- Both members of a chord of two report, and both jobs are delivered again because their acks
were lost: the chord fires twice. -/
theorem double_fire :
    let a : Report ℤ := ⟨0, some "YQ==", 1⟩
    let b : Report ℤ := ⟨1, some "Yg==", 2⟩
    ((QueueStore.init : QueueStore ℤ).firings .defaults "c" 2 []
        [.report a, .report b, .report a, .report b]).map Firing.results
      = [[some "YQ==", some "Yg=="], [some "YQ==", some "Yg=="]] := by
  decide

end Istos
