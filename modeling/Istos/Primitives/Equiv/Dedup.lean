import Istos.Data.Recent
import Istos.Primitives.Subscribe

/-!
# The window of a subscriber

Where samples are delivered one after the other, the window holds the fingerprints of the payloads
that were used most recently.  A payload is used when its dispatch succeeds, and when a sample with
it is dropped.
-/

namespace Istos

open Recent

/-- What became of a sample. -/
inductive Fate
  | dropped
  | succeeded
  | failed
  deriving DecidableEq

namespace SubscribeWrapper

/-- `_deliver` with nothing in between; `ok` says whether `_deliver_once` returns, if it is called.
-/
def process (sha256 : Bytes → String) (w : SubscribeWrapper) (raw : Bytes) (ok : Bool) :
    SubscribeWrapper × Fate :=
  match w.deliver sha256 raw with
  | (none, w) => (w, .dropped)
  | (some fp, w) => (w.settle fp ok, if ok then .succeeded else .failed)

/-- One delivery after the other, with what became of each. -/
def processAll (sha256 : Bytes → String) (w : SubscribeWrapper) (samples : List (Bytes × Bool)) :
    SubscribeWrapper × List (Bytes × Fate) :=
  samples.foldl (fun s x =>
    let next := s.1.process sha256 x.1 x.2
    (next.1, s.2 ++ [(x.1, next.2)])) (w, [])

/-- The payloads that were used, the last one at the end. -/
def used (fates : List (Bytes × Fate)) : List Bytes :=
  (fates.filter fun x => x.2 ≠ .failed).map Prod.fst

variable {sha256 : Bytes → String} {n : ℕ}

theorem processAll_concat (w : SubscribeWrapper) (samples : List (Bytes × Bool)) (raw : Bytes)
    (ok : Bool) :
    let s := w.processAll sha256 samples
    w.processAll sha256 (samples ++ [(raw, ok)]) =
      ((s.1.process sha256 raw ok).1, s.2 ++ [(raw, (s.1.process sha256 raw ok).2)]) := by
  simp only [processAll, List.foldl_append, List.foldl_cons, List.foldl_nil]

theorem used_concat (fates : List (Bytes × Fate)) (raw : Bytes) (fate : Fate) :
    used (fates ++ [(raw, fate)]) = if fate = .failed then used fates else used fates ++ [raw] := by
  unfold used
  by_cases hfate : fate = .failed
  · simp [hfate]
  · simp [hfate, List.filter_append]

/-- The window holds the fingerprints of what was used most recently, and nothing is in flight. -/
structure Keeps (sha256 : Bytes → String) (n : ℕ) (uses : List Bytes) (w : SubscribeWrapper) :
    Prop where
  window : w.dedupWindow = n
  seen : w.seen = (recent n uses).map sha256
  idle : w.inflight = ∅

theorem keeps_init {dedup : Dedup} (hwindow : dedup.window = n) :
    Keeps sha256 n [] (.init dedup) where
  window := hwindow
  seen := by rw [recent_nil]; rfl
  idle := rfl

namespace Keeps

variable {uses : List Bytes} {w : SubscribeWrapper}

theorem length_seen_le (h : w.Keeps sha256 n uses) : w.seen.length ≤ n := by
  rw [h.seen, List.length_map]
  exact length_recent_le n uses

theorem mem_seen_iff (h : w.Keeps sha256 n uses) (hinj : Function.Injective sha256) (raw : Bytes) :
    sha256 raw ∈ w.seen ↔ raw ∈ recent n uses := by
  rw [h.seen, List.mem_map_of_injective hinj]

/-- The window after a use. -/
theorem touch_seen (h : w.Keeps sha256 n uses) (hinj : Function.Injective sha256) (hn : 1 ≤ n)
    (raw : Bytes) : touch n w.seen (sha256 raw) = (recent n (uses ++ [raw])).map sha256 := by
  rw [recent_concat hn, map_touch hinj, h.seen]

/-- A sample with a payload of the window is dropped, and its payload is used. -/
theorem deliver_of_mem (h : w.Keeps sha256 n uses) (hinj : Function.Injective sha256) (hn : 1 ≤ n)
    {raw : Bytes} (hmem : raw ∈ recent n uses) :
    (w.deliver sha256 raw).1 = none ∧ (w.deliver sha256 raw).2.Keeps sha256 n (uses ++ [raw]) := by
  have hseen : sha256 raw ∈ w.seen := (h.mem_seen_iff hinj raw).mpr hmem
  have hwindow : w.dedupWindow ≠ 0 := by
    rw [h.window]
    omega
  have hdeliver : w.deliver sha256 raw =
      (none, { w with seen := w.seen.erase (sha256 raw) ++ [sha256 raw] }) := by
    simp only [deliver, fingerprint, if_neg hwindow, isDuplicate, if_pos hseen]
  rw [hdeliver]
  refine ⟨rfl, h.window, ?_, h.idle⟩
  rw [← h.touch_seen hinj hn, touch_of_mem hseen h.length_seen_le]

/-- Another one is dispatched, and its fingerprint is in flight. -/
theorem deliver_of_not_mem (h : w.Keeps sha256 n uses) (hinj : Function.Injective sha256)
    (hn : 1 ≤ n) {raw : Bytes} (hmem : raw ∉ recent n uses) :
    w.deliver sha256 raw = (some (some (sha256 raw)), { w with inflight := {sha256 raw} }) := by
  have hseen : sha256 raw ∉ w.seen := mt (h.mem_seen_iff hinj raw).mp hmem
  have hwindow : w.dedupWindow ≠ 0 := by
    rw [h.window]
    omega
  simp [deliver, fingerprint, if_neg hwindow, isDuplicate, if_neg hseen, h.idle]

/-- **One delivery** keeps the window. -/
theorem process (h : w.Keeps sha256 n uses) (hinj : Function.Injective sha256) (hn : 1 ≤ n)
    (raw : Bytes) (ok : Bool) : (w.process sha256 raw ok).1.Keeps sha256 n
      (if (w.process sha256 raw ok).2 = .failed then uses else uses ++ [raw]) := by
  by_cases hmem : raw ∈ recent n uses
  · obtain ⟨hnone, hkeeps⟩ := h.deliver_of_mem hinj hn hmem
    have hprocess : w.process sha256 raw ok = ((w.deliver sha256 raw).2, .dropped) := by
      unfold SubscribeWrapper.process
      generalize w.deliver sha256 raw = r at hnone
      obtain ⟨fp, w'⟩ := r
      obtain rfl : fp = none := hnone
      rfl
    rw [hprocess]
    exact hkeeps
  · have hseen : sha256 raw ∉ w.seen := mt (h.mem_seen_iff hinj raw).mp hmem
    have hidle : ({sha256 raw} : Finset String).erase (sha256 raw) = ∅ := Finset.erase_singleton _
    have hprocess : w.process sha256 raw ok =
        (settle { w with inflight := {sha256 raw} } (some (sha256 raw)) ok,
          if ok then .succeeded else .failed) := by
      rw [SubscribeWrapper.process, h.deliver_of_not_mem hinj hn hmem]
    rw [hprocess]
    cases ok with
    | false => exact ⟨h.window, h.seen, hidle⟩
    | true =>
      have hrecorded : (settle { w with inflight := {sha256 raw} } (some (sha256 raw)) true).seen =
          (recent n (uses ++ [raw])).map sha256 := by
        rw [← h.touch_seen hinj hn, touch_of_not_mem hseen]
        simp only [settle, recordDelivered, if_neg hseen, h.window, Nat.cast_lt, if_true]
      exact ⟨h.window, hrecorded, hidle⟩

end Keeps

theorem keeps_processAll (hinj : Function.Injective sha256) (hn : 1 ≤ n) {dedup : Dedup}
    (hwindow : dedup.window = n) (samples : List (Bytes × Bool)) :
    ((init dedup).processAll sha256 samples).1.Keeps sha256 n
      (used ((init dedup).processAll sha256 samples).2) := by
  induction samples using List.reverseRecOn with
  | nil => exact keeps_init hwindow
  | append_singleton samples x ih =>
    obtain ⟨raw, ok⟩ := x
    rw [processAll_concat, used_concat]
    exact ih.process hinj hn raw ok

/-- **The window is an LRU set**: after any deliveries, one after the other, a sample is dispatched
just when its payload is not among the `n` that were used most recently; no more than `n`
fingerprints are remembered, also while a sample is being delivered, and none is in flight. -/
theorem window_lru (hinj : Function.Injective sha256) (hn : 1 ≤ n) {dedup : Dedup}
    (hwindow : dedup.window = n) (samples : List (Bytes × Bool)) :
    let s := (init dedup).processAll sha256 samples
    (∀ raw, (s.1.deliver sha256 raw).1 ≠ none ↔ raw ∉ recent n (used s.2)) ∧
      s.1.seen.length ≤ n ∧ (∀ raw, (s.1.deliver sha256 raw).2.seen.length ≤ n) ∧
      s.1.inflight = ∅ := by
  intro s
  have h : s.1.Keeps sha256 n (used s.2) := keeps_processAll hinj hn hwindow samples
  refine ⟨fun raw => ?_, h.length_seen_le, fun raw => ?_, h.idle⟩
  · by_cases hmem : raw ∈ recent n (used s.2)
    · exact iff_of_false (not_not_intro (h.deliver_of_mem hinj hn hmem).1) (not_not_intro hmem)
    · refine iff_of_true ?_ hmem
      rw [h.deliver_of_not_mem hinj hn hmem]
      exact Option.some_ne_none _
  · by_cases hmem : raw ∈ recent n (used s.2)
    · exact (h.deliver_of_mem hinj hn hmem).2.length_seen_le
    · rw [h.deliver_of_not_mem hinj hn hmem]
      exact h.length_seen_le

/-- The digests of two payloads, and other names for the rest. -/
def digestOfTwo (raw : Bytes) : String :=
  if raw = [1] then "4bf5122f344554c53bde2ebb8cd2b7e3d1600ad631c385a5d7cce23c7785459a"
  else if raw = [2] then "dbc1b4c900ffe48d575b5da5c638040125f65db0fe3e24494b76ea986457d986"
  else String.ofList ('x' :: raw.map Char.ofUInt8)

theorem digestOfTwo_injective : Function.Injective digestOfTwo := by
  have hchar : Function.Injective Char.ofUInt8 := by
    intro b b' h
    exact UInt8.toUInt32_inj.mp (congrArg Char.val h)
  have hone : ∀ {raw : Bytes}, raw ≠ [1] → raw ≠ [2] →
      (digestOfTwo raw).toList = 'x' :: raw.map Char.ofUInt8 := by
    intro raw h₁ h₂
    rw [digestOfTwo, if_neg h₁, if_neg h₂, String.toList_ofList]
  have hfirst : ∀ {raw : Bytes}, raw = [1] ∨ raw = [2] →
      (digestOfTwo raw).toList.head? ≠ some 'x' := by
    rintro raw (rfl | rfl)
    · decide
    · decide
  intro a b h
  by_cases ha : a = [1] ∨ a = [2]
  · by_cases hb : b = [1] ∨ b = [2]
    · obtain rfl | rfl := ha <;> obtain rfl | rfl := hb
      · rfl
      · exact absurd h (by decide)
      · exact absurd h (by decide)
      · rfl
    · obtain ⟨h₁, h₂⟩ := not_or.mp hb
      refine absurd ?_ (hfirst ha)
      rw [h, hone h₁ h₂, List.head?_cons]
  · obtain ⟨h₁, h₂⟩ := not_or.mp ha
    by_cases hb : b = [1] ∨ b = [2]
    · refine absurd ?_ (hfirst hb)
      rw [← h, hone h₁ h₂, List.head?_cons]
    · obtain ⟨h₃, h₄⟩ := not_or.mp hb
      have hlist := congrArg String.toList h
      rw [hone h₁ h₂, hone h₃ h₄] at hlist
      exact List.map_injective_iff.mpr hchar (List.tail_eq_of_cons_eq hlist)

/-- With a window of one, the second payload evicts the first. -/
theorem window_lru_one :
    let s := (init (.size 1)).processAll digestOfTwo [([1], true), ([1], true), ([2], true)]
    ((s.1.deliver digestOfTwo [1]).1 ≠ none ↔ ([1] : Bytes) ∉ recent 1 (used s.2)) ∧
      s.1.seen = ["dbc1b4c900ffe48d575b5da5c638040125f65db0fe3e24494b76ea986457d986"] ∧
      s.1.inflight = ∅ := by
  intro s
  have hwindow : (Dedup.size 1).window = (1 : ℕ) := rfl
  obtain ⟨hdispatched, -, -, hidle⟩ := window_lru digestOfTwo_injective le_rfl hwindow
    [([1], true), ([1], true), ([2], true)]
  exact ⟨hdispatched [1], rfl, hidle⟩

end SubscribeWrapper

end Istos
