import Mathlib.Order.Basic
import Mathlib.Data.List.Sort

/-!
# Priority queues

`Heap α` is a priority queue as its user sees it: the entries in ascending order.  How an array
lays them out is not observable through `push` and popping the least entry, so the order is kept
as a field and every operation preserves it by construction.

* `push` inserts an entry;
* `drainWhile` is the loop `while h and p(h[0]): body(heappop(h))`, with its while rule
  `drainWhile_rule`; with a test like `key ≤ now` it pops exactly the entries that pass
  (`mem_takeWhile_iff`, `mem_dropWhile_iff`);
* `popUntil` is the loop that pops until a test accepts an entry (`popUntil_some`,
  `popUntil_none`).
-/

/-- A priority queue: its entries in ascending order. -/
structure Heap (α : Type*) [LinearOrder α] where
  /-- The entries, least first. -/
  toList : List α
  /-- The entries are in order. -/
  sorted : toList.Pairwise (· ≤ ·)

namespace Heap

variable {α : Type*} [LinearOrder α] {β σ : Type*}

instance : Membership α (Heap α) := ⟨fun h a => a ∈ h.toList⟩

theorem mem_def {h : Heap α} {a : α} : a ∈ h ↔ a ∈ h.toList := Iff.rfl

instance (a : α) (h : Heap α) : Decidable (a ∈ h) := inferInstanceAs (Decidable (a ∈ h.toList))

/-- The heap without entries. -/
def empty : Heap α := ⟨[], List.Pairwise.nil⟩

instance : EmptyCollection (Heap α) := ⟨empty⟩

@[simp] theorem not_mem_empty (a : α) : a ∉ (∅ : Heap α) := List.not_mem_nil

/-- `heapq.heappush`. -/
def push (h : Heap α) (a : α) : Heap α :=
  ⟨h.toList.orderedInsert (· ≤ ·) a, h.sorted.orderedInsert a h.toList⟩

@[simp] theorem mem_push {h : Heap α} {a b : α} : b ∈ h.push a ↔ b = a ∨ b ∈ h :=
  List.mem_orderedInsert (· ≤ ·)

/-! ### The draining loop -/

/-- `while h and p(h[0]): a = heappop(h); s = f(a, h, s)`, on the ordered entries. -/
def drainList (p : α → Bool) (f : α → Heap α → σ → σ) :
    (l : List α) → l.Pairwise (· ≤ ·) → σ → Heap α × σ
  | [], _, s => (∅, s)
  | a :: l, hl, s =>
    if p a then drainList p f l (List.pairwise_cons.mp hl).2 (f a ⟨l,
      (List.pairwise_cons.mp hl).2⟩ s)
    else (⟨a :: l, hl⟩, s)

/-- `while h and p(h[0]): a = heappop(h); s = f(a, h, s)`.  The body sees the heap it popped
from. -/
def drainWhile (p : α → Bool) (f : α → Heap α → σ → σ) (h : Heap α) (s : σ) : Heap α × σ :=
  drainList p f h.toList h.sorted s

/-- **The while rule**.  `P popped h s` relates the entries popped so far, the heap and the state.
If each pass preserves it, it holds at the end, where the entries popped are those before the first
that fails the test. -/
theorem drainWhile_rule {p : α → Bool} {f : α → Heap α → σ → σ} (P : List α → Heap α → σ → Prop)
    (step : ∀ (popped : List α) (a : α) (rest h : Heap α) (s : σ), h.toList = a :: rest.toList →
      p a = true → P popped h s → P (popped ++ [a]) rest (f a rest s))
    {h : Heap α} {s : σ} (start : P [] h s) :
    P (h.toList.takeWhile p) (drainWhile p f h s).1 (drainWhile p f h s).2 ∧
      (drainWhile p f h s).1.toList = h.toList.dropWhile p := by
  suffices key : ∀ (l : List α) (hl : l.Pairwise (· ≤ ·)) (popped : List α) (s : σ),
      P popped ⟨l, hl⟩ s →
      P (popped ++ l.takeWhile p) (drainList p f l hl s).1 (drainList p f l hl s).2 ∧
        (drainList p f l hl s).1.toList = l.dropWhile p from
    key h.toList h.sorted [] s start
  intro l
  induction l with
  | nil =>
    intro hl popped s hP
    rw [List.takeWhile_nil, List.append_nil]
    exact ⟨hP, rfl⟩
  | cons a l ih =>
    intro hl popped s hP
    have hl' : l.Pairwise (· ≤ ·) := (List.pairwise_cons.mp hl).2
    simp only [drainList]
    by_cases hp : p a = true
    · rw [if_pos hp, List.takeWhile_cons_of_pos hp, List.dropWhile_cons_of_pos hp]
      have hP' := step popped a ⟨l, hl'⟩ ⟨a :: l, hl⟩ s rfl hp hP
      have hrec := ih hl' (popped ++ [a]) _ hP'
      rwa [List.append_assoc, List.singleton_append] at hrec
    · rw [if_neg hp, List.takeWhile_cons_of_neg hp, List.dropWhile_cons_of_neg hp, List.append_nil]
      exact ⟨hP, rfl⟩

/-- A test that accepts everything below an accepted entry, such as `key ≤ now`. -/
def Lower (p : α → Bool) : Prop := ∀ ⦃a b : α⦄, a ≤ b → p b = true → p a = true

/-- A loop with a lower test pops exactly the entries that pass it. -/
theorem mem_takeWhile_iff {p : α → Bool} (hp : Lower p) {h : Heap α} {a : α} :
    a ∈ h.toList.takeWhile p ↔ a ∈ h ∧ p a = true := by
  obtain ⟨l, hl⟩ := h
  change a ∈ l.takeWhile p ↔ a ∈ l ∧ p a = true
  induction l with
  | nil => simp
  | cons b l ih =>
    by_cases hb : p b = true
    · rw [List.takeWhile_cons_of_pos hb, List.mem_cons, List.mem_cons,
        ih (List.pairwise_cons.mp hl).2]
      constructor
      · rintro (rfl | ⟨ha, hpa⟩)
        · exact ⟨Or.inl rfl, hb⟩
        · exact ⟨Or.inr ha, hpa⟩
      · rintro ⟨rfl | ha, hpa⟩
        · exact Or.inl rfl
        · exact Or.inr ⟨ha, hpa⟩
    · rw [List.takeWhile_cons_of_neg hb]
      constructor
      · exact fun h => absurd h List.not_mem_nil
      · rintro ⟨ha, hpa⟩
        rcases List.mem_cons.mp ha with rfl | ha
        · exact absurd hpa hb
        · exact absurd (hp (List.rel_of_pairwise_cons hl ha) hpa) hb

/-- A loop with a lower test leaves exactly the entries that fail it. -/
theorem mem_dropWhile_iff {p : α → Bool} (hp : Lower p) {h : Heap α} {a : α} :
    a ∈ h.toList.dropWhile p ↔ a ∈ h ∧ p a = false := by
  obtain ⟨l, hl⟩ := h
  change a ∈ l.dropWhile p ↔ a ∈ l ∧ p a = false
  induction l with
  | nil => simp
  | cons b l ih =>
    by_cases hb : p b = true
    · rw [List.dropWhile_cons_of_pos hb, ih (List.pairwise_cons.mp hl).2, List.mem_cons]
      constructor
      · exact fun ⟨ha, hpa⟩ => ⟨Or.inr ha, hpa⟩
      · rintro ⟨rfl | ha, hpa⟩
        · rw [hb] at hpa
          cases hpa
        · exact ⟨ha, hpa⟩
    · rw [List.dropWhile_cons_of_neg hb]
      refine ⟨fun ha => ⟨ha, ?_⟩, fun ha => ha.1⟩
      rw [Bool.eq_false_iff]
      intro hpa
      rcases List.mem_cons.mp ha with rfl | ha
      · exact hb hpa
      · exact hb (hp (List.rel_of_pairwise_cons hl ha) hpa)

/-! ### The searching loop -/

/-- Pops until `test` accepts an entry, on the ordered entries. -/
def searchList (test : α → Option β) :
    (l : List α) → l.Pairwise (· ≤ ·) → Option β × Heap α
  | [], _ => (none, ∅)
  | a :: l, hl =>
    match test a with
    | some b => (some b, ⟨l, (List.pairwise_cons.mp hl).2⟩)
    | none => searchList test l (List.pairwise_cons.mp hl).2

/-- `while h: a = heappop(h); if test(a) fails: continue; return …`: pops until `test` accepts an
entry, and leaves what comes after it. -/
def popUntil (test : α → Option β) (h : Heap α) : Option β × Heap α :=
  searchList test h.toList h.sorted

/-- A search that finds something: the entries before the accepted one were all refused. -/
theorem popUntil_some {test : α → Option β} {h rest : Heap α} {b : β}
    (hs : popUntil test h = (some b, rest)) :
    ∃ (pre : List α) (a : α), h.toList = pre ++ a :: rest.toList ∧
      (∀ x ∈ pre, test x = none) ∧ test a = some b := by
  obtain ⟨l, hl⟩ := h
  unfold popUntil at hs
  induction l with
  | nil => simp [searchList] at hs
  | cons a l ih =>
    rw [searchList] at hs
    cases ha : test a with
    | some b' =>
      simp only [ha, Prod.mk.injEq, Option.some.injEq] at hs
      obtain ⟨rfl, rfl⟩ := hs
      exact ⟨[], a, rfl, by simp, ha⟩
    | none =>
      simp only [ha] at hs
      obtain ⟨pre, x, hl', hpre, hx⟩ := ih (List.pairwise_cons.mp hl).2 hs
      refine ⟨a :: pre, x, congrArg (a :: ·) hl', ?_, hx⟩
      rintro y (_ | ⟨_, hy⟩)
      · exact ha
      · exact hpre y hy

/-- A search that finds nothing has refused every entry and emptied the heap. -/
theorem popUntil_none {test : α → Option β} {h rest : Heap α}
    (hs : popUntil test h = (none, rest)) : (∀ x ∈ h, test x = none) ∧ rest = ∅ := by
  obtain ⟨l, hl⟩ := h
  change (∀ x ∈ l, test x = none) ∧ rest = ∅
  unfold popUntil at hs
  induction l with
  | nil =>
    simp only [searchList, Prod.mk.injEq, true_and] at hs
    exact ⟨by simp, hs.symm⟩
  | cons a l ih =>
    rw [searchList] at hs
    cases ha : test a with
    | some b' => simp [ha] at hs
    | none =>
      simp only [ha] at hs
      obtain ⟨hl', hr⟩ := ih (List.pairwise_cons.mp hl).2 hs
      refine ⟨?_, hr⟩
      rintro y (_ | ⟨_, hy⟩)
      · exact ha
      · exact hl' y hy

end Heap
