import Mathlib.Data.List.Basic

/-!
# Queues that are awaited

`asyncio.Queue` without a bound.  Who gets from an empty queue waits; a put wakes the one that waits
longest, which goes on later and looks again, since another may have taken the item.

`Awake`: while anybody waits, at least as many are woken as there are items, so no item is
forgotten.
-/

/-- The items, those who wait, and those who are woken and have not gone on yet. -/
structure AsyncQueue (α C : Type*) where
  items : List α
  waiting : List C
  woken : List C

namespace AsyncQueue

variable {α C : Type*}

def empty : AsyncQueue α C := ⟨[], [], []⟩

/-- `_wakeup_next`. -/
def wake (q : AsyncQueue α C) : AsyncQueue α C :=
  match q.waiting with
  | [] => q
  | c :: rest => { q with waiting := rest, woken := q.woken ++ [c] }

/-- `put_nowait`. -/
def put (q : AsyncQueue α C) (x : α) : AsyncQueue α C := { q with items := q.items ++ [x] }.wake

/-- `get`, until it returns or waits. -/
def get (q : AsyncQueue α C) (c : C) : Option α × AsyncQueue α C :=
  match q.items with
  | [] => (none, { q with waiting := q.waiting ++ [c] })
  | x :: rest => (some x, { q with items := rest })

/-- Somebody waits, or is woken. -/
def Pending (q : AsyncQueue α C) (c : C) : Prop := c ∈ q.waiting ∨ c ∈ q.woken

variable [DecidableEq C]

instance (q : AsyncQueue α C) (c : C) :
    Decidable (q.Pending c) := inferInstanceAs (Decidable (_ ∨ _))

/-- Who is woken goes on. -/
def resume (q : AsyncQueue α C) (c : C) : Option α × AsyncQueue α C :=
  { q with woken := q.woken.erase c }.get c

/-- Who waits is cancelled; one that is woken wakes the next where there is an item. -/
def cancel (q : AsyncQueue α C) (c : C) : AsyncQueue α C :=
  if c ∈ q.woken then
    if q.items = [] then { q with woken := q.woken.erase c }
    else { q with woken := q.woken.erase c }.wake
  else { q with waiting := q.waiting.erase c }

omit [DecidableEq C] in
@[simp] theorem items_wake (q : AsyncQueue α C) : q.wake.items = q.items := by
  unfold wake
  split <;> rfl

omit [DecidableEq C] in
@[simp] theorem items_put (q : AsyncQueue α C) (x : α) : (q.put x).items = q.items ++ [x] :=
  items_wake _

/-- Nobody waits while there are more items than are woken. -/
def Awake (q : AsyncQueue α C) : Prop := q.waiting ≠ [] → q.items.length ≤ q.woken.length

namespace Awake

variable {q : AsyncQueue α C}

omit [DecidableEq C] in
theorem empty : (empty : AsyncQueue α C).Awake := fun h => absurd rfl h

omit [DecidableEq C] in
/-- To wake somebody makes up for one item. -/
theorem wake (h : q.waiting ≠ [] → q.items.length ≤ q.woken.length + 1) : q.wake.Awake := by
  unfold AsyncQueue.wake Awake
  split
  · rename_i hnone
    exact fun hwaiting => absurd hnone hwaiting
  · rename_i c rest hsome
    intro _
    have hne : q.waiting ≠ [] := hsome ▸ List.cons_ne_nil c rest
    rw [List.length_append]
    exact h hne

omit [DecidableEq C] in
theorem put (h : q.Awake) (x : α) : (q.put x).Awake := by
  refine wake fun hwaiting => ?_
  rw [List.length_append]
  exact Nat.succ_le_succ (h hwaiting)

omit [DecidableEq C] in
theorem get (h : q.Awake) (c : C) : (q.get c).2.Awake := by
  unfold AsyncQueue.get
  split
  · rename_i hnone
    intro _
    rw [hnone]
    exact Nat.zero_le _
  · rename_i x rest hsome
    intro hwaiting
    have hle := h hwaiting
    rw [hsome, List.length_cons] at hle
    exact Nat.le_of_succ_le hle

theorem resume (h : q.Awake) {c : C} (hc : c ∈ q.woken) : (q.resume c).2.Awake := by
  have hlength := List.length_erase_of_mem hc
  unfold AsyncQueue.resume AsyncQueue.get
  split
  · rename_i hnone
    intro _
    rw [hnone]
    exact Nat.zero_le _
  · rename_i x rest hsome
    intro hwaiting
    have hle := h hwaiting
    have hitems : q.items = x :: rest := hsome
    rw [hitems, List.length_cons] at hle
    show rest.length ≤ (q.woken.erase c).length
    omega

theorem cancel (h : q.Awake) (c : C) : (q.cancel c).Awake := by
  unfold AsyncQueue.cancel
  split_ifs with hwoken hitems
  · intro _
    show q.items.length ≤ _
    rw [hitems]
    exact Nat.zero_le _
  · refine wake fun hwaiting => ?_
    have hlength := List.length_erase_of_mem hwoken
    have hpos := List.length_pos_of_mem hwoken
    have hle := h hwaiting
    show q.items.length ≤ (q.woken.erase c).length + 1
    omega
  · intro hwaiting
    refine h fun hnone => hwaiting ?_
    show q.waiting.erase c = []
    rw [hnone, List.erase_nil]

end Awake

end AsyncQueue
