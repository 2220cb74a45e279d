import Mathlib.Data.List.Basic

/-!
# Context managers

A generator that is suspended at its `yield` becomes a context manager, and an exit stack leaves the
context managers that were entered, the last one first (`unwind`).  Each is left once, whatever it
raises or swallows (`unwind_snd`).
-/

namespace Contextlib

variable {X L C : Type*}

/-- How a generator ends when it is resumed; a second `yield` raises. -/
inductive Ended (X : Type*)
  | returned
  | raised (x : X)

/-- A generator at its `yield`, with what it does to `L`. -/
structure Suspended (X L : Type*) where
  next : L → Ended X × L
  /-- `none` where it lets the exception through -/
  throw : X → L → Option (Ended X) × L

/-- `__exit__`: what it raises, or whether it swallows the exception. -/
def Suspended.exit (gen : Suspended X L) : Option X → L → Except X Bool × L
  | none, l =>
    match gen.next l with
    | (.returned, l) => (.ok false, l)
    | (.raised x, l) => (.error x, l)
  | some x, l =>
    match gen.throw x l with
    | (none, l) => (.ok false, l)
    | (some .returned, l) => (.ok true, l)
    | (some (.raised y), l) => (.error y, l)

/-- `AsyncExitStack.__aexit__`: the exception that is left, `exc` being the one it was left with. -/
def unwind (exit : C → Option X → L → Except X Bool × L) : List C → Option X → L → Option X × L
  | [], exc, l => (exc, l)
  | c :: cs, exc, l =>
    match exit c exc l with
    | (.ok true, l) => unwind exit cs none l
    | (.ok false, l) => unwind exit cs exc l
    | (.error x, l) => unwind exit cs (some x) l

/-- What leaving the context managers one by one adds to a log. -/
theorem unwind_snd {A : Type*} {exit : C → Option X → List A → Except X Bool × List A}
    {event : C → A} (h : ∀ c exc l, (exit c exc l).2 = l ++ [event c]) (cs : List C) :
    ∀ exc l, (unwind exit cs exc l).2 = l ++ cs.map event := by
  induction cs with
  | nil =>
    intro exc l
    exact (List.append_nil l).symm
  | cons c cs ih =>
    intro exc l
    have hexit := h c exc l
    rw [List.map_cons, List.append_cons, unwind]
    rcases hr : exit c exc l with ⟨x | swallowed, l'⟩
    · rw [hr] at hexit
      obtain rfl : l' = l ++ [event c] := hexit
      exact ih _ _
    · rw [hr] at hexit
      obtain rfl : l' = l ++ [event c] := hexit
      cases swallowed <;> exact ih _ _

end Contextlib
