import Istos.Data.Table
import Mathlib.Data.Finset.Basic
import Mathlib.Data.List.Sort
import Mathlib.Data.String.Basic

/-!
# Cycles of components

`_find_cycles` of the architecture report.  A set of targets is a list, in the order in which it is
iterated.  `none` stands for an exception, and for a call that is nested deeper than the `fuel`.
-/

namespace Istos

/-- `Dict[str, Set[str]]`. -/
abbrev Edges := Table (Prod.fst : String × List String → String)

/-- `edges.get(v, set())`. -/
def Edges.targets (edges : Edges) (v : String) :
    List String := ((edges.get? v).map Prod.snd).getD []

/-- The variables of `_find_cycles`; the top of the stack comes first. -/
structure Tarjan where
  index : String → Option ℕ
  low : String → Option ℕ
  onStack : Finset String
  stack : List String
  counter : ℕ
  cycles : List (List String)

namespace Tarjan

def init : Tarjan := ⟨fun _ => none, fun _ => none, ∅, [], 0, []⟩

/-- The first lines of `strongconnect`. -/
def enter (v : String) (s : Tarjan) : Tarjan :=
  { s with
    index := Function.update s.index v (some s.counter)
    low := Function.update s.low v (some s.counter)
    counter := s.counter + 1
    stack := v :: s.stack
    onStack := insert v s.onStack }

/-- `low[v] = min(low[v], n)`. -/
def lower (v : String) (n : Option ℕ) (s : Tarjan) : Option Tarjan := do
  let lv ← s.low v
  let n ← n
  return { s with low := Function.update s.low v (some (min lv n)) }

/-- The loop over the targets; `connect` is the call of `strongconnect`. -/
def visit (connect : String → Tarjan → Option Tarjan) (v : String) :
    List String → Tarjan → Option Tarjan
  | [], s => some s
  | w :: ws, s =>
    if s.index w = none then do
      let s ← connect w s
      visit connect v ws (← s.lower v (s.low w))
    else if w ∈ s.onStack then do
      visit connect v ws (← s.lower v (s.index w))
    else visit connect v ws s

/-- The loop that pops a component: its nodes, and what stays. -/
def pop (v : String) : List String → Finset String → Option
    (List String × List String × Finset String)
  | [], _ => none
  | w :: stack, onStack =>
    if w = v then some ([w], stack, onStack.erase w)
    else (pop v stack (onStack.erase w)).map fun x => (w :: x.1, x.2)

/-- The last lines of `strongconnect`. -/
def leave (v : String) (s : Tarjan) : Option Tarjan := do
  let lv ← s.low v
  let iv ← s.index v
  if lv = iv then
    let (scc, stack, onStack) ← pop v s.stack s.onStack
    return { s with
      stack, onStack
      cycles := if 1 < scc.length then s.cycles ++ [scc.insertionSort (· ≤ ·)] else s.cycles }
  else return s

/-- `strongconnect`. -/
def strongconnect (edges : Edges) : ℕ → String → Tarjan → Option Tarjan
  | 0, _, _ => none
  | fuel + 1, v, s => do
    let s ← visit (strongconnect edges fuel) v (edges.targets v) (s.enter v)
    s.leave v

/-- The loop over the keys. -/
def visitAll (edges : Edges) (fuel : ℕ) : List String → Tarjan → Option Tarjan
  | [], s => some s
  | v :: vs, s =>
    if s.index v = none then do
      visitAll edges fuel vs (← strongconnect edges fuel v s)
    else visitAll edges fuel vs s

end Tarjan

/-- `_find_cycles`. -/
def findCycles (fuel : ℕ) (edges : Edges) : Option (List (List String)) :=
  (Tarjan.visitAll edges fuel edges.keys Tarjan.init).map Tarjan.cycles

end Istos
