import Istos.Agent.Loop
import Mathlib.Data.Finset.Card
import Mathlib.Data.Fintype.Defs
import Mathlib.Data.Finset.Dedup
import Mathlib.Data.Finset.Image

/-!
# Agents that hand off to each other

An `Agent` is an object: two agents may have one name.  The loop follows the objects; the registry
that the check up front and the drivers use is keyed by name.
-/

namespace Istos

/-- `Agent`, without its model. -/
structure Agent (A : Type) where
  name : String
  tools : List MeshTool
  system : Option String
  /-- the agents that it may transfer to -/
  handoffs : List A

/-- `_transfer_tool_name`. -/
def transferToolName (name : String) : String := "transfer_to_" ++ toolName name

section

variable {A : Type} (agents : A → Agent A)

/-- `handoff_by_tool.get(name)`: the last handoff of a tool name stands for it. -/
def handoffByTool (active : A) (name : String) : Option A :=
  (agents active).handoffs.reverse.find? fun t => transferToolName (agents t).name = name

/-- `registry.get(name)`: at most one agent of a name is registered. -/
def registered (registry : List A) (name : String) : Option A :=
  registry.find? fun a => (agents a).name = name

/-- The names of the graph that are not registered. -/
def unregistered [Fintype A] (registry : List A) : Finset String :=
  (Finset.univ.image fun a => (agents a).name) \ (registry.map fun a => (agents a).name).toFinset

/-- Registering an agent of a new name leaves fewer names. -/
theorem card_unregistered_lt [Fintype A] {registry : List A} {a : A}
    (h : registered agents registry (agents a).name = none) :
    (unregistered agents (a :: registry)).card < (unregistered agents registry).card := by
  apply Finset.card_lt_card
  rw [Finset.ssubset_iff_of_subset]
  · refine ⟨(agents a).name, ?_, ?_⟩
    · simp only [unregistered, Finset.mem_sdiff, Finset.mem_image, Finset.mem_univ, true_and,
        List.mem_toFinset, List.mem_map, not_exists, not_and]
      refine ⟨⟨a, rfl⟩, fun b hb heq => ?_⟩
      have hnone := List.find?_eq_none.mp h b hb
      simp [heq] at hnone
    · simp [unregistered]
  · intro name hname
    simp only [unregistered, Finset.mem_sdiff, List.mem_toFinset, List.map_cons, List.mem_cons,
      not_or] at hname ⊢
    exact ⟨hname.1, hname.2.2⟩

/-- The walk of `build_registry`: the stack, with its top first, and the agents registered so far.
-/
def walk [Fintype A] (stack : List A) (registry : List A) : List A :=
  match stack with
  | [] => registry
  | agent :: stack =>
    match _h : registered agents registry (agents agent).name with
    | some _ => walk stack registry
    | none => walk ((agents agent).handoffs.reverse ++ stack) (agent :: registry)
termination_by ((unregistered agents registry).card, stack.length)
decreasing_by
  · exact Prod.Lex.right _ (by simp)
  · exact Prod.Lex.left _ _ (card_unregistered_lt agents _h)

@[simp]
theorem walk_nil [Fintype A] (registry : List A) : walk agents [] registry = registry := by
  rw [walk]

/-- An agent whose name is registered is passed over, with what it hands off to. -/
theorem walk_of_registered [Fintype A] {a b : A} {registry : List A}
    (h : registered agents registry (agents a).name = some b) (stack : List A) :
    walk agents (a :: stack) registry = walk agents stack registry := by
  rw [walk]
  split
  · rfl
  · next hnone =>
    rw [h] at hnone
    cases hnone

/-- An agent of a new name is registered. -/
theorem walk_of_new [Fintype A] {a : A} {registry : List A}
    (h : registered agents registry (agents a).name = none) (stack : List A) :
    walk agents (a :: stack) registry =
      walk agents ((agents a).handoffs.reverse ++ stack) (a :: registry) := by
  rw [walk]
  split
  · next b hsome =>
    rw [h] at hsome
    cases hsome
  · rfl

/-- `build_registry`. -/
def buildRegistry [Fintype A] (entry : A) : List A := walk agents [entry] []

/-- `run_multi_agent`. -/
def runMultiAgent [Fintype A] (maxSteps : ℕ) (maxMessages : Option ℕ) (approvals : Bool) :
    Loop A where
  tools a := (agents a).tools
  target := handoffByTool agents
  agentName a := (agents a).name
  present a messages := withSystem messages (agents a).system
  needsGate a := (buildRegistry agents a).any fun b =>
    (agents b).tools.any MeshTool.requiresApproval
  stopped n := "Stopped after " ++ Nat.repr n ++ " steps without a final answer."
  maxSteps := maxSteps
  maxMessages := maxMessages
  approvals := approvals

end

end Istos
