import Istos.Data.Contextlib
import Istos.Primitives.Inject

/-!
# Injection

`resolve_dependencies` with what it leaves behind: the cache, the exit stack, and the log of what
was executed and entered.  `inject_and_run` calls a function with what it resolves, and leaves the
exit stack.

What a callable does is a parameter, and may depend on all that happened before.
-/

namespace Istos

open Contextlib

/-- What `inspect` tells of a callable. -/
inductive CallableKind
  | plain
  | coroutine
  | generator
  | asyncGenerator
  deriving DecidableEq

/-- Whether the callable is a `yield` dependency. -/
def CallableKind.yields : CallableKind → Bool
  | generator => true
  | asyncGenerator => true
  | _ => false

/-- A `yield` dependency that was entered, and how much had happened before. -/
structure Entered (F : Type) where
  func : F
  place : ℕ
  deriving DecidableEq

/-- What happens. -/
inductive InjectEvent (F W O E : Type)
  /-- a dependency was called, and returned, yielded or raised -/
  | executed (f : F) (kwargs : Kwargs F W O) (result : Except E O)
  | entered (e : Entered F)
  /-- the function itself was called -/
  | called (f : F) (kwargs : Kwargs F W O) (result : Except E O)
  /-- a `yield` dependency was resumed -/
  | closed (e : Entered F)

/-- The callables of an application, and the overrides of its dependencies. -/
structure DependencyGraph (F H O : Type) where
  signature : F → Signature F H O
  kind : F → CallableKind
  /-- `overrides.get(original, original)` -/
  override : F → F

/-- What the callables do, after what has happened. -/
structure Bodies (F W O E : Type) where
  run : F → Kwargs F W O → List (InjectEvent F W O E) → Except E O
  /-- resumed after its `yield` -/
  next : Entered F → List (InjectEvent F W O E) → Ended (CallFault F E)
  /-- resumed with an exception -/
  throw : Entered F → CallFault F E → List (InjectEvent F W O E) → Option (Ended (CallFault F E))

/-- What a resolution leaves behind. -/
structure Injecting (F W O E : Type) where
  cache : List (F × O)
  /-- the exit stack, the last one entered first -/
  stack : List (Entered F)
  log : List (InjectEvent F W O E)

namespace Injecting

variable {F W O E : Type}

/-- Nothing has happened. -/
def empty : Injecting F W O E := ⟨[], [], []⟩

/-- `enter_async_context`. -/
def enter (s : Injecting F W O E) (f : F) : Injecting F W O E :=
  let e : Entered F := ⟨f, s.log.length⟩
  { s with stack := e :: s.stack, log := s.log ++ [.entered e] }

/-- `cache[dependency_func] = result`. -/
def store [DecidableEq F] (s : Injecting F W O E) (f : F) (o : O) : Injecting F W O E :=
  { s with cache := Assoc.set s.cache f o }

end Injecting

/-- What is returned or raised, and what is left behind. -/
abbrev Injected (F W O E A : Type) := Except (CallFault F E) A × Injecting F W O E

/-- A generator at its `yield`; that it is resumed is seen in the log. -/
def Bodies.suspended {F W O E : Type} (b : Bodies F W O E) (e : Entered F) :
    Suspended (CallFault F E) (List (InjectEvent F W O E)) where
  next log := (b.next e log, log ++ [.closed e])
  throw x log := (b.throw e x log, log ++ [.closed e])

/-- `_sync_cm_in_thread` at its `yield`. -/
def syncCmInThread {X L : Type} (cm : Option X → L → Except X Bool × L) : Suspended X L where
  next l :=
    match cm none l with
    | (.ok _, l) => (.returned, l)
    | (.error x, l) => (.raised x, l)
  throw x l :=
    match cm (some x) l with
    | (.ok true, l) => (some .returned, l)
    | (.ok false, l) => (none, l)
    | (.error y, l) => (some (.raised y), l)

namespace DependencyGraph

variable {F H W O E : Type} (g : DependencyGraph F H O) (b : Bodies F W O E)

/-! ### `resolve_dependencies` -/

/-- The call of a dependency; a `yield` dependency goes on the exit stack. -/
def execute (f : F) (kwargs : Kwargs F W O) (s : Injecting F W O E) : Injected F W O E O :=
  let result := b.run f kwargs s.log
  let s := { s with log := s.log ++ [.executed f kwargs result] }
  match result with
  | .error e => (.error (.raised e), s)
  | .ok o => (.ok o, if (g.kind f).yields then s.enter f else s)

variable [DecidableEq F]

/-- A parameter that depends; `resolve` is the recursive call. -/
def resolveDepends
    (resolve : F → List F → Injecting F W O E → Injected F W O E (Kwargs F W O)) (chain : List F)
    (name : String) (depends : Depends F) (kwargs : Kwargs F W O) (s : Injecting F W O E) :
    Injected F W O E (Kwargs F W O) :=
  let original := depends.dependency
  let f := g.override original
  if original ∈ chain ∨ f ∈ chain then (.error (.cycle (chain ++ [f])), s)
  else
    match if depends.useCache then s.cache.lookup f else none with
    | some o => (.ok (Assoc.set kwargs name (.resolved f o)), s)
    | none =>
      match resolve f (chain ++ [f]) s with
      | (.error x, s) => (.error x, s)
      | (.ok sub, s) =>
        match g.execute b f sub s with
        | (.error x, s) => (.error x, s)
        | (.ok o, s) =>
          (.ok (Assoc.set kwargs name (.resolved f o)), if depends.useCache then s.store f o else s)

/-- One parameter. -/
def resolveParam (resolve : F → List F → Injecting F W O E → Injected F W O E (Kwargs F W O))
    (existing : Kwargs F W O) (skip : List String) (func : F) (chain : List F) (p : Param F O)
    (kwargs : Kwargs F W O) (s : Injecting F W O E) : Injected F W O E (Kwargs F W O) :=
  if p.name = "self" ∨ p.name ∈ skip then (.ok kwargs, s)
  else
    match p.extractDepends, existing.lookup p.name with
    | none, some v => (.ok (Assoc.set kwargs p.name v), s)
    | depends, _ =>
      if p.kind = .varKeyword then
        (.ok (kwargs ++ existing.filter fun x => decide (x.1 ∉ kwargs.map Prod.fst)), s)
      else
        match depends with
        | some d => g.resolveDepends b resolve chain p.name d kwargs s
        | none =>
          if p.hasDefault || !p.kind.byName then (.ok kwargs, s)
          else (.error (.required p.name func), s)

/-- The parameters from left to right. -/
def resolveParams (resolve : F → List F → Injecting F W O E → Injected F W O E (Kwargs F W O))
    (existing : Kwargs F W O) (skip : List String) (func : F) (chain : List F) :
    List (Param F O) → Kwargs F W O → Injecting F W O E → Injected F W O E (Kwargs F W O)
  | [], kwargs, s => (.ok kwargs, s)
  | p :: ps, kwargs, s =>
    match g.resolveParam b resolve existing skip func chain p kwargs s with
    | (.error x, s) => (.error x, s)
    | (.ok kwargs, s) => resolveParams resolve existing skip func chain ps kwargs s

/-- `resolve_dependencies`, with the number of calls that the interpreter's recursion limit leaves.
-/
def resolveDependencies (existing : Kwargs F W O) :
    ℕ → List String → F → List F → Injecting F W O E → Injected F W O E (Kwargs F W O)
  | 0, _, _, _, s => (.error .recursion, s)
  | n + 1, skip, func, chain, s =>
    g.resolveParams b (resolveDependencies existing n []) existing skip func chain
      (g.signature func).params [] s

/-! ### `inject_and_run` -/

omit [DecidableEq F] in
/-- How a `yield` dependency is left. -/
def exit (e : Entered F) : Option (CallFault F E) → List (InjectEvent F W O E) →
    Except (CallFault F E) Bool × List (InjectEvent F W O E) :=
  match g.kind e.func with
  | .generator => (syncCmInThread (b.suspended e).exit).exit
  | _ => (b.suspended e).exit

/-- `inject_and_run`: what it returns (`none` where an exception was swallowed) or raises, and all
that happened. -/
def injectAndRun (context : Kwargs F W O) (recursionLimit : ℕ) (func : F) :
    Except (CallFault F E) (Option O) × List (InjectEvent F W O E) :=
  match g.resolveDependencies b context recursionLimit [] func [] .empty with
  | (.error x, s) => leave s.stack (.error x) s.log
  | (.ok kwargs, s) =>
    let result := b.run func kwargs s.log
    leave s.stack (result.mapError .raised) (s.log ++ [.called func kwargs result])
where
  /-- the end of `async with AsyncExitStack()` -/
  leave (stack : List (Entered F)) (result : Except (CallFault F E) O)
      (log : List (InjectEvent F W O E)) :
      Except (CallFault F E) (Option O) × List (InjectEvent F W O E) :=
    match result with
    | .ok o =>
      match unwind (g.exit b) stack none log with
      | (none, log) => (.ok (some o), log)
      | (some x, log) => (.error x, log)
    | .error x =>
      match unwind (g.exit b) stack (some x) log with
      | (none, log) => (.ok none, log)
      | (some x, log) => (.error x, log)

end DependencyGraph

end Istos
