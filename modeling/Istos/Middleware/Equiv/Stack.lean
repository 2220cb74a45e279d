import Istos.Middleware.Stack

/-!
# Requests within their middlewares

* `invoke_nested`: whatever the middlewares do, they are entered and left within each other, the
  handler is called in the context of the scope that it is given, and afterwards the context is the
  one before.
* `packaged_stack`: the middlewares of the package, in any number and order, call the handler once
  and end as it ends, unless a rate limiter refuses.
-/

namespace Istos.MiddlewareStack

variable {P W V X : Type} {handler : Handler P W V X}

/-! ### Nesting -/

/-- What a stack of `n` middlewares logs. -/
inductive Nested : ℕ → List (Event P V X) → Prop
  /-- the handler is called in the context of its scope, which says where -/
  | handled {scope : Scope} {current : Option ℕ} {context : Option (RequestContext P)}
      {result : Except Thrown V} {did : List X} :
      current = some scope.context →
      (∀ ctx ∈ context, ctx.path = scope.path ∧ ctx.operation = scope.operation) →
      Nested 0 [.handled scope current context result did]
  /-- a middleware is entered and left, and calls the next one in between -/
  | within {n : ℕ} {scope : Scope} {calls : List (List (Event P V X))} :
      (∀ call ∈ calls, Nested n call) →
      Nested (n + 1) (.entered n scope :: (calls.flatten ++ [.left n]))

/-- A context that was described says where it is. -/
theorem described (t : Task P W) (scope : Scope) :
    ∀ ctx ∈ (t.describe scope.context scope.path scope.operation).contexts[scope.context]?,
      ctx.path = scope.path ∧ ctx.operation = scope.operation := by
  intro ctx hctx
  simp only [Task.describe, List.getElem?_modify_eq, Option.mem_def] at hctx
  cases hold : t.contexts[scope.context]? with
  | none =>
    rw [hold] at hctx
    cases hctx
  | some before =>
    rw [hold] at hctx
    obtain rfl := Option.some.inj hctx
    exact ⟨rfl, rfl⟩

/-- **What is dispatched in the context of its scope is nested**. -/
theorem dispatch_nested (ms : List (Middleware P W V)) (scope : Scope) (t : Task P W)
    (log : List (Event P V X)) (hcurrent : t.current = some scope.context) :
    ∃ segment, Nested ms.length segment ∧
      (dispatch handler ms scope t log).2.2 = log ++ segment := by
  induction ms generalizing scope t log with
  | nil => exact ⟨_, .handled hcurrent (described t scope), rfl⟩
  | cons m ms ih =>
    -- each question of the middleware is a dispatch to the next ones
    obtain ⟨calls, hcalls, hrun⟩ := Program.run_segments
      (fun (next : Scope) (t : Task P W) log =>
        ((dispatch handler ms next (t.push next.context) log).1,
          (dispatch handler ms next (t.push next.context) log).2.1.pop t.current,
          (dispatch handler ms next (t.push next.context) log).2.2))
      (P := Nested ms.length) (fun next t log => ih next (t.push next.context) log rfl) (m scope)
      (t.describe scope.context scope.path scope.operation) (log ++ [.entered ms.length scope])
    refine ⟨.entered ms.length scope :: (calls.flatten ++ [.left ms.length]), .within hcalls, ?_⟩
    show (Program.run _ (m scope) _ _).2.2 ++ [Event.left ms.length] = _
    rw [hrun]
    simp only [List.append_assoc, List.cons_append, List.nil_append]

/-- **Middlewares are nested**, and leave the context of the task as it was. -/
theorem invoke_nested (handler : Handler P W V X) (ms : List (Middleware P W V)) (scope : Scope)
    (t : Task P W) :
    Nested ms.length (invoke handler ms scope t []).2.2 ∧
      (invoke handler ms scope t []).2.1.current = t.current := by
  refine ⟨?_, rfl⟩
  have hdispatch : ∃ segment, Nested ms.length segment ∧
      (invoke handler ms scope t []).2.2 = [] ++ segment :=
    dispatch_nested ms scope
      ((t.describe scope.context scope.path scope.operation).push scope.context) [] rfl
  obtain ⟨segment, hnested, hlog⟩ := hdispatch
  rw [hlog]
  exact hnested

/-- What a handler does in each of its calls, it does in a stack. -/
theorem did_dispatch {G : List X → Prop} (hnil : G [])
    (h : ∀ scope t before, G (handler scope t before).2.2) (ms : List (Middleware P W V))
    (scope : Scope) (t : Task P W) (log : List (Event P V X)) :
    ∃ segment, (∀ event ∈ segment, G event.did) ∧
      (dispatch handler ms scope t log).2.2 = log ++ segment := by
  induction ms generalizing scope t log with
  | nil =>
    refine ⟨_, ?_, rfl⟩
    rw [List.forall_mem_singleton]
    exact h scope _ (did log)
  | cons m ms ih =>
    obtain ⟨calls, hcalls, hrun⟩ := Program.run_segments
      (fun (next : Scope) (t : Task P W) log =>
        ((dispatch handler ms next (t.push next.context) log).1,
          (dispatch handler ms next (t.push next.context) log).2.1.pop t.current,
          (dispatch handler ms next (t.push next.context) log).2.2))
      (P := fun segment => ∀ event ∈ segment, G event.did)
        (fun next t log => ih next (t.push next.context) log) (m scope)
      (t.describe scope.context scope.path scope.operation) (log ++ [.entered ms.length scope])
    refine ⟨.entered ms.length scope :: (calls.flatten ++ [.left ms.length]), ?_, ?_⟩
    · intro event hevent
      simp only [List.mem_cons, List.mem_append, List.mem_flatten, List.not_mem_nil,
        or_false] at hevent
      rcases hevent with rfl | ⟨call, hcall, hevent⟩ | rfl
      · exact hnil
      · exact hcalls call hcall event hevent
      · exact hnil
    · show (Program.run _ (m scope) _ _).2.2 ++ [Event.left ms.length] = _
      rw [hrun]
      simp only [List.append_assoc, List.cons_append, List.nil_append]

/-! ### Middlewares that pass the request on -/

/-- The scope and the end of a call of the handler. -/
def Event.call : Event P V X → Option (Scope × Except Thrown V)
  | handled scope _ _ result _ => some (scope, result)
  | _ => none

/-- The calls of the handler. -/
def calls (log : List (Event P V X)) : List (Scope × Except Thrown V) := log.filterMap Event.call

/-- **Middlewares that pass the request on** make of a stack what its handler is, or refuse. -/
theorem calls_dispatch {Refusal : Except Thrown V → Prop} {ms : List (Middleware P W V)}
    (h : ∀ m ∈ ms, ∀ scope, (m scope).Passes Refusal scope) (scope : Scope) (t : Task P W)
    (log : List (Event P V X)) :
    calls (dispatch handler ms scope t log).2.2 =
        calls log ++ [(scope, (dispatch handler ms scope t log).1)] ∨
      Refusal (dispatch handler ms scope t log).1 ∧
        calls (dispatch handler ms scope t log).2.2 = calls log := by
  induction ms generalizing t log with
  | nil => exact .inl List.filterMap_append
  | cons m ms ih =>
    -- that a middleware is entered or left is no call
    have hentered : calls (log ++ [.entered ms.length scope]) = calls log := by
      simp [calls, Event.call]
    have hleft : ∀ l : List (Event P V X), calls (l ++ [.left ms.length]) = calls l := by
      simp [calls, Event.call]
    rcases Program.run_of_passes
      (fun (next : Scope) (t : Task P W) log =>
        ((dispatch handler ms next (t.push next.context) log).1,
          (dispatch handler ms next (t.push next.context) log).2.1.pop t.current,
          (dispatch handler ms next (t.push next.context) log).2.2))
      (h m List.mem_cons_self scope)
      (t.describe scope.context scope.path scope.operation) (log ++ [.entered ms.length scope])
      with ⟨t', hresult, hlog⟩ | ⟨hrefusal, hlog⟩
    · have hlater := ih (fun m hm => h m (List.mem_cons_of_mem _ hm)) (t'.push scope.context)
        (log ++ [.entered ms.length scope])
      rw [hentered] at hlater
      simp only [dispatch, hleft]
      rw [hresult, hlog]
      exact hlater
    · refine .inr ⟨hrefusal, ?_⟩
      simp only [dispatch, hleft]
      rw [hlog, hentered]

end MiddlewareStack

/-! ### The middlewares of the package -/

open MiddlewareStack

variable {P W V X : Type}

/-- The middlewares of the package; `limited` says whether rate limiters are among them. -/
inductive Packaged [PyText] (limited : Prop) : Middleware P W V → Prop
  | logging (info : LogRecord → W → W) : Packaged limited (loggingMiddleware info)
  | correlationId (uuid : Task P W → ℕ) : Packaged limited (correlationIdMiddleware uuid)
  | tracing (inject : Option (Scope → Task P W → Option String)) :
      Packaged limited (tracingMiddleware inject)
  | prometheus (collect : MetricCall → W → W) (duration : Task P W → PyFloat) :
      Packaged limited (prometheusMiddleware collect duration)
  | rateLimit {M : Type} (m : RateLimitMiddleware M) (seen : Scope → Task P W → TimedRequest M)
      (buckets : W → Buckets) (keep : Buckets → W → W) (details : RateLimitError → PyValue) :
      limited → Packaged limited (rateLimitMiddleware m seen buckets keep details)

/-- What a rate limiter raises. -/
def Limited (limited : Prop) (result : Except Thrown V) : Prop :=
  limited ∧ ∃ e details, result = .error (.exception (.rateLimit e details))

theorem passes_ask {S Q A : Type} {Refusal : A → Prop} (q : Q) :
    (Program.ask (S := S) q .done).Passes Refusal q :=
  .ask fun _ => .done

/-- **The middlewares of the package pass the request on**, but for a rate limiter that refuses. -/
theorem Packaged.passes [PyText] {limited : Prop} {m : Middleware P W V}
    (h : Packaged limited m) (scope : Scope) : (m scope).Passes (Limited limited) scope := by
  cases h with
  | logging info =>
    refine .look fun t => .put (.ask fun result => ?_)
    rcases result with (e | -) | v
    · exact .look fun t => .put .done
    · exact .done
    · exact .look fun t => .put .done
  | correlationId uuid =>
    refine .look fun t => ?_
    dsimp only
    split_ifs
    · exact .put (passes_ask scope)
    · exact passes_ask scope
  | tracing inject =>
    cases inject with
    | none => exact passes_ask scope
    | some inject =>
      refine .look fun t => ?_
      cases inject scope t with
      | none => exact passes_ask scope
      | some tp => exact .put (passes_ask scope)
  | prometheus collect duration =>
    exact .look fun t => .put (.ask fun result => .look fun t => .put .done)
  | rateLimit m seen buckets keep details hlimited =>
    refine .look fun t => ?_
    rcases m.call (buckets t.world) (seen scope t) with ⟨after, e | -⟩
    · exact .put (.done ⟨hlimited, e, details e, rfl⟩)
    · exact .put (passes_ask scope)

/-- **The middlewares of the package** call the handler once and end as it ends; only a rate limiter
may refuse, and then it is not called. -/
theorem packaged_stack [PyText] {limited : Prop} {ms : List (Middleware P W V)}
    (h : ∀ m ∈ ms, Packaged limited m) (handler : Handler P W V X) (scope : Scope) (t : Task P W) :
    calls (invoke handler ms scope t []).2.2 = [(scope, (invoke handler ms scope t []).1)] ∨
      Limited limited (invoke handler ms scope t []).1 ∧
        calls (invoke handler ms scope t []).2.2 = [] :=
  calls_dispatch (fun m hm => (h m hm).passes) scope
    ((t.describe scope.context scope.path scope.operation).push scope.context) []

/-- Two of them, around a handler that returns. -/
theorem packaged_stack_two :
    let ms : List (Middleware String (List LogRecord) ℕ) :=
      [loggingMiddleware (fun record records => records ++ [record]),
        correlationIdMiddleware fun t => t.world.length]
    let scope : Scope := ⟨"robot/move", "handle", [], 0⟩
    let t : Task String (List LogRecord) := ⟨[RequestContext.fresh 7], none, []⟩
    let r := invoke (fun _ t _ => (.ok 1, t, [()])) ms scope t []
    calls r.2.2 = [(scope, r.1)] := by
  intro ms scope t r
  let _ := PyText.plain
  have hpackaged : ∀ m ∈ ms, Packaged False m := by
    simp only [ms, List.mem_cons, List.not_mem_nil, or_false, forall_eq_or_imp, forall_eq]
    exact ⟨.logging _, .correlationId _⟩
  exact (packaged_stack hpackaged (fun _ t _ => (.ok 1, t, [()])) scope t).resolve_right
    fun hlimited => hlimited.1.1

end Istos
