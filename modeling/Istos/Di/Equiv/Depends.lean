import Istos.Di.Runs
import Mathlib.Data.Fintype.Defs
import Mathlib.Data.Set.Finite.Basic

/-!
# Dependency injection

On every finite graph of dependencies, and whatever the callables do, a call is injected as it
should be (`Correct`) just when the dependencies have a cycle or no original clashes
(`correct_iff`): a callable on the way is overridden, it is there as the override of another, and it
is named, before the override, by a callable that the walk comes to from it.
-/

namespace Istos

open Contextlib Relation

variable {F H W O E : Type}

/-! ### What is seen -/

namespace InjectEvent

/-- The dependency that was entered. -/
def entered? : InjectEvent F W O E → Option (Entered F)
  | entered e => some e
  | _ => none

/-- Whether the dependency was executed. -/
def executes [DecidableEq F] (f : F) : InjectEvent F W O E → Bool
  | executed f' _ _ => decide (f' = f)
  | _ => false

/-- Whether it happens while the dependencies are resolved. -/
def resolves : InjectEvent F W O E → Bool
  | executed _ _ _ => true
  | entered _ => true
  | _ => false

end InjectEvent

/-- The `yield` dependencies that were entered, the first one first. -/
def entries (log : List (InjectEvent F W O E)) : List (Entered F) :=
  log.filterMap InjectEvent.entered?

/-- How often a dependency was executed. -/
def executions [DecidableEq F] (f : F) (log : List (InjectEvent F W O E)) : ℕ :=
  log.countP (InjectEvent.executes f)

/-- Callables that do nothing. -/
def Bodies.quiet [Inhabited O] : Bodies F W O E where
  run _ _ _ := .ok default
  next _ _ := .returned
  throw _ _ _ := none

namespace DependencyGraph

/-- The keywords have for the parameters what their dependencies returned before. -/
def Supplied (g : DependencyGraph F H O) (past : List (InjectEvent F W O E))
    (ps : List (Param F O)) (kwargs : Kwargs F W O) : Prop :=
  ∀ p ∈ ps, ∀ d, p.Filled d → ∃ sub o,
    kwargs.lookup p.name = some (.resolved (g.override d.dependency) o) ∧
      .executed (g.override d.dependency) sub (.ok o) ∈ past

/-- Every parameter of a callable reached that names `f` has `use_cache=True`. -/
def OnlyCached (g : DependencyGraph F H O) (handler f : F) : Prop :=
  ∀ u, ReflTransGen (Arc.Edge g.arcs) handler u → ∀ a ∈ g.arcs u, a.target = f → a.shared = true

/-- An exception of the application ended the resolution: a dependency raised, or the context lacks
a parameter. -/
def Interrupted (context : Kwargs F W O) (r : Except (CallFault F E) (Kwargs F W O))
    (log : List (InjectEvent F W O E)) : Prop :=
  (∃ f kwargs e, r = .error (.raised e) ∧ .executed f kwargs (.error e) ∈ log) ∨
    ∃ name f, r = .error (.required name f) ∧ context.lookup name = none

variable [DecidableEq F]

/-- What is asked of the resolution for a handler, and of its call. -/
structure Injects (g : DependencyGraph F H O) (context : Kwargs F W O) (handler : F)
    (r : Except (CallFault F E) (Kwargs F W O)) (log : List (InjectEvent F W O E)) :
    Prop where
  /-- a `DependencyCycleError` is raised for a cycle only -/
  cycle : ∀ chain, r = .error (.cycle chain) → Arc.Cyclic g.arcs handler
  /-- a cycle raises it -/
  cyclic : Arc.Cyclic g.arcs handler →
    (∃ chain, r = .error (.cycle chain)) ∨ Interrupted context r log
  /-- without a cycle all is resolved -/
  acyclic : ¬ Arc.Cyclic g.arcs handler → (∃ kwargs, r = .ok kwargs) ∨ Interrupted context r log
  /-- a dependency that is only cached is executed once -/
  once : ∀ kwargs, r = .ok kwargs → ∀ f, TransGen (Arc.Edge g.arcs) handler f →
    g.OnlyCached handler f → executions f log = 1
  /-- a dependency is executed after its own -/
  after : ∀ past f kwargs result later, log = past ++ .executed f kwargs result :: later →
    ∀ f', Arc.Edge g.arcs f f' → ∃ sub o, .executed f' sub (.ok o) ∈ past
  /-- all parameters that name a dependency that is only cached get one value -/
  same : ∀ kwargs, r = .ok kwargs → ∀ f, TransGen (Arc.Edge g.arcs) handler f →
    g.OnlyCached handler f → ∃ o, ∀ u kwargs result, .executed u kwargs result ∈ log ∨
    .called u kwargs result ∈ log → ∀ p ∈ (g.signature u).params, ∀ d, p.Filled d →
      g.override d.dependency = f →
      kwargs.lookup p.name = some (.resolved f o)
  /-- a handler that is resolved is called, and what was entered is closed in reverse -/
  closed : ∃ past, log = past ++ (entries past).reverse.map .closed ∧ (entries past).Nodup ∧
    (∀ e, .closed e ∉ past) ∧
      ∀ kwargs, r = .ok kwargs → ∃ result, .called handler kwargs result ∈ past

/-- With enough of the recursion limit left a resolution ends, and it is as it should be. -/
def Correct (g : DependencyGraph F H O) (b : Bodies F W O E) (context : Kwargs F W O)
    (handler : F) : Prop :=
  ∃ r log, (∃ limit, ∀ n ≥ limit,
    (g.resolveDependencies b context n [] handler [] .empty).1 = r ∧
      (g.injectAndRun b context n handler).2 = log) ∧
    r ≠ .error .recursion ∧ g.Injects context handler r log

/-! ### Leaving the exit stack -/

omit [DecidableEq F] in
/-- In a worker thread a generator is left as it is on the loop. -/
theorem syncCmInThread_exit {X L : Type} (gen : Suspended X L) :
    (syncCmInThread gen.exit).exit = gen.exit := by
  funext exc l
  cases exc with
  | none =>
    rcases hnext : gen.next l with ⟨_ | x, l'⟩ <;>
      simp only [Suspended.exit, syncCmInThread, hnext]
  | some x =>
    rcases hthrow : gen.throw x l with ⟨_ | _ | y, l'⟩ <;>
      simp only [Suspended.exit, syncCmInThread, hthrow]

omit [DecidableEq F] in
theorem suspended_exit_snd (b : Bodies F W O E) (e : Entered F) (exc : Option (CallFault F E))
    (log : List (InjectEvent F W O E)) :
    ((b.suspended e).exit exc log).2 = log ++ [.closed e] := by
  cases exc with
  | none =>
    cases hnext : b.next e log <;> simp only [Suspended.exit, Bodies.suspended, hnext]
  | some x =>
    rcases hthrow : b.throw e x log with _ | _ | y <;>
      simp only [Suspended.exit, Bodies.suspended, hthrow]

variable {g : DependencyGraph F H O} {b : Bodies F W O E} {context : Kwargs F W O}

omit [DecidableEq F] in
theorem exit_snd (e : Entered F) (exc : Option (CallFault F E)) (log : List (InjectEvent F W O E)) :
    (g.exit b e exc log).2 = log ++ [.closed e] := by
  unfold exit
  cases g.kind e.func with
  | generator =>
    have hsame := congrFun₂ (syncCmInThread_exit (b.suspended e)) exc log
    exact (congrArg Prod.snd hsame).trans (suspended_exit_snd b e exc log)
  | plain => exact suspended_exit_snd b e exc log
  | coroutine => exact suspended_exit_snd b e exc log
  | asyncGenerator => exact suspended_exit_snd b e exc log

omit [DecidableEq F] in
theorem leave_snd (stack : List (Entered F)) (result : Except (CallFault F E) O)
    (log : List (InjectEvent F W O E)) :
    (injectAndRun.leave g b stack result log).2 = log ++ stack.map .closed := by
  have hunwind := unwind_snd (fun c exc l => g.exit_snd (b := b) c exc l) stack
  cases result with
  | ok o =>
    rw [← hunwind none log, injectAndRun.leave]
    split <;> simp only [*]
  | error x =>
    rw [← hunwind (some x) log, injectAndRun.leave]
    split <;> simp only [*]

/-- The call of the handler, where a resolution comes to one. -/
def calls (b : Bodies F W O E) (handler : F) (past : List (InjectEvent F W O E)) :
    Except (CallFault F E) (Kwargs F W O) → List (InjectEvent F W O E)
  | .error _ => []
  | .ok kwargs => [.called handler kwargs (b.run handler kwargs past)]

/-- What happens after a resolution. -/
def ending (b : Bodies F W O E) (handler : F) (r : Except (CallFault F E) (Kwargs F W O))
    (s : Injecting F W O E) : List (InjectEvent F W O E) :=
  calls b handler s.log r ++ s.stack.map .closed

theorem injectAndRun_snd (n : ℕ) (handler : F) : (g.injectAndRun b context n handler).2 =
    (g.resolveDependencies b context n [] handler [] .empty).2.log ++
      ending b handler (g.resolveDependencies b context n [] handler [] .empty).1
        (g.resolveDependencies b context n [] handler [] .empty).2 := by
  unfold injectAndRun ending calls
  rcases g.resolveDependencies b context n [] handler [] .empty with ⟨x | kwargs, s⟩
  · exact leave_snd _ _ _
  · exact (leave_snd _ _ _).trans (List.append_assoc _ _ _)

/-! ### What a resolution leaves behind -/

/-- The log of a resolution, and what the cache and the exit stack have of it. -/
structure Traced (g : DependencyGraph F H O) (s : Injecting F W O E) : Prop where
  supplied : ∀ past f kwargs result later, s.log = past ++ .executed f kwargs result :: later →
    g.Supplied past (g.signature f).params kwargs
  cached : ∀ f o, s.cache.lookup f = some o → ∃ sub, .executed f sub (.ok o) ∈ s.log
  stack : s.stack = (entries s.log).reverse
  places : ∀ e ∈ entries s.log, e.place < s.log.length
  nodup : (entries s.log).Nodup
  resolves : ∀ event ∈ s.log, event.resolves = true

variable {s s' : Injecting F W O E} {past later : List (InjectEvent F W O E)}
  {ps : List (Param F O)} {kwargs sub : Kwargs F W O} {f : F} {d : Depends F}

omit [DecidableEq F] in
theorem Supplied.mono (h : g.Supplied past ps kwargs) (hpast : past ⊆ later) :
    g.Supplied later ps kwargs := by
  intro p hp d hd
  obtain ⟨sub, o, hlookup, hmem⟩ := h p hp d hd
  exact ⟨sub, o, hlookup, hpast hmem⟩

omit [DecidableEq F] in
theorem entries_executed {result : Except E O} :
    entries (past ++ [.executed f kwargs result]) = entries past := by
  rw [entries, List.filterMap_append]
  exact List.append_nil _

omit [DecidableEq F] in
theorem entries_entered {e : Entered F} : entries (past ++ [.entered e]) = entries past ++ [e] := by
  rw [entries, List.filterMap_append]
  rfl

omit [DecidableEq F] in
/-- An event of a longer log was there, or is the last one. -/
theorem cut_concat {event last : InjectEvent F W O E} {log : List (InjectEvent F W O E)}
    (h : log ++ [last] = past ++ event :: later) :
    (log = past ∧ last = event) ∨ ∃ later', log = past ++ event :: later' := by
  rcases later.eq_nil_or_concat' with rfl | ⟨later, other, rfl⟩
  · obtain ⟨hlog, hlast⟩ := List.append_inj' h rfl
    exact .inl ⟨hlog, List.head_eq_of_cons_eq hlast⟩
  · rw [← List.cons_append, ← List.append_assoc] at h
    obtain ⟨hlog, -⟩ := List.append_inj' h rfl
    exact .inr ⟨later, hlog⟩

theorem traced_empty : g.Traced (.empty : Injecting F W O E) where
  supplied := by
    intro past f kwargs result later h
    exact absurd h.symm (List.append_ne_nil_of_right_ne_nil _ (List.cons_ne_nil _ _))
  cached := by
    intro f o h
    cases h
  stack := rfl
  places := List.forall_mem_nil _
  nodup := List.nodup_nil
  resolves := List.forall_mem_nil _

theorem Traced.ran (h : g.Traced s) {result : Except E O}
    (hsub : g.Supplied s.log (g.signature f).params sub) : g.Traced (ran s f sub result) where
  supplied := by
    intro past f' kwargs result' later hlog
    rcases cut_concat hlog with ⟨rfl, hevent⟩ | ⟨later', hlog⟩
    · obtain ⟨rfl, rfl, rfl⟩ := InjectEvent.executed.inj hevent
      exact hsub
    · exact h.supplied _ _ _ _ _ hlog
  cached := by
    intro f' o hlookup
    obtain ⟨sub', hmem⟩ := h.cached f' o hlookup
    exact ⟨sub', List.mem_append_left _ hmem⟩
  stack := h.stack.trans (congrArg List.reverse entries_executed.symm)
  places := by
    intro e he
    rw [DependencyGraph.ran, entries_executed] at he
    have hplace := h.places e he
    rw [DependencyGraph.ran, List.length_append]
    omega
  nodup := by
    rw [DependencyGraph.ran, entries_executed]
    exact h.nodup
  resolves := List.forall_mem_append.mpr ⟨h.resolves, List.forall_mem_singleton.mpr rfl⟩

theorem Traced.enter (h : g.Traced s) : g.Traced (s.enter f) where
  supplied := by
    intro past f' kwargs result later hlog
    rcases cut_concat hlog with ⟨-, hevent⟩ | ⟨later', hlog⟩
    · cases hevent
    · exact h.supplied _ _ _ _ _ hlog
  cached := by
    intro f' o hlookup
    obtain ⟨sub', hmem⟩ := h.cached f' o hlookup
    exact ⟨sub', List.mem_append_left _ hmem⟩
  stack := by
    rw [Injecting.enter, entries_entered, List.reverse_append, h.stack]
    rfl
  places := by
    intro e he
    rw [Injecting.enter, entries_entered] at he
    rw [Injecting.enter, List.length_append, List.length_singleton]
    rcases List.mem_append.mp he with hold | hnew
    · exact Nat.lt_succ_of_lt (h.places e hold)
    · rw [List.mem_singleton.mp hnew]
      exact Nat.lt_succ_self _
  nodup := by
    rw [Injecting.enter, entries_entered, ← List.concat_eq_append]
    -- the place of a new entry is not that of an old one
    exact h.nodup.concat fun hmem => Nat.lt_irrefl _ (h.places _ hmem)
  resolves := List.forall_mem_append.mpr ⟨h.resolves, List.forall_mem_singleton.mpr rfl⟩

theorem Traced.cache (h : g.Traced s) {o : O}
    (hmem : .executed (g.override d.dependency) sub (.ok o) ∈ s.log) :
    g.Traced (g.cached d o s) := by
  unfold DependencyGraph.cached
  split_ifs with hcache
  · refine ⟨h.supplied, ?_, h.stack, h.places, h.nodup, h.resolves⟩
    intro f o' hlookup
    rw [Injecting.store, Assoc.lookup_set] at hlookup
    split_ifs at hlookup with hf
    · obtain rfl := Option.some.inj hlookup
      rw [hf]
      exact ⟨sub, hmem⟩
    · exact h.cached f o' hlookup
  · exact h

theorem log_cached {o : O} : (g.cached d o s).log = s.log := by
  unfold DependencyGraph.cached
  split_ifs <;> rfl

/-- What a call of a dependency leaves behind. -/
theorem Traced.execute (h : g.Traced s) {r : Except (CallFault F E) O}
    (hsub : g.Supplied s.log (g.signature f).params sub) (hr : g.execute b f sub s = (r, s')) :
    g.Traced s' ∧ s.log ⊆ s'.log ∧ (∀ o, r = .ok o → .executed f sub (.ok o) ∈ s'.log) := by
  rcases g.execute_cases b f sub s with ⟨e, -, he⟩ | ⟨o, -, ho⟩
  · rw [he] at hr
    obtain ⟨rfl, rfl⟩ := Prod.mk.inj hr
    exact ⟨h.ran hsub, List.subset_append_left _ _, fun o ho => nomatch ho⟩
  · rw [ho] at hr
    obtain ⟨rfl, rfl⟩ := Prod.mk.inj hr
    have hran : g.Traced (DependencyGraph.ran s f sub (.ok o)) := h.ran hsub
    have hmem : .executed f sub (.ok o) ∈ (DependencyGraph.ran s f sub (.ok o)).log :=
      List.mem_append_right _ List.mem_cons_self
    split_ifs with hyields
    · refine ⟨hran.enter, fun event h => List.mem_append_left _ (List.mem_append_left _ h), ?_⟩
      rintro o' ⟨⟩
      exact List.mem_append_left _ hmem
    · refine ⟨hran, List.subset_append_left _ _, ?_⟩
      rintro o' ⟨⟩
      exact hmem

variable {passed : List (Param F O)} {p : Param F O}

omit [DecidableEq F] in
/-- The arguments for the parameters passed stay where another one is set. -/
theorem Supplied.concat {kwargs' : Kwargs F W O} (h : g.Supplied past passed kwargs)
    (hnew : p.name ∉ passed.map Param.name)
    (hkeep : ∀ k v, k ≠ p.name → kwargs.lookup k = some v → kwargs'.lookup k = some v)
    (hp : ∀ d, p.Filled d → ∃ sub o,
      kwargs'.lookup p.name = some (.resolved (g.override d.dependency) o) ∧
        .executed (g.override d.dependency) sub (.ok o) ∈ past) :
    g.Supplied past (passed ++ [p]) kwargs' := by
  intro q hq d hd
  rcases List.mem_append.mp hq with hold | hlast
  · obtain ⟨sub, o, hlookup, hmem⟩ := h q hold d hd
    refine ⟨sub, o, hkeep _ _ (fun hname => hnew ?_) hlookup, hmem⟩
    exact hname ▸ List.mem_map_of_mem hold
  · obtain rfl := List.mem_singleton.mp hlast
    exact hp d hd

omit [DecidableEq F] in
theorem Supplied.plain {kwargs' : Kwargs F W O} {func : F} (h : g.Supplied past passed kwargs)
    (hnew : p.name ∉ passed.map Param.name) (hplain : ∀ d, ¬ p.Filled d)
    (hkwargs : (p.plain context func kwargs : Except (CallFault F E) _) = .ok kwargs') :
    g.Supplied past (passed ++ [p]) kwargs' := by
  refine h.concat hnew ?_ fun d hd => absurd hd (hplain d)
  intro k v hk hv
  rcases Param.plain_cases (E := E) hplain context func kwargs with
    hx | ⟨w, hx⟩ | ⟨more, hx⟩ | ⟨-, hx⟩
  · rw [hx] at hkwargs
    rwa [← Except.ok.inj hkwargs]
  · rw [hx] at hkwargs
    rw [← Except.ok.inj hkwargs, Assoc.lookup_set, if_neg hk]
    exact hv
  · rw [hx] at hkwargs
    rw [← Except.ok.inj hkwargs, List.lookup_append, hv]
    rfl
  · rw [hx] at hkwargs
    cases hkwargs

omit [DecidableEq F] in
theorem Supplied.set {o : O} (h : g.Supplied past passed kwargs)
    (hnew : p.name ∉ passed.map Param.name) (hfilled : p.Filled d)
    (hmem : .executed (g.override d.dependency) sub (.ok o) ∈ past) :
    g.Supplied past (passed ++ [p])
      (Assoc.set kwargs p.name (.resolved (g.override d.dependency) o)) := by
  refine h.concat hnew ?_ ?_
  · intro k v hk hv
    rw [Assoc.lookup_set, if_neg hk]
    exact hv
  · intro d' hd'
    obtain rfl : d = d' := Option.some.inj (hfilled.1.symm.trans hd'.1)
    exact ⟨sub, o, by rw [Assoc.lookup_set, if_pos rfl], hmem⟩

/-- **What a resolution leaves behind.** -/
theorem Runs.traced {n : ℕ} {func : F} {chain : List F} {r : Except (CallFault F E) (Kwargs F W O)}
    (h : Runs g b context n func chain ps kwargs s r s') :
    ∀ passed, ((passed ++ ps).map Param.name).Nodup → g.Traced s →
      g.Supplied s.log passed kwargs → g.Traced s' ∧ s.log ⊆ s'.log ∧
        ∀ kwargs', r = .ok kwargs' → g.Supplied s'.log (passed ++ ps) kwargs' := by
  have hfresh : ∀ {passed ps : List (Param F O)} {p : Param F O},
      ((passed ++ p :: ps).map Param.name).Nodup → p.name ∉ passed.map Param.name := by
    intro passed ps p hnodup hmem
    rw [List.map_append, List.nodup_append] at hnodup
    exact hnodup.2.2 _ hmem _ (List.mem_map_of_mem List.mem_cons_self) rfl
  induction h with
  | nil =>
    intro passed hnodup htraced hsupplied
    rw [List.append_nil]
    refine ⟨htraced, List.Subset.refl _, ?_⟩
    rintro kwargs' ⟨⟩
    exact hsupplied
  | plain hplain hkwargs hrest ih =>
    intro passed hnodup htraced hsupplied
    have hnew := hfresh hnodup
    rw [List.append_cons] at hnodup ⊢
    exact ih _ hnodup htraced (hsupplied.plain hnew hplain hkwargs)
  | required hplain hx =>
    exact fun _ _ htraced _ => ⟨htraced, List.Subset.refl _, fun _ h => nomatch h⟩
  | cycle hfilled hway =>
    exact fun _ _ htraced _ => ⟨htraced, List.Subset.refl _, fun _ h => nomatch h⟩
  | @hit n func chain p ps d o kwargs s r s' hfilled hway hcache hrest ih =>
    intro passed hnodup htraced hsupplied
    obtain ⟨sub, hmem⟩ := htraced.cached _ _ hcache.2
    have hnew := hfresh hnodup
    rw [List.append_cons] at hnodup ⊢
    exact ih _ hnodup htraced (hsupplied.set hnew hfilled hmem)
  | limit hfilled hway hcache =>
    exact fun _ _ htraced _ => ⟨htraced, List.Subset.refl _, fun _ h => nomatch h⟩
  | @failed n func chain p ps d kwargs s x s' hfilled hway hcache hsub ih =>
    intro passed hnodup htraced hsupplied
    obtain ⟨htraced', hlog, -⟩ := ih [] (g.signature _).nodup htraced fun p hp => absurd hp
      List.not_mem_nil
    exact ⟨htraced', hlog, fun _ h => nomatch h⟩
  | @raised n func chain p ps d kwargs s sub s₁ x s' hfilled hway hcache hsub hx ih =>
    intro passed hnodup htraced hsupplied
    obtain ⟨htraced₁, hlog₁, hsub⟩ := ih [] (g.signature _).nodup htraced fun p hp => absurd hp
      List.not_mem_nil
    obtain ⟨htraced', hlog', -⟩ := htraced₁.execute (hsub sub rfl) hx
    exact ⟨htraced', List.Subset.trans hlog₁ hlog', fun _ h => nomatch h⟩
  | @executed n func chain p ps d kwargs s sub s₁ o s₂ r s' hfilled hway hcache hsub ho hrest ihsub
      ihrest =>
    intro passed hnodup htraced hsupplied
    obtain ⟨htraced₁, hlog₁, hsub⟩ := ihsub [] (g.signature _).nodup htraced fun p hp => absurd hp
      List.not_mem_nil
    obtain ⟨htraced₂, hlog₂, hmem⟩ := htraced₁.execute (hsub sub rfl) ho
    have hmem := hmem o rfl
    have hnew := hfresh hnodup
    have hlog : (g.cached d o s₂).log = s₂.log := log_cached
    rw [List.append_cons] at hnodup ⊢
    have hpast : s.log ⊆ s₂.log := List.Subset.trans hlog₁ hlog₂
    have hsupplied₂ := (hsupplied.mono hpast).set hnew hfilled hmem
    rw [← hlog] at hsupplied₂ hpast
    obtain ⟨htraced', hlog', hsupplied'⟩ := ihrest _ hnodup (htraced₂.cache hmem) hsupplied₂
    exact ⟨htraced', List.Subset.trans hpast hlog', hsupplied'⟩

/-! ### How often -/

/-- What a call adds to the executions of `f`. -/
theorem executions_execute {f' : F} {r : Except (CallFault F E) O}
    (hr : g.execute b f' sub s = (r, s')) :
    executions f s'.log = executions f s.log + if f' = f then 1 else 0 := by
  have hran : ∀ result : Except E O, executions f (ran s f' sub result).log =
      executions f s.log + if f' = f then 1 else 0 := by
    intro result
    unfold executions DependencyGraph.ran
    rw [List.countP_append, List.countP_singleton]
    simp only [InjectEvent.executes, decide_eq_true_eq]
  rcases g.execute_cases b f' sub s with ⟨e, -, he⟩ | ⟨o, -, ho⟩
  · rw [he] at hr
    obtain ⟨-, rfl⟩ := Prod.mk.inj hr
    exact hran _
  · rw [ho] at hr
    obtain ⟨-, rfl⟩ := Prod.mk.inj hr
    by_cases hyields : (g.kind f').yields = true
    · rw [if_pos hyields, ← hran (.ok o)]
      unfold executions Injecting.enter
      rw [List.countP_append]
      rfl
    · rw [if_neg hyields]
      exact hran _

/-- What is on the way is not executed. -/
theorem Runs.executions_eq {n : ℕ} {func : F} {chain : List F}
    {r : Except (CallFault F E) (Kwargs F W O)}
    (h : Runs g b context n func chain ps kwargs s r s') :
    f ∈ chain → executions f s'.log = executions f s.log := by
  induction h with
  | nil => exact fun _ => rfl
  | plain hplain hkwargs hrest ih => exact ih
  | required hplain hx => exact fun _ => rfl
  | cycle hfilled hway => exact fun _ => rfl
  | hit hfilled hway hcache hrest ih => exact ih
  | limit hfilled hway hcache => exact fun _ => rfl
  | failed hfilled hway hcache hsub ih => exact fun hf => ih (List.mem_append_left _ hf)
  | raised hfilled hway hcache hsub hx ih =>
    intro hf
    rw [executions_execute hx, if_neg (ne_of_mem_of_not_mem hf fun h => hway (.inr h)).symm,
      ih (List.mem_append_left _ hf)]
    rfl
  | @executed n func chain p ps d kwargs s sub s₁ o s₂ r s' hfilled hway hcache hsub ho hrest ihsub
      ihrest =>
    intro hf
    rw [ihrest hf, log_cached, executions_execute ho,
      if_neg (ne_of_mem_of_not_mem hf fun h => hway (.inr h)).symm,
      ihsub (List.mem_append_left _ hf)]
    rfl

/-- A dependency was executed just when its value is in the cache, and then once. -/
def Counted (f : F) (s : Injecting F W O E) : Prop :=
  (f ∈ keys s → executions f s.log = 1) ∧ (f ∉ keys s → executions f s.log = 0)

theorem counted_empty : Counted f (.empty : Injecting F W O E) :=
  ⟨fun ⟨_, ho⟩ => (nomatch ho), fun _ => rfl⟩

/-- **A dependency that is only cached** is executed where it is not in the cache. -/
theorem Runs.counted {n : ℕ} {func : F} {chain : List F} {r : Except (CallFault F E) (Kwargs F W O)}
    (h : Runs g b context n func chain ps kwargs s r s') :
    (∀ a ∈ g.arcsOf ps, (a.target = f → a.shared = true) ∧ g.OnlyCached a.target f) →
      Counted f s → ∀ kwargs', r = .ok kwargs' → Counted f s' := by
  induction h with
  | nil => exact fun _ hcounted _ _ => hcounted
  | plain hplain hkwargs hrest ih =>
    rw [arcsOf_cons_plain hplain]
    exact ih
  | required hplain hx => exact fun _ _ _ h => nomatch h
  | cycle hfilled hway => exact fun _ _ _ h => nomatch h
  | hit hfilled hway hcache hrest ih =>
    rw [arcsOf_cons_filled hfilled]
    exact fun harcs => ih fun a ha => harcs a (List.mem_cons_of_mem _ ha)
  | limit hfilled hway hcache => exact fun _ _ _ h => nomatch h
  | failed hfilled hway hcache hsub ih => exact fun _ _ _ h => nomatch h
  | raised hfilled hway hcache hsub hx ih => exact fun _ _ _ h => nomatch h
  | @executed n func chain p ps d kwargs s sub s₁ o s₂ r s' hfilled hway hcache hsub ho hrest ihsub
      ihrest =>
    rw [arcsOf_cons_filled hfilled]
    intro harcs hcounted
    obtain ⟨hshared, honly⟩ := harcs _ List.mem_cons_self
    refine ihrest (fun a ha => harcs a (List.mem_cons_of_mem _ ha)) ?_
    have hcache₂ : s₂.cache = s₁.cache := by
      have hcache₁ := g.execute_cache b (g.override d.dependency) sub s₁
      rwa [ho] at hcache₁
    have hkeys : keys (g.cached d o s₂) = Arc.share (keys s₁) (g.arc d) := by
      rw [keys_cached, keys, keys, hcache₂]
    unfold Counted
    rw [hkeys, log_cached, executions_execute ho]
    by_cases hf : g.override d.dependency = f
    · -- executed now for the first time, and in the cache from now on
      have huseCache : d.useCache = true := hshared hf
      have hnone : f ∉ keys s := by
        rintro ⟨o', ho'⟩
        exact hcache o' ⟨huseCache, hf ▸ ho'⟩
      rw [if_pos hf, hsub.executions_eq (List.mem_append_right _ (hf ▸ List.mem_cons_self)),
        hcounted.2 hnone]
      exact ⟨fun _ => rfl, fun hno => absurd (.inr ⟨huseCache, hf⟩) hno⟩
    · have hsub' : Counted f s₁ := by
        refine ihsub (fun a ha => ?_) hcounted sub rfl
        have hedge : Arc.Edge g.arcs (g.override d.dependency) a.target := ⟨a, ha, rfl⟩
        exact ⟨honly _ .refl a ha, fun u hu => honly u (.head hedge hu)⟩
      rw [if_neg hf, Nat.add_zero]
      have hiff : f ∈ Arc.share (keys s₁) (g.arc d) ↔ f ∈ keys s₁ :=
        or_iff_left fun h => hf h.2
      rw [hiff]
      exact hsub'

/-! ### How a resolution ends -/

/-- What a resolution raises. -/
theorem Runs.outcome {n : ℕ} {func : F} {chain : List F} {r : Except (CallFault F E) (Kwargs F W O)}
    (h : Runs g b context n func chain ps kwargs s r s') (all : Set F)
    (hall : ∀ f ∈ all, ∀ a ∈ g.arcs f, a.target ∈ all) : (∀ a ∈ g.arcsOf ps, a.target ∈ all) →
    ∀ x, r = .error x → (∃ chain, x = .cycle chain) ∨ x = .recursion ∨
      (∃ f sub e past, x = .raised e ∧ b.run f sub past = .error e ∧
        .executed f sub (.error e) ∈ s'.log) ∨
      ∃ p f, x = .required p.name f ∧ context.lookup p.name = none ∧
        (p ∈ ps ∨ ∃ f ∈ all, p ∈ (g.signature f).params) := by
  induction h with
  | nil =>
    rintro - x ⟨⟩
  | plain hplain hkwargs hrest ih =>
    rw [arcsOf_cons_plain hplain]
    intro harcs x hx
    refine (ih harcs x hx).imp_right (.imp_right (.imp_right ?_))
    rintro ⟨p, f, heq, hv, hp⟩
    exact ⟨p, f, heq, hv, hp.imp_left (List.mem_cons_of_mem _)⟩
  | @required n func chain p ps kwargs s x hplain hx =>
    rintro - x ⟨⟩
    obtain ⟨hv, hx⟩ := Param.plain_error hplain hx
    exact .inr (.inr (.inr ⟨p, func, hx, hv, .inl List.mem_cons_self⟩))
  | cycle hfilled hway =>
    rintro - x ⟨⟩
    exact .inl ⟨_, rfl⟩
  | hit hfilled hway hcache hrest ih =>
    rw [arcsOf_cons_filled hfilled]
    intro harcs x hx
    refine (ih (fun a ha => harcs a (List.mem_cons_of_mem _ ha)) x hx).imp_right
      (.imp_right (.imp_right ?_))
    rintro ⟨p, f, heq, hv, hp⟩
    exact ⟨p, f, heq, hv, hp.imp_left (List.mem_cons_of_mem _)⟩
  | limit hfilled hway hcache =>
    rintro - x ⟨⟩
    exact .inr (.inl rfl)
  | @failed n func chain p ps d kwargs s x s' hfilled hway hcache hsub ih =>
    rw [arcsOf_cons_filled hfilled]
    rintro harcs x ⟨⟩
    have htarget := harcs _ List.mem_cons_self
    refine (ih (fun a ha => hall _ htarget a ha) x rfl).imp_right (.imp_right (.imp_right ?_))
    rintro ⟨p, f, heq, hv, hp⟩
    exact ⟨p, f, heq, hv, .inr (hp.elim (fun hp => ⟨_, htarget, hp⟩) id)⟩
  | @raised n func chain p ps d kwargs s sub s₁ x s' hfilled hway hcache hsub hx ih =>
    rintro - x ⟨⟩
    refine .inr (.inr (.inl ?_))
    rcases g.execute_cases b (g.override d.dependency) sub s₁ with ⟨e, hrun, he⟩ | ⟨o, -, ho⟩
    · rw [he] at hx
      obtain ⟨heq, rfl⟩ := Prod.mk.inj hx
      exact ⟨_, _, e, _, (Except.error.inj heq).symm, hrun,
        List.mem_append_right _ List.mem_cons_self⟩
    · rw [ho] at hx
      cases hx
  | executed hfilled hway hcache hsub ho hrest ihsub ihrest =>
    rw [arcsOf_cons_filled hfilled]
    intro harcs x hx
    refine (ihrest (fun a ha => harcs a (List.mem_cons_of_mem _ ha)) x hx).imp_right
      (.imp_right (.imp_right ?_))
    rintro ⟨p, f, heq, hv, hp⟩
    exact ⟨p, f, heq, hv, hp.imp_left (List.mem_cons_of_mem _)⟩

/-! ### The whole call -/

section

variable {n : ℕ} {handler : F} {r : Except (CallFault F E) (Kwargs F W O)}

omit [DecidableEq F] in
theorem resolves_ending : ∀ event ∈ ending b handler r s, event.resolves = false := by
  unfold ending
  refine List.forall_mem_append.mpr ⟨?_, List.forall_mem_map.mpr fun _ _ => rfl⟩
  cases r with
  | error x => exact List.forall_mem_nil _
  | ok kwargs => exact List.forall_mem_singleton.mpr rfl

omit [DecidableEq F] in
/-- What is executed is executed in the resolution. -/
theorem mem_log_of_mem {event : InjectEvent F W O E} (hevent : event.resolves = true)
    (h : event ∈ s.log ++ ending b handler r s) : event ∈ s.log := by
  refine (List.mem_append.mp h).resolve_right fun hend => ?_
  rw [resolves_ending event hend] at hevent
  cases hevent

omit [DecidableEq F] in
/-- What comes before it is the same in the log of the resolution. -/
theorem cut_log {event : InjectEvent F W O E} (hevent : event.resolves = true)
    (h : s.log ++ ending b handler r s = past ++ event :: later) :
    ∃ later', s.log = past ++ event :: later' := by
  have hno : event ∉ ending b handler r s := by
    intro hmem
    rw [resolves_ending event hmem] at hevent
    cases hevent
  rcases List.append_eq_append_iff.mp h with ⟨more, -, hend⟩ | ⟨more, hlog, hlater⟩
  · rw [hend] at hno
    exact absurd (List.mem_append_right _ List.mem_cons_self) hno
  · cases more with
    | nil =>
      rw [List.nil_append] at hlater
      rw [← hlater] at hno
      exact absurd List.mem_cons_self hno
    | cons first more =>
      obtain ⟨rfl, -⟩ := List.cons.inj hlater
      exact ⟨more, hlog⟩

omit [DecidableEq F] in
/-- The only call of a function is that of the handler. -/
theorem called_of_mem {u : F} {result : Except E O} (hlog : ∀ event ∈ s.log, event.resolves = true)
    (h : .called u sub result ∈ s.log ++ ending b handler (.ok kwargs) s) :
    u = handler ∧ sub = kwargs := by
  rcases List.mem_append.mp h with hold | hnew
  · cases hlog _ hold
  · rcases List.mem_append.mp hnew with hcalled | hclosed
    · obtain ⟨rfl, rfl, -⟩ := InjectEvent.called.inj (List.mem_singleton.mp hcalled)
      exact ⟨rfl, rfl⟩
    · obtain ⟨e, -, he⟩ := List.mem_map.mp hclosed
      cases he

theorem executions_ending : executions f (s.log ++ ending b handler r s) = executions f s.log := by
  unfold executions
  rw [List.countP_append]
  refine Nat.add_eq_left.mpr (List.countP_eq_zero.mpr ?_)
  intro event hevent
  have hresolves := resolves_ending event hevent
  cases event with
  | executed _ _ _ => cases hresolves
  | entered _ => exact Bool.false_ne_true
  | called _ _ _ => exact Bool.false_ne_true
  | closed _ => exact Bool.false_ne_true

omit [DecidableEq F] in
/-- What a callable needs was executed before. -/
theorem Supplied.edge {f' : F} (h : g.Supplied past (g.signature f).params kwargs)
    (hedge : Arc.Edge g.arcs f f') : ∃ sub o, .executed f' sub (.ok o) ∈ past := by
  obtain ⟨a, ha, rfl⟩ := hedge
  obtain ⟨p, hp, d, hd, rfl⟩ := mem_arcs_iff.mp ha
  obtain ⟨sub, o, -, hmem⟩ := h p hp d hd
  exact ⟨sub, o, hmem⟩

/-- What was executed had its arguments. -/
theorem Traced.of_mem (h : g.Traced s) {result : Except E O}
    (hmem : .executed f kwargs result ∈ s.log) :
    g.Supplied s.log (g.signature f).params kwargs := by
  obtain ⟨past, later, hlog⟩ := List.append_of_mem hmem
  refine (h.supplied past f kwargs result later hlog).mono ?_
  rw [hlog]
  exact List.subset_append_left _ _

/-- All that a handler needs was executed. -/
theorem Traced.executed (h : g.Traced s)
    (hsupplied : g.Supplied s.log (g.signature handler).params kwargs)
    (hreach : TransGen (Arc.Edge g.arcs) handler f) :
    ∃ sub o, .executed f sub (.ok o) ∈ s.log := by
  induction hreach with
  | single hedge => exact hsupplied.edge hedge
  | tail _ hedge ih =>
    obtain ⟨sub, o, hmem⟩ := ih
    exact (h.of_mem hmem).edge hedge

/-- A dependency that was executed once returned one value. -/
theorem eq_of_executions {log : List (InjectEvent F W O E)} (h : executions f log = 1)
    {sub sub' : Kwargs F W O} {o o' : O} (hmem : .executed f sub (.ok o) ∈ log)
    (hmem' : .executed f sub' (.ok o') ∈ log) : o = o' := by
  unfold executions at h
  rw [List.countP_eq_length_filter, List.length_eq_one_iff] at h
  obtain ⟨event, hevent⟩ := h
  have hall : ∀ {sub : Kwargs F W O} {o : O}, .executed f sub (.ok o) ∈ log →
      .executed f sub (.ok o) = event := by
    intro sub o hmem
    refine List.mem_singleton.mp (hevent ▸ List.mem_filter.mpr ⟨hmem, ?_⟩)
    exact decide_eq_true rfl
  obtain ⟨-, -, heq⟩ := InjectEvent.executed.inj ((hall hmem).trans (hall hmem').symm)
  exact Except.ok.inj heq

theorem keys_empty : keys (.empty : Injecting F W O E) = ∅ :=
  Set.eq_empty_of_forall_notMem fun _ ⟨_, ho⟩ => (nomatch ho)

/-- A resolution that stops at a callable on its way has met a cycle or a clash. -/
theorem Runs.cyclic_or_clash {chain : List F}
    (h : Runs g b context n handler [] (g.signature handler).params [] .empty
      (.error (.cycle chain)) s) :
    Arc.Cyclic g.arcs handler ∨ Arc.Clash g.arcs [] (g.arcs handler) ∅ := by
  have hwalk := h.walk fun x hx => ⟨chain, (Except.error.inj hx).symm⟩
  rw [keys_empty] at hwalk
  exact hwalk.stops

/-- A resolution that comes to its end has met neither. -/
theorem Runs.not_cyclic_not_clash
    (h : Runs g b context n handler [] (g.signature handler).params [] .empty (.ok kwargs) s) :
    ¬ Arc.Cyclic g.arcs handler ∧ ¬ Arc.Clash g.arcs [] (g.arcs handler) ∅ := by
  have hwalk := h.walk fun x hx => nomatch hx
  rw [keys_empty] at hwalk
  exact hwalk.ends

/-- One that ends otherwise was interrupted. -/
theorem Runs.interrupted {x : CallFault F E}
    (h : Runs g b context n handler [] (g.signature handler).params [] .empty (.error x) s)
    (hx : x ≠ .recursion) : (∃ chain, x = .cycle chain) ∨
      Interrupted context (.error x) (s.log ++ ending b handler (.error x) s) := by
  rcases h.outcome Set.univ (fun _ _ _ _ => trivial) (fun _ _ => trivial) x rfl with
    hcycle | rfl | ⟨f, sub, e, -, rfl, -, hmem⟩ | ⟨p, f, rfl, hv, -⟩
  · exact .inl hcycle
  · exact absurd rfl hx
  · exact .inr (.inl ⟨f, sub, e, rfl, List.mem_append_left _ hmem⟩)
  · exact .inr (.inr ⟨p.name, f, rfl, hv⟩)

/-- What a resolution leaves behind when it ends. -/
theorem Runs.ended (h : Runs g b context n handler [] (g.signature handler).params [] .empty r s) :
    g.Traced s ∧ ∀ kwargs, r = .ok kwargs →
      g.Supplied s.log (g.signature handler).params kwargs := by
  obtain ⟨htraced, -, hsupplied⟩ := h.traced [] (g.signature handler).nodup traced_empty
    fun p hp => absurd hp List.not_mem_nil
  exact ⟨htraced, hsupplied⟩

theorem Runs.executions_eq_one
    (h : Runs g b context n handler [] (g.signature handler).params [] .empty (.ok kwargs) s)
    (hreach : TransGen (Arc.Edge g.arcs) handler f) (honly : g.OnlyCached handler f) :
    executions f s.log = 1 := by
  obtain ⟨htraced, hsupplied⟩ := h.ended
  have hcounted : Counted f s := by
    refine h.counted (fun a ha => ⟨honly handler .refl a ha, ?_⟩) counted_empty kwargs rfl
    exact fun u hu => honly u (.head ⟨a, ha, rfl⟩ hu)
  refine hcounted.1 ?_
  by_contra hno
  obtain ⟨sub, o, hmem⟩ := htraced.executed (hsupplied kwargs rfl) hreach
  exact List.countP_eq_zero.mp (hcounted.2 hno) _ hmem (decide_eq_true rfl)

/-- A resolution is as it should be where no original clashes. -/
theorem Runs.injects (h : Runs g b context n handler [] (g.signature handler).params [] .empty r s)
    (hr : r ≠ .error .recursion)
    (hclash : Arc.Cyclic g.arcs handler ∨ ¬ Arc.Clash g.arcs [] (g.arcs handler) ∅) :
    g.Injects context handler r (s.log ++ ending b handler r s) where
  cycle := by
    rintro chain rfl
    exact h.cyclic_or_clash.elim id fun hno => hclash.elim id (absurd hno)
  cyclic := by
    intro hcyclic
    cases r with
    | ok kwargs => exact absurd hcyclic h.not_cyclic_not_clash.1
    | error x =>
      refine (h.interrupted fun hx => hr (hx ▸ rfl)).imp_left ?_
      rintro ⟨chain, rfl⟩
      exact ⟨chain, rfl⟩
  acyclic := by
    intro hacyclic
    cases r with
    | ok kwargs => exact .inl ⟨kwargs, rfl⟩
    | error x =>
      refine .inr ((h.interrupted fun hx => hr (hx ▸ rfl)).resolve_left ?_)
      rintro ⟨chain, rfl⟩
      exact h.cyclic_or_clash.elim hacyclic fun hno => hclash.elim hacyclic (absurd hno)
  once := by
    rintro kwargs rfl f hreach honly
    rw [executions_ending]
    exact h.executions_eq_one hreach honly
  after := by
    intro past f kwargs result later hlog f' hedge
    obtain ⟨later', hlog⟩ := cut_log rfl hlog
    exact (h.ended.1.supplied past f kwargs result later' hlog).edge hedge
  same := by
    rintro kwargs rfl f hreach honly
    obtain ⟨htraced, hsupplied⟩ := h.ended
    obtain ⟨sub, o, hmem⟩ := htraced.executed (hsupplied kwargs rfl) hreach
    refine ⟨o, fun u kw result hu p hp d hd hf => ?_⟩
    have hkw : g.Supplied s.log (g.signature u).params kw := by
      rcases hu with hu | hu
      · exact htraced.of_mem (mem_log_of_mem rfl hu)
      · obtain ⟨rfl, rfl⟩ := called_of_mem htraced.resolves hu
        exact hsupplied kw rfl
    obtain ⟨sub', o', hlookup, hmem'⟩ := hkw p hp d hd
    subst hf
    rw [eq_of_executions (h.executions_eq_one hreach honly) hmem hmem']
    exact hlookup
  closed := by
    obtain ⟨htraced, -⟩ := h.ended
    have hentries : entries (s.log ++ calls b handler s.log r) = entries s.log := by
      rw [entries, List.filterMap_append]
      cases r with
      | error x => exact List.append_nil _
      | ok kwargs => exact List.append_nil _
    refine ⟨s.log ++ calls b handler s.log r, ?_, ?_, ?_, ?_⟩
    · rw [hentries, ← htraced.stack, ending, List.append_assoc]
    · rw [hentries]
      exact htraced.nodup
    · intro e he
      rcases List.mem_append.mp he with hold | hcall
      · cases htraced.resolves _ hold
      · cases r with
        | error x => exact List.not_mem_nil hcall
        | ok kwargs => cases List.mem_singleton.mp hcall
    · rintro kwargs rfl
      exact ⟨_, List.mem_append_right _ List.mem_cons_self⟩

/-- The callables that a handler needs, itself among them. -/
def reached (g : DependencyGraph F H O) (handler : F) : Set F :=
  {f | ReflTransGen (Arc.Edge g.arcs) handler f}

/-- With as many calls left as there are callables a resolution ends, always alike. -/
theorem exists_runs_of_finite (g : DependencyGraph F H O) (b : Bodies F W O E)
    (context : Kwargs F W O) (hfinite : (g.reached handler).Finite) :
    ∃ limit r s, Runs g b context limit handler [] (g.signature handler).params [] .empty r s ∧
      r ≠ .error .recursion ∧ ∀ n > limit,
        g.resolveDependencies b context n [] handler [] .empty = (r, s) := by
  have hclosed : ∀ f ∈ hfinite.toFinset, ∀ a ∈ g.arcs f, a.target ∈ hfinite.toFinset := by
    intro f hf a ha
    rw [Set.Finite.mem_toFinset] at hf ⊢
    exact ReflTransGen.tail hf ⟨a, ha, rfl⟩
  obtain ⟨r, s, h⟩ : ∃ r s, Runs g b context hfinite.toFinset.card handler []
      (g.signature handler).params [] .empty r s := exists_runs _ _ _ _ _ _
  have hr : r ≠ .error .recursion := by
    refine h.not_recursion hfinite.toFinset hclosed ?_ List.nodup_nil (List.forall_mem_nil _) le_rfl
    exact hclosed handler (hfinite.mem_toFinset.mpr .refl)
  refine ⟨_, r, s, h, hr, fun n hn => ?_⟩
  obtain ⟨n, rfl⟩ := Nat.exists_eq_succ_of_ne_zero (Nat.ne_zero_of_lt hn)
  rw [resolveDependencies]
  exact (h.mono hr (Nat.le_of_lt_succ hn)).resolveParams

/-- What is correct where no original clashes, or there is a cycle anyway. -/
theorem correct_of_not_clash (hfinite : (g.reached handler).Finite)
    (hclash : Arc.Cyclic g.arcs handler ∨ ¬ Arc.Clash g.arcs [] (g.arcs handler) ∅) :
    g.Correct b context handler := by
  obtain ⟨limit, r, s, hruns, hr, hresolve⟩ := g.exists_runs_of_finite b context hfinite
  refine ⟨r, s.log ++ ending b handler r s, ⟨limit + 1, fun n hn => ?_⟩, hr,
    hruns.injects hr hclash⟩
  rw [injectAndRun_snd, hresolve n hn]
  exact ⟨rfl, rfl⟩

/-- Where nothing interrupts it, a resolution that is as it should be meets no clash without a
cycle. -/
theorem Correct.not_clash (h : g.Correct b context handler) (hfinite : (g.reached handler).Finite)
    (hrun : ∀ f kwargs past e, b.run f kwargs past ≠ .error e)
    (hcontext : ∀ f ∈ g.reached handler, ∀ p ∈ (g.signature f).params, context.lookup p.name ≠ none)
    (hacyclic : ¬ Arc.Cyclic g.arcs handler) :
    ¬ Arc.Clash g.arcs [] (g.arcs handler) ∅ := by
  obtain ⟨r, log, ⟨limit, hlimit⟩, hr, hinjects⟩ := h
  obtain ⟨limit', r', s, hruns, -, hresolve⟩ := g.exists_runs_of_finite b context hfinite
  obtain ⟨hr', hlog⟩ := hlimit (limit + limit' + 1) (by omega)
  rw [hresolve _ (by omega)] at hr'
  obtain rfl : r' = r := hr'
  cases r' with
  | ok kwargs => exact hruns.not_cyclic_not_clash.2
  | error x =>
    exfalso
    rcases hruns.outcome (g.reached handler) (fun f hf a ha => ReflTransGen.tail hf ⟨a, ha, rfl⟩)
        (fun a ha => ReflTransGen.single ⟨a, ha, rfl⟩) x rfl with
      ⟨chain, rfl⟩ | rfl | ⟨f, sub, e, past, rfl, hraised, -⟩ | ⟨p, f, rfl, hv, hp⟩
    · exact hacyclic (hinjects.cycle chain rfl)
    · exact hr rfl
    · exact hrun f sub past e hraised
    · rcases hp with hp | ⟨f, hf, hp⟩
      · exact hcontext handler .refl p hp hv
      · exact hcontext f hf p hp hv

/-- **Dependency injection is correct** on a finite graph, whatever the callables do, just when the
graph has a cycle or no original clashes. -/
theorem correct_iff [Inhabited O] (g : DependencyGraph F H O) (handler : F)
    (hfinite : (g.reached handler).Finite) :
    (∀ (b : Bodies F W O E) (context : Kwargs F W O), g.Correct b context handler) ↔
      Arc.Cyclic g.arcs handler ∨ ¬ Arc.Clash g.arcs [] (g.arcs handler) ∅ := by
  refine ⟨fun h => ?_, fun h b context => correct_of_not_clash hfinite h⟩
  by_contra hno
  rw [not_or, not_not] at hno
  -- callables that do nothing, in a context that has all they name
  let names := hfinite.toFinset.toList.flatMap fun f => (g.signature f).params.map Param.name
  let context : Kwargs F W O := names.map fun name => (name, .storage)
  refine (h .quiet context).not_clash hfinite (fun f kwargs past e he => nomatch he) ?_ hno.1 hno.2
  intro f hf p hp hnone
  have hmem : p.name ∈ names :=
    List.mem_flatMap.mpr ⟨f, by simpa using hf, List.mem_map_of_mem hp⟩
  rw [List.lookup_eq_none_iff] at hnone
  have hne := hnone (p.name, .storage) (List.mem_map_of_mem hmem)
  rw [bne_self_eq_false] at hne
  cases hne

end

end DependencyGraph

/-! ### Test doubles -/

/-- The callables of a small application, and two test doubles. -/
inductive Provider
  | handler
  | getService
  | getRepo
  | getDb
  | fakeRepo
  | fakeDb
  deriving DecidableEq

namespace Provider

open DependencyGraph

instance : Fintype Provider where
  elems := {handler, getService, getRepo, getDb, fakeRepo, fakeDb}
  complete f := by cases f <;> decide

/-- `def f(x=Depends(g), ...)`. -/
def sig (deps : List (String × Provider)) (h : (deps.map Prod.fst).Nodup := by decide) :
    Signature Provider Unit ℕ where
  params := deps.map fun x => ⟨x.1, .positionalOrKeyword, .depends ⟨x.2, true⟩, .bare⟩
  typeHints := none
  nodup := by rwa [List.map_map]
  last := by
    intro p hp
    obtain ⟨x, -, rfl⟩ := List.mem_map.mp (List.mem_of_mem_dropLast hp)
    exact ParamKind.noConfusion

/-- The service and the repository share the database. -/
def diamond : DependencyGraph Provider Unit ℕ where
  signature
    | handler => sig [("service", getService), ("repo", getRepo)]
    | getService => sig [("db", getDb)]
    | getRepo => sig [("db", getDb)]
    | _ => sig []
  kind _ := .plain
  override := id

/-- The service is the repository, and its database is a double that asks for a repository, which is
another double. -/
def doubled : DependencyGraph Provider Unit ℕ where
  signature
    | handler => sig [("service", getService)]
    | getRepo => sig [("db", getDb)]
    | fakeDb => sig [("repo", getRepo)]
    | _ => sig []
  kind _ := .plain
  override
    | getService => getRepo
    | getRepo => fakeRepo
    | getDb => fakeDb
    | f => f

end Provider

namespace DependencyGraph

open Provider

/-- What is shared and has no cycle is injected as it should be. -/
theorem correct_iff_diamond : ¬ Arc.Cyclic diamond.arcs .handler ∧
    ∀ (b : Bodies Provider Unit ℕ Unit) (context : Kwargs Provider Unit ℕ),
      diamond.Correct b context .handler := by
  let b : Bodies Provider Unit ℕ Unit := .quiet
  have hruns : ∃ kwargs s, Runs diamond b [] 3 .handler [] (diamond.signature .handler).params []
      .empty (.ok kwargs) s := ⟨_, _, runs_resolveDependencies 3 Provider.handler [] .empty⟩
  obtain ⟨kwargs, s, hruns⟩ := hruns
  obtain ⟨hacyclic, hclash⟩ := hruns.not_cyclic_not_clash
  exact ⟨hacyclic, (correct_iff diamond .handler (Set.toFinite _)).mpr (.inr hclash)⟩

/-- No dependency needs itself, and yet the resolution raises `DependencyCycleError`. -/
theorem correct_iff_doubled : ¬ ∀ (b : Bodies Provider Unit ℕ Unit)
    (context : Kwargs Provider Unit ℕ), doubled.Correct b context .handler := by
  intro h
  obtain ⟨r, log, ⟨limit, hlimit⟩, -, hinjects⟩ := h .quiet []
  have hcycle : (doubled.resolveDependencies (.quiet : Bodies Provider Unit ℕ Unit) []
      (limit + 3) [] .handler [] .empty).1 = .error (.cycle [getRepo, fakeDb, fakeRepo]) := rfl
  have hr := (hlimit (limit + 3) (Nat.le_add_right _ _)).1
  suffices hacyclic : ¬ Arc.Cyclic doubled.arcs .handler from
    hacyclic (hinjects.cycle _ (hr.symm.trans hcycle))
  apply Arc.not_cyclic_of_acc
  have hfakeRepo : Acc (fun v u => Arc.Edge doubled.arcs u v) fakeRepo := by
    refine .intro _ ?_
    rintro v ⟨a, ha, -⟩
    cases ha
  have hfakeDb : Acc (fun v u => Arc.Edge doubled.arcs u v) fakeDb := by
    refine .intro _ ?_
    rintro v ⟨a, ha, rfl⟩
    rw [List.mem_singleton.mp ha]
    exact hfakeRepo
  have hgetRepo : Acc (fun v u => Arc.Edge doubled.arcs u v) getRepo := by
    refine .intro _ ?_
    rintro v ⟨a, ha, rfl⟩
    rw [List.mem_singleton.mp ha]
    exact hfakeDb
  refine .intro _ ?_
  rintro v ⟨a, ha, rfl⟩
  rw [List.mem_singleton.mp ha]
  exact hgetRepo

end DependencyGraph

end Istos
