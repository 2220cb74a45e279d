import Istos.Di.Runs

/-!
# The pure resolution

Where no callable looks at the past, what is resolved does not depend on the log and the exit stack:
`resolve_dependencies` returns and raises what it does as a function of its arguments
(`injector_resolveDependencies`).
-/

namespace Istos.DependencyGraph

variable {F H W O E : Type}

/-- The functions of an application that do not look at the past. -/
def injector (g : DependencyGraph F H O) (run : F → Kwargs F W O → Except E O) :
    Injector F H W O E where
  signature := g.signature
  run := run
  override := g.override

variable [DecidableEq F] {g : DependencyGraph F H O} {run : F → Kwargs F W O → Except E O}
  {b : Bodies F W O E} {context : Kwargs F W O} {func : F} {chain : List F} {p : Param F O}
  {d : Depends F} {t : Resolving F W O}
  {resolve : F → List F → List (F × O) → Except (CallFault F E) (Resolving F W O)}

theorem injector_plain (h : ∀ d, ¬ p.Filled d) :
    (g.injector run).resolveParam resolve context func chain t p =
      (p.plain context func t.kwargs).map fun kwargs => { t with kwargs := kwargs } := by
  unfold Injector.resolveParam Param.plain
  by_cases hself : p.name = "self"
  · rw [if_pos hself, if_pos hself]
    rfl
  · rw [if_neg hself, if_neg hself]
    cases hd : p.extractDepends with
    | none =>
      cases hv : context.lookup p.name with
      | some v => rfl
      | none =>
        dsimp only
        split_ifs <;> rfl
    | some d =>
      have hkind : p.kind = .varKeyword := by
        by_contra hkind
        exact h d ⟨hd, hself, hkind⟩
      dsimp only
      rw [if_pos hkind, if_pos hkind]
      rfl

theorem injector_onWay (h : p.Filled d) (hway : g.OnWay chain d) :
    (g.injector run).resolveParam resolve context func chain t p =
      .error (.cycle (chain ++ [g.override d.dependency])) := by
  obtain ⟨hd, hself, hkind⟩ := h
  unfold Injector.resolveParam
  rw [if_neg hself, hd]
  dsimp only
  rw [if_neg hkind]
  exact if_pos hway

theorem injector_hit {o : O} (h : p.Filled d) (hway : ¬ g.OnWay chain d)
    (hcache : d.useCache = true) (ho : t.cache.lookup (g.override d.dependency) = some o) :
    (g.injector run).resolveParam resolve context func chain t p =
      .ok { t with
        kwargs := Assoc.set t.kwargs p.name (.resolved (g.override d.dependency) o) } := by
  obtain ⟨hd, hself, hkind⟩ := h
  unfold Injector.resolveParam
  rw [if_neg hself, hd]
  dsimp only
  rw [if_neg hkind]
  refine (if_neg hway).trans ?_
  have ho' : t.cache.lookup ((g.injector run).override d.dependency) = some o := ho
  rw [if_pos hcache, ho']
  rfl

theorem injector_fresh (h : p.Filled d) (hway : ¬ g.OnWay chain d)
    (hnone : (if d.useCache then t.cache.lookup (g.override d.dependency) else none) = none) :
    (g.injector run).resolveParam resolve context func chain t p =
      match resolve (g.override d.dependency) (chain ++ [g.override d.dependency]) t.cache with
      | .error x => .error x
      | .ok sub =>
        match run (g.override d.dependency) sub.kwargs with
        | .error e => .error (.raised e)
        | .ok o => .ok {
            cache := if d.useCache then Assoc.set sub.cache (g.override d.dependency) o
              else sub.cache
            kwargs := Assoc.set t.kwargs p.name (.resolved (g.override d.dependency) o) } := by
  obtain ⟨hd, hself, hkind⟩ := h
  unfold Injector.resolveParam
  rw [if_neg hself, hd]
  dsimp only
  rw [if_neg hkind]
  refine (if_neg hway).trans ?_
  have hnone' : (if d.useCache then t.cache.lookup ((g.injector run).override d.dependency)
      else none) = none := hnone
  rw [hnone']
  rfl

/-- What a resolution comes to, without what it leaves behind. -/
def resolving (r : Except (CallFault F E) (Kwargs F W O)) (s : Injecting F W O E) :
    Except (CallFault F E) (Resolving F W O) :=
  r.map fun kwargs => ⟨s.cache, kwargs⟩

/-- One parameter after the other. -/
theorem Runs.injector {n : ℕ} {ps : List (Param F O)} {kwargs : Kwargs F W O}
    {s s' : Injecting F W O E} {r : Except (CallFault F E) (Kwargs F W O)}
    (h : Runs g b context n func chain ps kwargs s r s')
    (hrun : ∀ f kwargs past, b.run f kwargs past = run f kwargs) :
    ps.foldlM
      ((g.injector run).resolveParam ((g.injector run).resolveDependencies context n) context
        func chain) ⟨s.cache, kwargs⟩ = resolving r s' := by
  induction h with
  | nil => rfl
  | plain hplain hkwargs hrest ih =>
    rw [List.foldlM_cons, injector_plain hplain, hkwargs]
    exact ih
  | required hplain hx =>
    rw [List.foldlM_cons, injector_plain hplain, hx]
    rfl
  | cycle hfilled hway =>
    rw [List.foldlM_cons, injector_onWay hfilled hway]
    rfl
  | hit hfilled hway hcache hrest ih =>
    rw [List.foldlM_cons, injector_hit hfilled hway hcache.1 hcache.2]
    exact ih
  | limit hfilled hway hcache =>
    rw [List.foldlM_cons, injector_fresh hfilled hway (lookup_eq_none hcache)]
    rfl
  | @failed n func chain p ps d kwargs s x s' hfilled hway hcache hsub ih =>
    have hresolve : (g.injector run).resolveDependencies context (n + 1) (g.override d.dependency)
      (chain ++ [g.override d.dependency]) s.cache = resolving (.error x) s' := ih
    rw [List.foldlM_cons, injector_fresh hfilled hway (lookup_eq_none hcache), hresolve]
    rfl
  | @raised n func chain p ps d kwargs s sub s₁ x s' hfilled hway hcache hsub hx ih =>
    have hresolve : (g.injector run).resolveDependencies context (n + 1) (g.override d.dependency)
      (chain ++ [g.override d.dependency]) s.cache = resolving (.ok sub) s₁ := ih
    rw [List.foldlM_cons, injector_fresh hfilled hway (lookup_eq_none hcache), hresolve]
    rcases g.execute_cases b (g.override d.dependency) sub s₁ with ⟨e, hraised, he⟩ | ⟨o, -, ho⟩
    · rw [he] at hx
      obtain ⟨heq, -⟩ := Prod.mk.inj hx
      rw [hrun] at hraised
      simp only [resolving, Except.map, hraised, ← Except.error.inj heq]
      rfl
    · rw [ho] at hx
      cases hx
  | @executed n func chain p ps d kwargs s sub s₁ o s₂ r s' hfilled hway hcache hsub ho hrest ihsub
      ihrest =>
    have hresolve : (g.injector run).resolveDependencies context (n + 1) (g.override d.dependency)
      (chain ++ [g.override d.dependency]) s.cache = resolving (.ok sub) s₁ := ihsub
    have hcache₂ : s₂.cache = s₁.cache := by
      have hcache₁ := g.execute_cache b (g.override d.dependency) sub s₁
      rwa [ho] at hcache₁
    have hreturned : run (g.override d.dependency) sub = .ok o := by
      rcases g.execute_cases b (g.override d.dependency) sub s₁ with ⟨e, -, he⟩ | ⟨o', ho', heq⟩
      · rw [he] at ho
        cases ho
      · rw [heq] at ho
        rw [← hrun _ _ s₁.log, ho', Except.ok.inj (Prod.mk.inj ho).1]
    rw [List.foldlM_cons, injector_fresh hfilled hway (lookup_eq_none hcache), hresolve]
    have hstored : (g.cached d o s₂).cache =
        if d.useCache then Assoc.set s₁.cache (g.override d.dependency) o else s₁.cache := by
      unfold DependencyGraph.cached
      rw [← hcache₂]
      split_ifs <;> rfl
    simp only [resolving, Except.map, hreturned]
    rw [← hstored]
    exact ihrest

/-- **The pure resolution** is what a resolution comes to. -/
theorem injector_resolveDependencies (g : DependencyGraph F H O) (b : Bodies F W O E)
    (run : F → Kwargs F W O → Except E O)
    (hrun : ∀ f kwargs past, b.run f kwargs past = run f kwargs)
    (context : Kwargs F W O) (n : ℕ) (func : F) (chain : List F) (s : Injecting F W O E) :
    (g.injector run).resolveDependencies context n func chain s.cache =
      resolving (g.resolveDependencies b context n [] func chain s).1
        (g.resolveDependencies b context n [] func chain s).2 := by
  cases n with
  | zero => rfl
  | succ n => exact (runs_resolveDependencies n func chain s).injector hrun

end Istos.DependencyGraph
