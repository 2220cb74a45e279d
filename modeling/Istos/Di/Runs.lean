import Istos.Data.Walk
import Istos.Di.Depends
import Istos.Primitives.Equiv.Resolve
import Mathlib.Data.Finset.Card

/-!
# What a resolution can do

`Runs` says it once, with a rule for each way on from a parameter: it is what `resolve_dependencies`
computes (`runs_iff`), and with more of the recursion limit left it is the same
(`Runs.succ`).  Without what the callables do it is a walk over the graph of the dependencies
(`Runs.walk`), on which an arc is a parameter, and its key the callable before the override.
-/

namespace Istos

variable {F H W O E : Type}

/-- The marker of a parameter that is resolved. -/
def Param.filled? (p : Param F O) : Option (Depends F) :=
  if p.name = "self" ∨ p.kind = .varKeyword then none else p.extractDepends

theorem Param.filled?_eq_some {p : Param F O} {d : Depends F} :
    p.filled? = some d ↔ p.Filled d := by
  unfold Param.filled? Param.Filled
  split_ifs with h
  · refine iff_of_false (fun hnone => nomatch hnone) ?_
    rintro ⟨-, hself, hkind⟩
    exact h.elim hself hkind
  · rw [not_or] at h
    exact (and_iff_left h).symm

theorem Param.filled?_eq_none {p : Param F O} : p.filled? = none ↔ ∀ d, ¬ p.Filled d := by
  rw [Option.eq_none_iff_forall_ne_some]
  exact forall_congr' fun d => not_congr filled?_eq_some

/-- What `resolve_dependencies` does with a parameter that it does not resolve. -/
def Param.plain (p : Param F O) (context : Kwargs F W O) (func : F) (kwargs : Kwargs F W O) :
    Except (CallFault F E) (Kwargs F W O) :=
  if p.name = "self" then .ok kwargs
  else
    match p.extractDepends, context.lookup p.name with
    | none, some v => .ok (Assoc.set kwargs p.name v)
    | _, _ =>
      if p.kind = .varKeyword then
        .ok (kwargs ++ context.filter fun x => decide (x.1 ∉ kwargs.map Prod.fst))
      else if p.hasDefault || !p.kind.byName then .ok kwargs
      else .error (.required p.name func)

/-- It leaves the arguments, sets its own or adds to them, or raises where the context has none. -/
theorem Param.plain_cases {p : Param F O} (hplain : ∀ d, ¬ p.Filled d) (context : Kwargs F W O)
    (func : F) (kwargs : Kwargs F W O) :
    (p.plain context func kwargs : Except (CallFault F E) _) = .ok kwargs ∨
      (∃ v, (p.plain context func kwargs : Except (CallFault F E) _) =
        .ok (Assoc.set kwargs p.name v)) ∨
      (∃ more, (p.plain context func kwargs : Except (CallFault F E) _) = .ok (kwargs ++ more)) ∨
      context.lookup p.name = none ∧
        (p.plain context func kwargs : Except (CallFault F E) _) =
          .error (.required p.name func) := by
  unfold Param.plain
  by_cases hself : p.name = "self"
  · exact .inl (if_pos hself)
  rw [if_neg hself]
  cases hd : p.extractDepends with
  | none =>
    cases hv : context.lookup p.name with
    | some v => exact .inr (.inl ⟨v, rfl⟩)
    | none =>
      dsimp only
      split_ifs with hkind hdefault
      · exact .inr (.inr (.inl ⟨_, rfl⟩))
      · exact .inl rfl
      · exact .inr (.inr (.inr ⟨rfl, rfl⟩))
  | some d =>
    have hkind : p.kind = .varKeyword := by
      by_contra hkind
      exact hplain d ⟨hd, hself, hkind⟩
    dsimp only
    rw [if_pos hkind]
    exact .inr (.inr (.inl ⟨_, rfl⟩))

theorem Param.plain_error {p : Param F O} (hplain : ∀ d, ¬ p.Filled d) {context : Kwargs F W O}
    {func : F} {kwargs : Kwargs F W O} {x : CallFault F E}
    (h : p.plain context func kwargs = .error x) :
    context.lookup p.name = none ∧ x = .required p.name func := by
  rcases plain_cases (E := E) hplain context func kwargs with hx | ⟨v, hx⟩ | ⟨more, hx⟩ | ⟨hv, hx⟩
  · rw [hx] at h
    cases h
  · rw [hx] at h
    cases h
  · rw [hx] at h
    cases h
  · rw [hx] at h
    exact ⟨hv, (Except.error.inj h).symm⟩

namespace DependencyGraph

variable (g : DependencyGraph F H O)

/-- The arc of a parameter that is resolved. -/
def arc (d : Depends F) : Arc F := ⟨d.dependency, g.override d.dependency, d.useCache⟩

/-- The arcs of parameters. -/
def arcsOf (ps : List (Param F O)) : List (Arc F) := ps.filterMap fun p => p.filled?.map g.arc

/-- The arcs of a callable. -/
def arcs (f : F) : List (Arc F) := g.arcsOf (g.signature f).params

variable {g}

theorem mem_arcs_iff {f : F} {a : Arc F} :
    a ∈ g.arcs f ↔ ∃ p ∈ (g.signature f).params, ∃ d, p.Filled d ∧ g.arc d = a := by
  unfold arcs arcsOf
  simp only [List.mem_filterMap, Option.map_eq_some_iff, Param.filled?_eq_some]

variable {p : Param F O} {ps : List (Param F O)} {d : Depends F}

theorem arcsOf_cons_filled (h : p.Filled d) : g.arcsOf (p :: ps) = g.arc d :: g.arcsOf ps := by
  rw [← Param.filled?_eq_some] at h
  exact List.filterMap_cons_some (by rw [h]; rfl)

theorem arcsOf_cons_plain (h : ∀ d, ¬ p.Filled d) : g.arcsOf (p :: ps) = g.arcsOf ps := by
  rw [← Param.filled?_eq_none] at h
  exact List.filterMap_cons_none (by rw [h]; rfl)

/-! ### The rules -/

variable (g) (b : Bodies F W O E) [DecidableEq F] (context : Kwargs F W O)

/-- The marker has a callable on the way. -/
def OnWay (chain : List F) (d : Depends F) : Prop :=
  d.dependency ∈ chain ∨ g.override d.dependency ∈ chain

/-- The value is in the cache. -/
def InCache (s : Injecting F W O E) (d : Depends F) (o : O) : Prop :=
  d.useCache = true ∧ s.cache.lookup (g.override d.dependency) = some o

/-- The value goes into the cache. -/
def cached (d : Depends F) (o : O) (s : Injecting F W O E) : Injecting F W O E :=
  if d.useCache then s.store (g.override d.dependency) o else s

/-- `Runs n func chain ps kwargs s r s'`: with `n` calls left, on its way `chain`, a resolution of
`func` goes from its parameters `ps`, with `kwargs` and `s`, to `r` and `s'`. -/
inductive Runs : ℕ → F → List F → List (Param F O) → Kwargs F W O → Injecting F W O E →
    Except (CallFault F E) (Kwargs F W O) → Injecting F W O E → Prop
  | nil {n func chain kwargs s} : Runs n func chain [] kwargs s (.ok kwargs) s
  | plain {n func chain p ps kwargs kwargs' s r s'} : (∀ d, ¬ p.Filled d) →
      (p.plain context func kwargs : Except (CallFault F E) _) = .ok kwargs' →
      Runs n func chain ps kwargs' s r s' → Runs n func chain (p :: ps) kwargs s r s'
  | required {n func chain p ps kwargs s x} : (∀ d, ¬ p.Filled d) →
      p.plain context func kwargs = .error x →
      Runs n func chain (p :: ps) kwargs s (.error x) s
  | cycle {n func chain p ps d kwargs s} : p.Filled d → g.OnWay chain d →
      Runs n func chain (p :: ps) kwargs s (.error (.cycle (chain ++ [g.override d.dependency]))) s
  | hit {n func chain p ps d o kwargs s r s'} : p.Filled d → ¬ g.OnWay chain d →
      g.InCache s d o →
      Runs n func chain ps
        (Assoc.set kwargs p.name (.resolved (g.override d.dependency) o)) s r s' →
      Runs n func chain (p :: ps) kwargs s r s'
  | limit {func chain p ps d kwargs s} : p.Filled d → ¬ g.OnWay chain d → (∀ o, ¬ g.InCache s d o) →
      Runs 0 func chain (p :: ps) kwargs s (.error .recursion) s
  | failed {n func chain p ps d kwargs s x s'} : p.Filled d → ¬ g.OnWay chain d →
      (∀ o, ¬ g.InCache s d o) →
      Runs n (g.override d.dependency) (chain ++ [g.override d.dependency])
        (g.signature (g.override d.dependency)).params [] s (.error x) s' →
      Runs (n + 1) func chain (p :: ps) kwargs s (.error x) s'
  | raised {n func chain p ps d kwargs s sub s₁ x s'} : p.Filled d → ¬ g.OnWay chain d →
      (∀ o, ¬ g.InCache s d o) →
      Runs n (g.override d.dependency) (chain ++ [g.override d.dependency])
        (g.signature (g.override d.dependency)).params [] s (.ok sub) s₁ →
      g.execute b (g.override d.dependency) sub s₁ = (.error x, s') →
      Runs (n + 1) func chain (p :: ps) kwargs s (.error x) s'
  | executed {n func chain p ps d kwargs s sub s₁ o s₂ r s'} : p.Filled d → ¬ g.OnWay chain d →
      (∀ o, ¬ g.InCache s d o) →
      Runs n (g.override d.dependency) (chain ++ [g.override d.dependency])
        (g.signature (g.override d.dependency)).params [] s (.ok sub) s₁ →
      g.execute b (g.override d.dependency) sub s₁ = (.ok o, s₂) →
      Runs (n + 1) func chain ps (Assoc.set kwargs p.name (.resolved (g.override d.dependency) o))
        (g.cached d o s₂) r s' →
      Runs (n + 1) func chain (p :: ps) kwargs s r s'

variable {g b context} {func : F} {chain : List F} {kwargs : Kwargs F W O}
    {s s' : Injecting F W O E}
  {r : Except (CallFault F E) (Kwargs F W O)}
  {resolve : F → List F → Injecting F W O E → Injected F W O E (Kwargs F W O)}

/-! ### One parameter -/

theorem resolveParam_plain (h : ∀ d, ¬ p.Filled d) :
    g.resolveParam b resolve context [] func chain p kwargs s =
      (p.plain context func kwargs, s) := by
  unfold resolveParam Param.plain
  by_cases hself : p.name = "self"
  · rw [if_pos (.inl hself), if_pos hself]
  · rw [if_neg (by simpa using hself), if_neg hself]
    cases hd : p.extractDepends with
    | none =>
      cases hv : context.lookup p.name with
      | some v => rfl
      | none =>
        dsimp only
        split_ifs <;> rfl
    | some d =>
      have hkind : p.kind = .varKeyword := by
        by_contra hkind
        exact h d ⟨hd, hself, hkind⟩
      dsimp only
      rw [if_pos hkind, if_pos hkind]

theorem resolveParam_filled (h : p.Filled d) :
    g.resolveParam b resolve context [] func chain p kwargs s =
      g.resolveDepends b resolve chain p.name d kwargs s := by
  obtain ⟨hd, hself, hkind⟩ := h
  unfold resolveParam
  rw [if_neg (by simpa using hself), hd]
  dsimp only
  rw [if_neg hkind]

theorem resolveDepends_onWay {name : String} (h : g.OnWay chain d) :
    g.resolveDepends b resolve chain name d kwargs s =
      (.error (.cycle (chain ++ [g.override d.dependency])), s) :=
  if_pos h

theorem resolveDepends_inCache {name : String} {o : O} (hway : ¬ g.OnWay chain d)
    (h : g.InCache s d o) : g.resolveDepends b resolve chain name d kwargs s =
      (.ok (Assoc.set kwargs name (.resolved (g.override d.dependency) o)), s) := by
  refine (if_neg hway).trans ?_
  rw [if_pos h.1, h.2]

theorem lookup_eq_none (h : ∀ o, ¬ g.InCache s d o) :
    (if d.useCache then s.cache.lookup (g.override d.dependency) else none) = none := by
  rw [Option.eq_none_iff_forall_ne_some]
  intro o ho
  by_cases hcache : d.useCache = true
  · rw [if_pos hcache] at ho
    exact h o ⟨hcache, ho⟩
  · rw [if_neg hcache] at ho
    cases ho

theorem resolveDepends_fresh {name : String} (hway : ¬ g.OnWay chain d)
    (h : ∀ o, ¬ g.InCache s d o) : g.resolveDepends b resolve chain name d kwargs s =
      match resolve (g.override d.dependency) (chain ++ [g.override d.dependency]) s with
      | (.error x, s) => (.error x, s)
      | (.ok sub, s) =>
        match g.execute b (g.override d.dependency) sub s with
        | (.error x, s) => (.error x, s)
        | (.ok o, s) =>
          (.ok (Assoc.set kwargs name (.resolved (g.override d.dependency) o)),
            g.cached d o s) := by
  refine (if_neg hway).trans ?_
  rw [lookup_eq_none h]
  rfl

/-! ### The rules and the function -/

/-- What the rules say is what is computed. -/
theorem Runs.resolveParams {n : ℕ} (h : Runs g b context n func chain ps kwargs s r s') :
    g.resolveParams b (g.resolveDependencies b context n []) context [] func chain ps kwargs s =
      (r, s') := by
  induction h with
  | nil => rfl
  | plain hplain hkwargs hrest ih =>
    rw [DependencyGraph.resolveParams, resolveParam_plain hplain, hkwargs]
    exact ih
  | required hplain hx =>
    rw [DependencyGraph.resolveParams, resolveParam_plain hplain, hx]
  | cycle hfilled hway =>
    rw [DependencyGraph.resolveParams, resolveParam_filled hfilled, resolveDepends_onWay hway]
  | hit hfilled hway hcache hrest ih =>
    rw [DependencyGraph.resolveParams, resolveParam_filled hfilled,
      resolveDepends_inCache hway hcache]
    exact ih
  | limit hfilled hway hcache =>
    rw [DependencyGraph.resolveParams, resolveParam_filled hfilled,
      resolveDepends_fresh hway hcache]
    rfl
  | failed hfilled hway hcache hsub ih =>
    rw [DependencyGraph.resolveParams, resolveParam_filled hfilled,
      resolveDepends_fresh hway hcache, resolveDependencies, ih]
  | raised hfilled hway hcache hsub hx ih =>
    rw [DependencyGraph.resolveParams, resolveParam_filled hfilled,
      resolveDepends_fresh hway hcache, resolveDependencies, ih]
    dsimp only
    rw [hx]
  | executed hfilled hway hcache hsub ho hrest ihsub ihrest =>
    rw [DependencyGraph.resolveParams, resolveParam_filled hfilled,
      resolveDepends_fresh hway hcache, resolveDependencies, ihsub]
    dsimp only
    rw [ho]
    exact ihrest

/-- There is always a way on. -/
theorem exists_runs (n : ℕ) : ∀ (ps : List (Param F O)) (func : F) (chain : List F)
    (kwargs : Kwargs F W O) (s : Injecting F W O E),
    ∃ r s', Runs g b context n func chain ps kwargs s r s' := by
  induction n using Nat.strong_induction_on with
  | _ n ihn =>
  intro ps
  induction ps with
  | nil => exact fun func chain kwargs s => ⟨_, _, .nil⟩
  | cons p ps ih =>
    intro func chain kwargs s
    by_cases hplain : ∀ d, ¬ p.Filled d
    · cases hkwargs : (p.plain context func kwargs : Except (CallFault F E) _) with
      | error x => exact ⟨_, _, .required hplain hkwargs⟩
      | ok kwargs' =>
        obtain ⟨r, s', hrest⟩ := ih func chain kwargs' s
        exact ⟨r, s', .plain hplain hkwargs hrest⟩
    simp only [not_forall, not_not] at hplain
    obtain ⟨d, hfilled⟩ := hplain
    by_cases hway : g.OnWay chain d
    · exact ⟨_, _, .cycle hfilled hway⟩
    by_cases hcache : ∀ o, ¬ g.InCache s d o
    · cases n with
      | zero => exact ⟨_, _, .limit hfilled hway hcache⟩
      | succ n =>
        obtain ⟨r, s₁, hsub⟩ := ihn n n.lt_succ_self
          (g.signature (g.override d.dependency)).params (g.override d.dependency)
          (chain ++ [g.override d.dependency]) [] s
        cases r with
        | error x => exact ⟨_, _, .failed hfilled hway hcache hsub⟩
        | ok sub =>
          rcases ho : g.execute b (g.override d.dependency) sub s₁ with ⟨x | o, s₂⟩
          · exact ⟨_, _, .raised hfilled hway hcache hsub ho⟩
          · obtain ⟨r, s', hrest⟩ := ih func chain
              (Assoc.set kwargs p.name (.resolved (g.override d.dependency) o)) (g.cached d o s₂)
            exact ⟨r, s', .executed hfilled hway hcache hsub ho hrest⟩
    · simp only [not_forall, not_not] at hcache
      obtain ⟨o, ho⟩ := hcache
      obtain ⟨r, s', hrest⟩ := ih func chain
        (Assoc.set kwargs p.name (.resolved (g.override d.dependency) o)) s
      exact ⟨r, s', .hit hfilled hway ho hrest⟩

/-- What is computed is what the rules say. -/
theorem runs_resolveDependencies (n : ℕ) (func : F) (chain : List F) (s : Injecting F W O E) :
    Runs g b context n func chain (g.signature func).params [] s
      (g.resolveDependencies b context (n + 1) [] func chain s).1
      (g.resolveDependencies b context (n + 1) [] func chain s).2 := by
  obtain ⟨r, s', h⟩ : ∃ r s', Runs g b context n func chain (g.signature func).params [] s r s' :=
    exists_runs n _ _ _ _ _
  rw [resolveDependencies, h.resolveParams]
  exact h

/-- With more calls left it is the same, unless the limit was reached. -/
theorem Runs.succ {n : ℕ} (h : Runs g b context n func chain ps kwargs s r s') :
    r ≠ .error .recursion → Runs g b context (n + 1) func chain ps kwargs s r s' := by
  induction h with
  | nil => exact fun _ => .nil
  | plain hplain hkwargs hrest ih => exact fun hr => .plain hplain hkwargs (ih hr)
  | required hplain hx => exact fun _ => .required hplain hx
  | cycle hfilled hway => exact fun _ => .cycle hfilled hway
  | hit hfilled hway hcache hrest ih => exact fun hr => .hit hfilled hway hcache (ih hr)
  | limit hfilled hway hcache => exact fun hr => absurd rfl hr
  | failed hfilled hway hcache hsub ih =>
    refine fun hr => .failed hfilled hway hcache (ih fun hx => hr ?_)
    rw [Except.error.inj hx]
  | raised hfilled hway hcache hsub hx ih =>
    exact fun _ => .raised hfilled hway hcache (ih fun hsub => nomatch hsub) hx
  | executed hfilled hway hcache hsub ho hrest ihsub ihrest =>
    exact fun hr => .executed hfilled hway hcache (ihsub fun hsub => nomatch hsub) ho (ihrest hr)

/-- So it is from there on. -/
theorem Runs.mono {n m : ℕ} (h : Runs g b context n func chain ps kwargs s r s')
    (hr : r ≠ .error .recursion) (hnm : n ≤ m) :
    Runs g b context m func chain ps kwargs s r s' := by
  induction m, hnm using Nat.le_induction with
  | base => exact h
  | succ m hnm ih => exact ih.succ hr

/-! ### The walk -/

/-- The callables with a value in the cache. -/
def keys (s : Injecting F W O E) : Set F := {f | ∃ o, s.cache.lookup f = some o}

theorem known_iff : Arc.Known (keys s) (g.arc d) ↔ ∃ o, g.InCache s d o :=
  ⟨fun ⟨hcache, o, ho⟩ => ⟨o, hcache, ho⟩, fun ⟨o, hcache, ho⟩ => ⟨hcache, o, ho⟩⟩

theorem keys_cached {o : O} : keys (g.cached d o s) = Arc.share (keys s) (g.arc d) := by
  unfold cached
  ext f
  by_cases hcache : d.useCache = true
  · rw [if_pos hcache]
    show (∃ o', (Assoc.set s.cache (g.override d.dependency) o).lookup f = some o') ↔ _
    rw [Assoc.lookup_set]
    by_cases hf : f = g.override d.dependency
    · rw [if_pos hf]
      exact iff_of_true ⟨o, rfl⟩ (.inr ⟨hcache, hf.symm⟩)
    · rw [if_neg hf]
      exact (or_iff_left fun h => hf h.2.symm).symm
  · rw [if_neg hcache]
    exact (or_iff_left fun h => hcache h.1).symm

/-- What is left behind where a dependency was called. -/
def ran (s : Injecting F W O E) (f : F) (sub : Kwargs F W O) (result : Except E O) :
    Injecting F W O E :=
  { s with log := s.log ++ [.executed f sub result] }

omit [DecidableEq F] in
theorem execute_cases (g : DependencyGraph F H O) (b : Bodies F W O E) (f : F) (sub : Kwargs F W O)
    (s : Injecting F W O E) :
    (∃ e, b.run f sub s.log = .error e ∧
      g.execute b f sub s = (.error (.raised e), ran s f sub (.error e))) ∨
    ∃ o, b.run f sub s.log = .ok o ∧ g.execute b f sub s =
      (.ok o, if (g.kind f).yields then (ran s f sub (.ok o)).enter f
        else ran s f sub (.ok o)) := by
  unfold execute
  cases b.run f sub s.log with
  | error e => exact .inl ⟨e, rfl, rfl⟩
  | ok o => exact .inr ⟨o, rfl, rfl⟩

omit [DecidableEq F] in
theorem execute_cache (g : DependencyGraph F H O) (b : Bodies F W O E) (f : F) (sub : Kwargs F W O)
    (s : Injecting F W O E) : (g.execute b f sub s).2.cache = s.cache := by
  rcases g.execute_cases b f sub s with ⟨e, -, he⟩ | ⟨o, -, ho⟩
  · rw [he]
    rfl
  · rw [ho]
    dsimp only
    split_ifs <;> rfl

/-- How a resolution ends, as a walk has it. -/
def walked (r : Except (CallFault F E) (Kwargs F W O)) (s : Injecting F W O E) : Option (Set F) :=
  match r with
  | .ok _ => some (keys s)
  | .error _ => none

/-- The resolution did not end where the application or the interpreter raised. -/
def Settled (r : Except (CallFault F E) (Kwargs F W O)) : Prop :=
  ∀ x, r = .error x → ∃ chain, x = .cycle chain

/-- **A resolution is a walk.** -/
theorem Runs.walk {n : ℕ} (h : Runs g b context n func chain ps kwargs s r s') :
    Settled r → Arc.Walk g.arcs chain (g.arcsOf ps) (keys s) (walked r s') := by
  induction h with
  | nil => exact fun _ => .nil
  | plain hplain hkwargs hrest ih =>
    rw [arcsOf_cons_plain hplain]
    exact ih
  | required hplain hx =>
    intro hr
    obtain ⟨chain, rfl⟩ := hr _ rfl
    cases (Param.plain_error hplain hx).2
  | cycle hfilled hway =>
    rw [arcsOf_cons_filled hfilled]
    exact fun _ => .stop hway
  | hit hfilled hway hcache hrest ih =>
    rw [arcsOf_cons_filled hfilled]
    exact fun hr => .skip hway (known_iff.mpr ⟨_, hcache⟩) (ih hr)
  | limit hfilled hway hcache =>
    intro hr
    obtain ⟨chain, hchain⟩ := hr _ rfl
    cases hchain
  | failed hfilled hway hcache hsub ih =>
    rw [arcsOf_cons_filled hfilled]
    intro hr
    refine .fail hway (fun hknown => ?_) (ih fun x hx => hr x ?_)
    · obtain ⟨o, ho⟩ := known_iff.mp hknown
      exact hcache o ho
    · rw [Except.error.inj hx]
  | @raised n func chain p ps d kwargs s sub s₁ x s' hfilled hway hcache hsub hx ih =>
    intro hr
    obtain ⟨chain, rfl⟩ := hr _ rfl
    rcases g.execute_cases b (g.override d.dependency) sub s₁ with ⟨e, -, he⟩ | ⟨o, -, ho⟩
    · rw [he] at hx
      cases hx
    · rw [ho] at hx
      cases hx
  | @executed n func chain p ps d kwargs s sub s₁ o s₂ r s' hfilled hway hcache hsub ho hrest ihsub
      ihrest =>
    rw [arcsOf_cons_filled hfilled]
    intro hr
    have hkeys : keys (g.cached d o s₂) = Arc.share (keys s₁) (g.arc d) := by
      have hcache := g.execute_cache b (g.override d.dependency) sub s₁
      rw [ho] at hcache
      rw [keys_cached, keys, keys, hcache]
    refine .down hway (fun hknown => ?_) (ihsub fun x hx => nomatch hx) ?_
    · obtain ⟨o, ho⟩ := known_iff.mp hknown
      exact hcache o ho
    · rw [← hkeys]
      exact ihrest hr

/-! ### The recursion limit -/

/-- A resolution that has as many calls left as there are callables does not reach the limit. -/
theorem Runs.not_recursion {n : ℕ} (h : Runs g b context n func chain ps kwargs s r s')
    (all : Finset F) (hall : ∀ f ∈ all, ∀ a ∈ g.arcs f, a.target ∈ all) :
    (∀ a ∈ g.arcsOf ps, a.target ∈ all) → chain.Nodup → (∀ f ∈ chain, f ∈ all) →
      all.card ≤ n + chain.length → r ≠ .error .recursion := by
  have hextend : ∀ {chain : List F} {d : Depends F}, ¬ g.OnWay chain d →
      g.override d.dependency ∈ all → chain.Nodup → (∀ f ∈ chain, f ∈ all) →
      (chain ++ [g.override d.dependency]).Nodup ∧
        (∀ f ∈ chain ++ [g.override d.dependency], f ∈ all) := by
    intro chain d hway hmem hnodup hchain
    rw [← List.concat_eq_append]
    refine ⟨hnodup.concat fun h => hway (.inr h), ?_⟩
    intro f hf
    rw [List.concat_eq_append] at hf
    rcases List.mem_append.mp hf with hold | hnew
    · exact hchain f hold
    · rw [List.mem_singleton.mp hnew]
      exact hmem
  induction h with
  | nil => exact fun _ _ _ _ hr => nomatch hr
  | plain hplain hkwargs hrest ih =>
    rw [arcsOf_cons_plain hplain]
    exact ih
  | required hplain hx =>
    rw [(Param.plain_error hplain hx).2]
    exact fun _ _ _ _ hr => nomatch hr
  | cycle hfilled hway => exact fun _ _ _ _ hr => nomatch hr
  | hit hfilled hway hcache hrest ih =>
    rw [arcsOf_cons_filled hfilled]
    exact fun harcs => ih fun a ha => harcs a (List.mem_cons_of_mem _ ha)
  | @limit func chain p ps d kwargs s hfilled hway hcache =>
    rw [arcsOf_cons_filled hfilled]
    intro harcs hnodup hchain hcard
    obtain ⟨hnodup', hchain'⟩ := hextend hway (harcs _ List.mem_cons_self) hnodup hchain
    have hle : (chain ++ [g.override d.dependency]).length ≤ all.card := by
      rw [← List.toFinset_card_of_nodup hnodup']
      exact Finset.card_le_card fun f hf => hchain' f (List.mem_toFinset.mp hf)
    rw [List.length_append, List.length_singleton] at hle
    omega
  | failed hfilled hway hcache hsub ih =>
    rw [arcsOf_cons_filled hfilled]
    intro harcs hnodup hchain hcard hr
    have hmem := harcs _ List.mem_cons_self
    obtain ⟨hnodup', hchain'⟩ := hextend hway hmem hnodup hchain
    refine ih (fun a ha => hall _ hmem a ha) hnodup' hchain' ?_ ?_
    · rw [List.length_append, List.length_singleton]
      omega
    · rw [Except.error.inj hr]
  | @raised n func chain p ps d kwargs s sub s₁ x s' hfilled hway hcache hsub hx ih =>
    rcases g.execute_cases b (g.override d.dependency) sub s₁ with ⟨e, -, he⟩ | ⟨o, -, ho⟩
    · rw [he] at hx
      obtain ⟨hx, -⟩ := Prod.mk.inj hx
      rw [← Except.error.inj hx]
      exact fun _ _ _ _ hr => nomatch hr
    · rw [ho] at hx
      cases hx
  | executed hfilled hway hcache hsub ho hrest ihsub ihrest =>
    rw [arcsOf_cons_filled hfilled]
    exact fun harcs => ihrest fun a ha => harcs a (List.mem_cons_of_mem _ ha)

end DependencyGraph

end Istos
