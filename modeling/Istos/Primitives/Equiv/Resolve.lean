import Istos.Data.Fold
import Istos.Primitives.Inject
import Mathlib.Logic.Relation

/-!
# The dependencies of a call

`resolve_dependencies` fills every `Depends` parameter with what its dependency returned, leaves
every other parameter what the context has for it, and gives `**kwargs` the rest of the context
(`handing_resolveDependencies`).  Two contexts that hand the same to every function on the way are
resolved alike (`resolveDependencies_congr`); where they do not, there are bodies for which what is
returned tells them apart (`returns_unmarked`, `returns_marked`).
-/

namespace Istos

variable {F H W O E : Type}

namespace Param

/-- The dependency that `resolve_dependencies` fills the parameter with. -/
def Filled (p : Param F O) (d : Depends F) : Prop :=
  p.extractDepends = some d ∧ p.name ≠ "self" ∧ p.kind ≠ .varKeyword

/-- The names that are filled from the context or with a dependency. -/
def taken (ps : List (Param F O)) : List String :=
  (ps.filter fun p => decide (p.name ≠ "self") &&
    (p.extractDepends.isNone || decide (p.kind ≠ .varKeyword))).map name

/-- Whether `**kwargs` takes the rest of a context: it does not when the context has its own name.
-/
def splats (ps : List (Param F O)) (context : Kwargs F W O) : Bool :=
  ps.any fun p => decide (p.kind = .varKeyword ∧ p.name ≠ "self") &&
    (p.extractDepends.isSome || (context.lookup p.name).isNone)

/-- What `**kwargs` takes. -/
def rest (ps : List (Param F O)) (context : Kwargs F W O) : Kwargs F W O :=
  if splats ps context then context.filter fun x => decide (x.1 ∉ taken ps) else []

/-- What the context has of the keywords of a call, beside what the dependencies return. -/
structure Handed (ps : List (Param F O)) (context kwargs : Kwargs F W O) : Prop where
  plain : ∀ p ∈ ps, p.name ≠ "self" → p.extractDepends = none →
    kwargs.lookup p.name = context.lookup p.name
  rest : (kwargs.filter fun x => decide (x.1 ∉ taken ps)) = rest ps context

/-- Two contexts hand the same to a call. -/
structure HandedAlike (ps : List (Param F O)) (context context' : Kwargs F W O) : Prop where
  plain : ∀ p ∈ ps, p.name ≠ "self" → p.extractDepends = none →
    context.lookup p.name = context'.lookup p.name
  rest : rest ps context = rest ps context'

/-- Whether a name of the context is read: by a plain parameter, or by `**kwargs` where no parameter
takes it first. -/
def Reads (ps : List (Param F O)) (k : String) : Prop :=
  (∃ p ∈ ps, p.extractDepends = none ∧ p.name = k) ∨
    k ∉ taken ps ∧ ∃ p ∈ ps, p.kind = .varKeyword

variable {p : Param F O} {ps : List (Param F O)} {context context' kwargs : Kwargs F W O}

theorem mem_taken {k : String} : k ∈ taken ps ↔ ∃ p ∈ ps, p.name = k ∧ p.name ≠ "self" ∧
    (p.extractDepends = none ∨ ∃ d, p.Filled d) := by
  rw [taken, List.mem_map]
  constructor
  · rintro ⟨p, hp, rfl⟩
    obtain ⟨hmem, hcond⟩ := List.mem_filter.mp hp
    obtain ⟨hself, hkind⟩ := Bool.and_eq_true_iff.mp hcond
    refine ⟨p, hmem, rfl, of_decide_eq_true hself, ?_⟩
    cases hd : p.extractDepends with
    | none => exact .inl rfl
    | some d =>
      rw [hd] at hkind
      exact .inr ⟨d, hd, of_decide_eq_true hself, of_decide_eq_true hkind⟩
  · rintro ⟨p, hmem, rfl, hself, htakes⟩
    refine ⟨p, List.mem_filter.mpr ⟨hmem, ?_⟩, rfl⟩
    rw [decide_eq_true hself, Bool.true_and]
    rcases htakes with hnone | ⟨d, hd⟩
    · rw [hnone]
      rfl
    · rw [decide_eq_true hd.2.2, Bool.or_true]

theorem mem_taken_append {k : String} (hk : k ∈ taken ps) : k ∈ taken (ps ++ [p]) := by
  obtain ⟨q, hq, htakes⟩ := mem_taken.mp hk
  exact mem_taken.mpr ⟨q, List.mem_append_left _ hq, htakes⟩

theorem splats_eq_true : splats ps context = true ↔ ∃ p ∈ ps, p.kind = .varKeyword ∧
    p.name ≠ "self" ∧ (p.extractDepends = none → context.lookup p.name = none) := by
  rw [splats, List.any_eq_true]
  refine exists_congr fun p => and_congr_right fun _ => ?_
  rw [Bool.and_eq_true_iff, decide_eq_true_iff, and_assoc]
  cases p.extractDepends <;> simp

/-- Before `**kwargs` nothing takes the rest. -/
theorem rest_eq_nil (h : ∀ p ∈ ps, p.kind = .varKeyword → p.name ≠ "self" →
    p.extractDepends = none ∧ context.lookup p.name ≠ none) : rest ps context = [] := by
  refine if_neg fun hsplats => ?_
  obtain ⟨p, hp, hkind, hself, hnone⟩ := splats_eq_true.mp hsplats
  obtain ⟨hplain, hdelivered⟩ := h p hp hkind hself
  exact hdelivered (hnone hplain)

/-- What two contexts have in common for a call is all that either has. -/
theorem Handed.alike (h : Handed ps context kwargs) (h' : Handed ps context' kwargs) :
    HandedAlike ps context context' where
  plain p hp hself hnone := (h.plain p hp hself hnone).symm.trans (h'.plain p hp hself hnone)
  rest := h.rest.symm.trans h'.rest

/-- Contexts that differ in names that are not read hand the same. -/
theorem handedAlike_of_not_reads {names : List String} (hreads : ∀ k ∈ names, ¬Reads ps k)
    (h : (context.filter fun x => decide (x.1 ∉ names)) =
      context'.filter fun x => decide (x.1 ∉ names)) : HandedAlike ps context context' := by
  have hplain : ∀ p ∈ ps, p.extractDepends = none →
      context.lookup p.name = context'.lookup p.name := by
    intro p hp hnone
    refine Assoc.lookup_eq_of_filter (p := fun k => decide (k ∉ names)) h ?_
    exact decide_eq_true fun hk => hreads _ hk (.inl ⟨p, hp, hnone, rfl⟩)
  refine ⟨fun p hp _ hnone => hplain p hp hnone, ?_⟩
  have hsplats : splats ps context = splats ps context' := by
    rw [Bool.eq_iff_iff, splats_eq_true, splats_eq_true]
    refine exists_congr fun p => and_congr_right fun hp => and_congr_right fun _ =>
      and_congr_right fun _ => ?_
    exact imp_congr_right fun hnone => by rw [hplain p hp hnone]
  unfold rest
  rw [hsplats]
  by_cases htrue : splats ps context' = true
  · rw [if_pos htrue, if_pos htrue]
    obtain ⟨p, hp, hkind, -⟩ := splats_eq_true.mp htrue
    have hcut : ∀ l : Kwargs F W O, l.filter (fun x => decide (x.1 ∉ taken ps)) =
        (l.filter fun x => decide (x.1 ∉ names)).filter fun x => decide (x.1 ∉ taken ps) := by
      intro l
      rw [List.filter_filter]
      refine List.filter_congr fun x _ => ?_
      by_cases hx : x.1 ∈ taken ps
      · simp [hx]
      · have hx' : x.1 ∉ names := fun hk => hreads _ hk (.inr ⟨hx, p, hp, hkind⟩)
        rw [decide_eq_true hx, decide_eq_true hx', Bool.and_true]
    rw [hcut context, hcut context', h]
  · rw [if_neg htrue, if_neg htrue]

end Param

/-- Parameters one after the other have different names. -/
theorem Signature.fresh (sig : Signature F H O) {p : Param F O}
    {passed rest : List (Param F O)} (h : sig.params = passed ++ p :: rest) :
    p.name ∉ passed.map Param.name := by
  have hnodup := sig.nodup
  rw [h, List.map_append, List.nodup_append] at hnodup
  intro hmem
  exact hnodup.2.2 _ hmem _ (List.mem_map_of_mem List.mem_cons_self) rfl

/-- A parameter is known by its name. -/
theorem Signature.eq_of_name (sig : Signature F H O) {p q : Param F O} (hp : p ∈ sig.params)
    (hq : q ∈ sig.params) (h : p.name = q.name) : p = q :=
  List.inj_on_of_nodup_map sig.nodup hp hq h

theorem Signature.rest_eq_nil (sig : Signature F H O) {p : Param F O}
    {passed rest : List (Param F O)}
    (h : sig.params = passed ++ p :: rest) (hkind : p.kind = .varKeyword) : rest = [] := by
  by_contra hrest
  refine sig.last p ?_ hkind
  rw [h, List.dropLast_append_of_ne_nil (List.cons_ne_nil p rest),
    List.dropLast_cons_of_ne_nil hrest]
  exact List.mem_append_right _ List.mem_cons_self

/-- `**kwargs` is the last parameter. -/
theorem Signature.kind_ne_varKeyword (sig : Signature F H O) {p : Param F O}
    {passed rest : List (Param F O)} (h : sig.params = passed ++ p :: rest) :
    ∀ q ∈ passed, q.kind ≠ .varKeyword := by
  intro q hq
  refine sig.last q ?_
  rw [h, List.dropLast_append_of_ne_nil (List.cons_ne_nil p rest)]
  exact List.mem_append_left _ hq

namespace Injector

/-- `f` returned `o`, called with what its own dependencies returned. -/
inductive Resolved (inj : Injector F H W O E) : F → O → Prop
  | mk (f : F) (kwargs : Kwargs F W O) (o : O) (returned : Param F O → Depends F → O)
    (run : inj.run f kwargs = .ok o)
    (filled : ∀ p d, p ∈ (inj.signature f).params → p.Filled d →
      kwargs.lookup p.name = some (.resolved (inj.override d.dependency) (returned p d)))
    (resolved : ∀ p d, p ∈ (inj.signature f).params → p.Filled d →
      Resolved inj (inj.override d.dependency) (returned p d)) : Resolved inj f o

variable {inj : Injector F H W O E}

/-- The keywords have for a parameter what its dependency returned. -/
def Holds (inj : Injector F H W O E) (returned : F → O → Prop) (kwargs : Kwargs F W O)
    (p : Param F O) (d : Depends F) : Prop :=
  ∃ o, kwargs.lookup p.name = some (.resolved (inj.override d.dependency) o) ∧
    returned (inj.override d.dependency) o

theorem Resolved.of_run {f : F} {kwargs : Kwargs F W O} {o : O} (hrun : inj.run f kwargs = .ok o)
    (h : ∀ p d, p ∈ (inj.signature f).params → p.Filled d → inj.Holds inj.Resolved kwargs p d) :
    inj.Resolved f o := by
  have hall : ∀ (p : Param F O) (d : Depends F), ∃ o', p ∈ (inj.signature f).params → p.Filled d →
      kwargs.lookup p.name = some (.resolved (inj.override d.dependency) o') ∧
        inj.Resolved (inj.override d.dependency) o' := by
    intro p d
    by_cases hp : p ∈ (inj.signature f).params ∧ p.Filled d
    · obtain ⟨o', ho'⟩ := h p d hp.1 hp.2
      exact ⟨o', fun _ _ => ho'⟩
    · exact ⟨o, fun hmem hfilled => absurd ⟨hmem, hfilled⟩ hp⟩
  choose returned hreturned using hall
  exact .mk f kwargs o returned hrun (fun p d hp hd => (hreturned p d hp hd).1)
    fun p d hp hd => (hreturned p d hp hd).2

/-- What the dependencies return, when they are called with what a context hands to them. -/
def Returns (inj : Injector F H W O E) (context : Kwargs F W O) (returned : F → O → Prop) : Prop :=
  ∀ f kwargs o, inj.run f kwargs = .ok o →
    Param.Handed (inj.signature f).params context kwargs →
    (∀ p d, p ∈ (inj.signature f).params → p.Filled d → inj.Holds returned kwargs p d) →
      returned f o

theorem returns_resolved (inj : Injector F H W O E) (context : Kwargs F W O) :
    inj.Returns context inj.Resolved := fun _ _ _ hrun _ h => .of_run hrun h

/-- What is so after some of the parameters. -/
structure Filling (inj : Injector F H W O E) (existing : Kwargs F W O) (returned : F → O → Prop)
    [DecidableEq F] (passed : List (Param F O)) (s : Resolving F W O) : Prop where
  filled : ∀ p d, p ∈ passed → p.Filled d → inj.Holds returned s.kwargs p d
  plain : ∀ p v, p ∈ passed → p.name ≠ "self" → p.extractDepends = none →
    existing.lookup p.name = some v → s.kwargs.lookup p.name = some v
  origin : ∀ k v, s.kwargs.lookup k = some v → existing.lookup k = some v ∨
    ∃ p d o, p ∈ passed ∧ p.name = k ∧ p.Filled d ∧ v = .resolved (inj.override d.dependency) o
  cached : ∀ f o, s.cache.lookup f = some o → returned f o

/-- And nothing else is there. -/
structure Handing (inj : Injector F H W O E) (existing : Kwargs F W O) (returned : F → O → Prop)
    [DecidableEq F] (passed : List (Param F O)) (s : Resolving F W O) : Prop extends
    inj.Filling existing returned passed s where
  rest : (s.kwargs.filter fun x => decide (x.1 ∉ Param.taken passed)) = Param.rest passed existing

section

variable [DecidableEq F] {existing : Kwargs F W O} {returned : F → O → Prop}
  {passed : List (Param F O)} {s : Resolving F W O} {p : Param F O}

theorem handing_nil {cache : List (F × O)}
    (hcache : ∀ f o, cache.lookup f = some o → returned f o) :
    inj.Handing existing returned [] ⟨cache, []⟩ where
  filled _ _ hp := absurd hp List.not_mem_nil
  plain _ _ hp := absurd hp List.not_mem_nil
  origin _ _ hk := by cases hk
  cached := hcache
  rest := rfl

/-- Before `**kwargs` every keyword is the name of a parameter. -/
theorem Handing.mem_taken (h : inj.Handing existing returned passed s)
    (hlast : ∀ q ∈ passed, q.kind ≠ .varKeyword) {k : String} (hk : k ∈ s.kwargs.map Prod.fst) :
    k ∈ Param.taken passed := by
  obtain ⟨x, hx, rfl⟩ := List.mem_map.mp hk
  have hnil : (s.kwargs.filter fun x => decide (x.1 ∉ Param.taken passed)) = [] :=
    h.rest.trans (Param.rest_eq_nil fun q hq hkind => absurd hkind (hlast q hq))
  by_contra hnot
  exact List.filter_eq_nil_iff.mp hnil x hx (decide_eq_true hnot)

/-- One parameter more: what was there stays there. -/
theorem Filling.next {cache : List (F × O)} {kwargs : Kwargs F W O}
    (h : inj.Filling existing returned passed s)
    (hkeep : ∀ k v, s.kwargs.lookup k = some v → kwargs.lookup k = some v)
    (hfilled : ∀ d, p.Filled d → inj.Holds returned kwargs p d)
    (hplain : ∀ v, p.name ≠ "self" → p.extractDepends = none → existing.lookup p.name = some v →
      kwargs.lookup p.name = some v)
    (horigin : ∀ k v, kwargs.lookup k = some v → s.kwargs.lookup k = some v ∨
      existing.lookup k = some v ∨
      ∃ d o, p.name = k ∧ p.Filled d ∧ v = .resolved (inj.override d.dependency) o)
    (hcached : ∀ f o, cache.lookup f = some o → returned f o) :
    inj.Filling existing returned (passed ++ [p]) ⟨cache, kwargs⟩ where
  filled := by
    intro q d hq hd
    rcases List.mem_append.mp hq with hold | hnew
    · obtain ⟨o, ho, hres⟩ := h.filled q d hold hd
      exact ⟨o, hkeep _ _ ho, hres⟩
    · obtain rfl := List.mem_singleton.mp hnew
      exact hfilled d hd
  plain := by
    intro q v hq hself hnone hv
    rcases List.mem_append.mp hq with hold | hnew
    · exact hkeep _ _ (h.plain q v hold hself hnone hv)
    · obtain rfl := List.mem_singleton.mp hnew
      exact hplain v hself hnone hv
  origin := by
    intro k v hk
    rcases horigin k v hk with hold | hext | ⟨d, o, hname, hd, hv⟩
    · rcases h.origin k v hold with hext | ⟨q, d, o, hq, hrest⟩
      · exact .inl hext
      · exact .inr ⟨q, d, o, List.mem_append_left _ hq, hrest⟩
    · exact .inl hext
    · exact .inr ⟨p, d, o, List.mem_append_right _ List.mem_cons_self, hname, hd, hv⟩
  cached := hcached

/-- A parameter that nothing fills. -/
theorem Handing.skip (h : inj.Handing existing returned passed s)
    (hlast : ∀ q ∈ passed, q.kind ≠ .varKeyword) (hfilled : ∀ d, ¬p.Filled d)
    (hplain : p.name ≠ "self" → p.extractDepends = none → existing.lookup p.name = none)
    (hkind : p.name ≠ "self" → p.kind ≠ .varKeyword) :
    inj.Handing existing returned (passed ++ [p]) s where
  toFilling := h.toFilling.next (fun _ _ hk => hk) (fun d hd => absurd hd (hfilled d))
    (fun v hself hnone hv => by rw [hplain hself hnone] at hv; cases hv)
    (fun _ _ hk => .inl hk) h.cached
  rest := by
    rw [Param.rest_eq_nil, List.filter_eq_nil_iff]
    · intro x hx hnot
      exact of_decide_eq_true hnot
        (Param.mem_taken_append (h.mem_taken hlast (List.mem_map_of_mem hx)))
    · intro q hq hvar hself
      rcases List.mem_append.mp hq with hold | hnew
      · exact absurd hvar (hlast q hold)
      · obtain rfl := List.mem_singleton.mp hnew
        exact absurd hvar (hkind hself)

/-- `**kwargs` takes the rest. -/
theorem Handing.splat (h : inj.Handing existing returned passed s)
    (hlast : ∀ q ∈ passed, q.kind ≠ .varKeyword) (hkind : p.kind = .varKeyword)
    (hself : p.name ≠ "self") (hplain : p.extractDepends = none → existing.lookup p.name = none) :
    inj.Handing existing returned (passed ++ [p]) { s with
      kwargs := s.kwargs ++ existing.filter fun x => decide (x.1 ∉ s.kwargs.map Prod.fst) } := by
  have hlookup : ∀ k, (s.kwargs ++ existing.filter fun x =>
      decide (x.1 ∉ s.kwargs.map Prod.fst)).lookup k = (s.kwargs.lookup k).or
        (if k ∉ s.kwargs.map Prod.fst then existing.lookup k else none) := by
    intro k
    rw [List.lookup_append, Assoc.lookup_filter fun k => decide (k ∉ s.kwargs.map Prod.fst)]
    simp only [decide_eq_true_eq]
  refine ⟨h.toFilling.next ?_ (fun d hd => absurd hkind hd.2.2) ?_ ?_ h.cached, ?_⟩
  · intro k v hk
    rw [hlookup, hk]
    rfl
  · intro v _ hnone hv
    rw [hplain hnone] at hv
    cases hv
  · intro k v hk
    rw [hlookup] at hk
    cases hold : s.kwargs.lookup k with
    | some w =>
      rw [hold] at hk
      exact .inl hk
    | none =>
      rw [hold, Option.none_or] at hk
      split at hk
      · exact .inr (.inl hk)
      · cases hk
  · have htaken : ∀ k ∈ s.kwargs.map Prod.fst, k ∈ Param.taken (passed ++ [p]) := fun k hk =>
      Param.mem_taken_append (h.mem_taken hlast hk)
    have hsplats : Param.splats (passed ++ [p]) existing = true := Param.splats_eq_true.mpr
      ⟨p, List.mem_append_right _ List.mem_cons_self, hkind, hself, hplain⟩
    have hold : (s.kwargs.filter fun x => decide (x.1 ∉ Param.taken (passed ++ [p]))) = [] := by
      rw [List.filter_eq_nil_iff]
      exact fun x hx hnot => of_decide_eq_true hnot (htaken _ (List.mem_map_of_mem hx))
    rw [Param.rest, if_pos hsplats, List.filter_append, hold, List.nil_append, List.filter_filter]
    refine List.filter_congr fun x _ => ?_
    by_cases hx : x.1 ∈ Param.taken (passed ++ [p])
    · simp [hx]
    · have hx' : x.1 ∉ s.kwargs.map Prod.fst := fun hk => hx (htaken _ hk)
      rw [decide_eq_true hx, decide_eq_true hx', Bool.true_and]

/-- A parameter that nothing has filled yet is filled. -/
theorem Handing.set {cache : List (F × O)} {v : Arg F W O}
    (h : inj.Handing existing returned passed s) (hnew : p.name ∉ passed.map Param.name)
    (hlast : ∀ q ∈ passed, q.kind ≠ .varKeyword) (hself : p.name ≠ "self")
    (hfilled : ∀ d, p.Filled d → ∃ o, v = .resolved (inj.override d.dependency) o ∧
      returned (inj.override d.dependency) o)
    (hplain : p.extractDepends = none → existing.lookup p.name = some v)
    (hdepends : p.extractDepends ≠ none → ∃ d, p.Filled d)
    (hcached : ∀ f o, cache.lookup f = some o → returned f o) :
    inj.Handing existing returned (passed ++ [p]) ⟨cache, Assoc.set s.kwargs p.name v⟩ := by
  have hheld : (Assoc.set s.kwargs p.name v).lookup p.name = some v := by
    rw [Assoc.lookup_set, if_pos rfl]
  have hfresh : s.kwargs.lookup p.name = none := by
    refine Assoc.lookup_eq_none fun hk => hnew ?_
    obtain ⟨q, hq, hname, -⟩ := Param.mem_taken.mp (h.mem_taken hlast hk)
    exact hname ▸ List.mem_map_of_mem hq
  refine ⟨h.toFilling.next ?_ ?_ ?_ ?_ hcached, ?_⟩
  · intro k w hk
    rw [Assoc.lookup_set, if_neg]
    · exact hk
    · rintro rfl
      rw [hfresh] at hk
      cases hk
  · intro d hd
    obtain ⟨o, rfl, hres⟩ := hfilled d hd
    exact ⟨o, hheld, hres⟩
  · intro w _ hnone hw
    rw [hheld, ← hw, hplain hnone]
  · intro k w hk
    rw [Assoc.lookup_set] at hk
    split at hk
    · rename_i heq
      obtain rfl := Option.some.inj hk
      right
      cases hext : p.extractDepends with
      | none => exact .inl (heq ▸ hplain hext)
      | some d' =>
        obtain ⟨d, hd⟩ := hdepends (by rw [hext]; exact Option.some_ne_none d')
        obtain ⟨o, rfl, -⟩ := hfilled d hd
        exact .inr ⟨d, o, heq.symm, hd, rfl⟩
    · exact .inl hk
  · have htakes : p.name ∈ Param.taken (passed ++ [p]) := by
      refine Param.mem_taken.mpr
        ⟨p, List.mem_append_right _ List.mem_cons_self, rfl, hself, ?_⟩
      cases hext : p.extractDepends with
      | none => exact .inl rfl
      | some d' => exact .inr (hdepends (by rw [hext]; exact Option.some_ne_none d'))
    have hset := Assoc.filter_set_of_not (fun k => decide (k ∉ Param.taken (passed ++ [p])))
      s.kwargs v (k := p.name) (decide_eq_false (not_not.mpr htakes))
    dsimp only at hset ⊢
    rw [hset, Param.rest_eq_nil, List.filter_eq_nil_iff]
    · intro x hx hnot
      exact of_decide_eq_true hnot
        (Param.mem_taken_append (h.mem_taken hlast (List.mem_map_of_mem hx)))
    · intro q hq hvar _
      rcases List.mem_append.mp hq with hold | hlater
      · exact absurd hvar (hlast q hold)
      · obtain rfl := List.mem_singleton.mp hlater
        cases hext : q.extractDepends with
        | none => exact ⟨rfl, by rw [hplain hext]; exact Option.some_ne_none v⟩
        | some d' =>
          obtain ⟨d, hd⟩ := hdepends (by rw [hext]; exact Option.some_ne_none d')
          exact absurd hvar hd.2.2

/-- All keywords of a call. -/
theorem Handing.handed {sig : Signature F H O} (h : inj.Handing existing returned sig.params s) :
    Param.Handed sig.params existing s.kwargs where
  plain := by
    intro p hp hself hnone
    cases hv : existing.lookup p.name with
    | some v => exact h.plain p v hp hself hnone hv
    | none =>
      cases hk : s.kwargs.lookup p.name with
      | none => rfl
      | some v =>
        rcases h.origin _ _ hk with hext | ⟨q, d, o, hq, hname, hd, -⟩
        · rw [hv] at hext
          cases hext
        · rw [sig.eq_of_name hq hp hname] at hd
          rw [hd.1] at hnone
          cases hnone
  rest := h.rest

/-- One parameter, where the recursive call does what it should. -/
theorem Handing.step
    {resolve : F → List F → List (F × O) → Except (CallFault F E) (Resolving F W O)}
    {func : F} {chain : List F} {s' : Resolving F W O}
    (hreturns : inj.Returns existing returned) (h : inj.Handing existing returned passed s)
    (hnew : p.name ∉ passed.map Param.name) (hlast : ∀ q ∈ passed, q.kind ≠ .varKeyword)
    (hresolve : ∀ f chain cache sub, (∀ f o, cache.lookup f = some o → returned f o) →
      resolve f chain cache = .ok sub →
        inj.Handing existing returned (inj.signature f).params sub)
    (hstep : inj.resolveParam resolve existing func chain s p = .ok s') :
    inj.Handing existing returned (passed ++ [p]) s' := by
  unfold resolveParam at hstep
  split at hstep
  · rename_i hself
    obtain rfl := Except.ok.inj hstep
    exact h.skip hlast (fun d hd => hd.2.1 hself) (fun hne => absurd hself hne)
      fun hne => absurd hself hne
  rename_i hself
  split at hstep
  · rename_i v hnone hv
    obtain rfl := Except.ok.inj hstep
    refine h.set hnew hlast hself ?_ (fun _ => hv) (fun hne => absurd hnone hne) h.cached
    intro d hd
    rw [hd.1] at hnone
    cases hnone
  rename_i depends existing' hplain
  have hplain' : p.extractDepends = none → existing.lookup p.name = none := by
    intro hnone
    cases hv : existing.lookup p.name with
    | none => rfl
    | some v => exact absurd hv (hplain v hnone)
  split at hstep
  · rename_i hkind
    -- the `**kwargs` parameter
    obtain rfl := Except.ok.inj hstep
    exact h.splat hlast hkind hself hplain'
  rename_i hkind
  split at hstep
  · rename_i d hd
    have hfilled : p.Filled d := ⟨hd, hself, hkind⟩
    -- what the dependency has returned is put under the name of the parameter
    have hset : ∀ cache o, (∀ f o, cache.lookup f = some o → returned f o) →
        returned (inj.override d.dependency) o → inj.Handing existing returned (passed ++ [p])
          ⟨cache, Assoc.set s.kwargs p.name (.resolved (inj.override d.dependency) o)⟩ := by
      intro cache o hcache hres
      refine h.set hnew hlast hself ?_ ?_ (fun _ => ⟨d, hfilled⟩) hcache
      · intro d' hd'
        obtain rfl := Option.some.inj (hd.symm.trans hd'.1)
        exact ⟨o, rfl, hres⟩
      · intro hnone
        rw [hd] at hnone
        cases hnone
    dsimp only at hstep
    split at hstep
    · cases hstep
    split at hstep
    · rename_i o ho
      obtain rfl := Except.ok.inj hstep
      refine hset s.cache o h.cached (h.cached _ o ?_)
      split at ho
      · exact ho
      · cases ho
    · split at hstep
      · cases hstep
      rename_i sub hsub
      have hsub' := hresolve _ _ _ sub h.cached hsub
      split at hstep
      · cases hstep
      rename_i o ho
      obtain rfl := Except.ok.inj hstep
      have hres : returned (inj.override d.dependency) o :=
        hreturns _ _ o ho hsub'.handed hsub'.filled
      refine hset _ o ?_ hres
      intro f o' hf
      split at hf
      · rw [Assoc.lookup_set] at hf
        split at hf
        · rename_i heq
          obtain rfl := Option.some.inj hf
          exact heq ▸ hres
        · exact hsub'.cached f o' hf
      · exact hsub'.cached f o' hf
  · rename_i hnone
    split at hstep
    · obtain rfl := Except.ok.inj hstep
      refine h.skip hlast (fun d hd => ?_) (fun _ => hplain') fun _ => hkind
      have hsome := hd.1
      rw [hnone] at hsome
      cases hsome
    · cases hstep

/-- `resolve_dependencies` fills all parameters, and what the dependencies return under the context
is what they hold. -/
theorem handing_resolveDependencies (hreturns : inj.Returns existing returned) (n : ℕ) :
    ∀ (func : F) (chain : List F) (cache : List (F × O)) (s : Resolving F W O),
    (∀ f o, cache.lookup f = some o → returned f o) →
    inj.resolveDependencies existing n func chain cache = .ok s →
    inj.Handing existing returned (inj.signature func).params s := by
  induction n with
  | zero => intro func chain cache s hcache h; cases h
  | succ n ih =>
    intro func chain cache s hcache h
    refine Fold.foldlM_invariant (P := inj.Handing existing returned) ?_ (handing_nil hcache) h
    intro passed p rest s s' hsplit hhanding hstep
    exact hhanding.step hreturns ((inj.signature func).fresh hsplit)
      ((inj.signature func).kind_ne_varKeyword hsplit) ih hstep

/-! ### Two contexts -/

/-- `g` is what a parameter of `f` is filled with. -/
def DependsOn (inj : Injector F H W O E) (f g : F) : Prop :=
  ∃ p ∈ (inj.signature f).params, ∃ d, p.Filled d ∧ g = inj.override d.dependency

theorem resolveParam_congr {existing' : Kwargs F W O}
    {resolve resolve' : F → List F → List (F × O) → Except (CallFault F E) (Resolving F W O)}
    {func : F} {chain : List F}
    (hplain : p.name ≠ "self" → p.extractDepends = none →
      existing.lookup p.name = existing'.lookup p.name)
    (hsplat : p.name ≠ "self" → p.kind = .varKeyword →
      (p.extractDepends = none → existing.lookup p.name = none) →
      existing.filter (fun x => decide (x.1 ∉ s.kwargs.map Prod.fst)) =
        existing'.filter fun x => decide (x.1 ∉ s.kwargs.map Prod.fst))
    (hresolve : ∀ d, p.Filled d → resolve (inj.override d.dependency) =
      resolve' (inj.override d.dependency)) :
    inj.resolveParam resolve existing func chain s p =
      inj.resolveParam resolve' existing' func chain s p := by
  unfold resolveParam
  by_cases hself : p.name = "self"
  · rw [if_pos hself, if_pos hself]
  rw [if_neg hself, if_neg hself]
  cases hd : p.extractDepends with
  | none =>
    have hsame := hplain hself hd
    cases hv : existing'.lookup p.name with
    | some v => rw [hsame, hv]
    | none =>
      rw [hv] at hsame
      rw [hsame]
      by_cases hkind : p.kind = .varKeyword
      · dsimp only
        rw [if_pos hkind, if_pos hkind, hsplat hself hkind fun _ => hsame]
      · dsimp only
        rw [if_neg hkind, if_neg hkind]
  | some d =>
    by_cases hkind : p.kind = .varKeyword
    · dsimp only
      rw [if_pos hkind, if_pos hkind,
        hsplat hself hkind fun hnone => by rw [hd] at hnone; cases hnone]
    · dsimp only
      rw [if_neg hkind, if_neg hkind, hresolve d ⟨hd, hself, hkind⟩]

/-- What `**kwargs` finds not to be taken yet is what no parameter takes. -/
theorem Handing.filter_eq {sig : Signature F H O} {context : Kwargs F W O}
    (h : inj.Handing existing returned passed s) (hsplit : sig.params = passed ++ [p])
    (hkind : p.kind = .varKeyword)
    (hplain : ∀ q ∈ sig.params, q.name ≠ "self" → q.extractDepends = none →
      existing.lookup q.name = context.lookup q.name)
    (hnone : p.name ≠ "self" → p.extractDepends = none → existing.lookup p.name = none) :
    context.filter (fun x => decide (x.1 ∉ s.kwargs.map Prod.fst)) =
      context.filter fun x => decide (x.1 ∉ Param.taken sig.params) := by
  refine List.filter_congr fun x hx => decide_eq_decide.mpr (not_congr ⟨fun hk => ?_, fun hk => ?_⟩)
  · rw [hsplit]
    exact Param.mem_taken_append (h.mem_taken (sig.kind_ne_varKeyword hsplit) hk)
  · obtain ⟨q, hq, hname, hself, htakes⟩ := Param.mem_taken.mp hk
    have hold : (∃ d, q.Filled d) ∨ q.extractDepends = none ∧ q.name ≠ p.name → q ∈ passed := by
      intro hcase
      rw [hsplit] at hq
      rcases List.mem_append.mp hq with hold | hlast
      · exact hold
      · obtain rfl := List.mem_singleton.mp hlast
        rcases hcase with ⟨d, hd⟩ | ⟨-, hne⟩
        · exact absurd hkind hd.2.2
        · exact absurd rfl hne
    rw [← hname, ← Assoc.lookup_isSome_iff]
    rcases htakes with hplainq | ⟨d, hd⟩
    · have hsome : (existing.lookup q.name).isSome = true := by
        rw [hplain q hq hself hplainq, hname]
        exact Assoc.lookup_isSome_iff.mpr (List.mem_map_of_mem hx)
      obtain ⟨v, hv⟩ := Option.isSome_iff_exists.mp hsome
      have hne : q.name ≠ p.name := by
        intro heq
        have hp : p ∈ sig.params := by
          rw [hsplit]
          exact List.mem_append_right _ List.mem_cons_self
        obtain rfl := sig.eq_of_name hq hp heq
        rw [hnone hself hplainq] at hv
        cases hv
      rw [h.plain q v (hold (.inr ⟨hplainq, hne⟩)) hself hplainq hv]
      rfl
    · obtain ⟨o, ho, -⟩ := h.filled q d (hold (.inl ⟨d, hd⟩)) hd
      rw [ho]
      rfl

/-- Two contexts that hand the same to every function on the way are resolved alike. -/
theorem resolveDependencies_congr {existing' : Kwargs F W O} (n : ℕ) : ∀ func,
    (∀ g, Relation.ReflTransGen inj.DependsOn func g →
      Param.HandedAlike (inj.signature g).params existing existing') →
    inj.resolveDependencies existing n func = inj.resolveDependencies existing' n func := by
  induction n with
  | zero => intro func halike; rfl
  | succ n ih =>
    intro func halike
    funext chain cache
    have hreturns : inj.Returns existing fun _ _ => True := fun _ _ _ _ _ _ => trivial
    have hfunc := halike func .refl
    refine Fold.foldlM_congr (P := inj.Handing existing fun _ _ => True) ?_ ?_
      (handing_nil fun _ _ _ => trivial)
    · intro passed p rest s s' hsplit hhanding hstep
      exact hhanding.step hreturns ((inj.signature func).fresh hsplit)
        ((inj.signature func).kind_ne_varKeyword hsplit)
        (handing_resolveDependencies hreturns n) hstep
    · intro passed p rest s hsplit hhanding
      have hp : p ∈ (inj.signature func).params := by
        rw [hsplit]
        exact List.mem_append_right _ List.mem_cons_self
      refine resolveParam_congr (hfunc.plain p hp) (fun hself hkind hnone => ?_) fun d hd => ?_
      · obtain rfl := (inj.signature func).rest_eq_nil hsplit hkind
        have hsplats : Param.splats (inj.signature func).params existing = true :=
          Param.splats_eq_true.mpr ⟨p, hp, hkind, hself, hnone⟩
        have hsplats' : Param.splats (inj.signature func).params existing' = true :=
          Param.splats_eq_true.mpr ⟨p, hp, hkind, hself, fun hd =>
            (hfunc.plain p hp hself hd).symm.trans (hnone hd)⟩
        have hrest := hfunc.rest
        rw [Param.rest, Param.rest, if_pos hsplats, if_pos hsplats'] at hrest
        rw [hhanding.filter_eq hsplit hkind (fun _ _ _ _ => rfl) fun _ => hnone,
          hhanding.filter_eq hsplit hkind hfunc.plain fun _ => hnone, hrest]
      · exact ih _ fun g hg => halike g (.head ⟨p, hp, d, hd, rfl⟩ hg)

/-! ### Other bodies -/

/-- The same signatures, with dependencies that do something else. -/
def withBodies (inj : Injector F H W O E) (run : F → Kwargs F W O → Except E O) :
    Injector F H W O E :=
  { inj with run := run }

omit [DecidableEq F] in
@[simp] theorem withBodies_override (run : F → Kwargs F W O → Except E O) :
    (inj.withBodies run).override = inj.override := rfl

omit [DecidableEq F] in
@[simp] theorem withBodies_run (run : F → Kwargs F W O → Except E O) :
    (inj.withBodies run).run = run := rfl

/-- Two calls on the way through the parameters have cached and filled the same. -/
structure SameKeys (s s' : Resolving F W O) : Prop where
  cache : s.cache.map Prod.fst = s'.cache.map Prod.fst
  kwargs : s.kwargs.map Prod.fst = s'.kwargs.map Prod.fst

theorem lookup_isSome_congr {α β : Type} [DecidableEq α] {l l' : List (α × β)}
    (h : l.map Prod.fst = l'.map Prod.fst) (k : α) :
    (l.lookup k).isSome = (l'.lookup k).isSome := by
  rw [Bool.eq_iff_iff, Assoc.lookup_isSome_iff, Assoc.lookup_isSome_iff, h]

theorem map_fst_set_congr {α β : Type} [DecidableEq α] {l l' : List (α × β)}
    (h : l.map Prod.fst = l'.map Prod.fst) (k : α) (v v' : β) :
    (Assoc.set l k v).map Prod.fst = (Assoc.set l' k v').map Prod.fst := by
  rw [Assoc.map_fst_set, Assoc.map_fst_set, h]

/-- Dependencies that return come as far as those of a call that comes about. -/
theorem resolveParam_withBodies {run : F → Kwargs F W O → Except E O}
    (hrun : ∀ f kwargs, ∃ o, run f kwargs = .ok o)
    {resolve resolve' : F → List F → List (F × O) → Except (CallFault F E) (Resolving F W O)}
    (hresolve : ∀ f chain cache cache' sub, cache.map Prod.fst = cache'.map Prod.fst →
      resolve f chain cache = .ok sub → ∃ sub', resolve' f chain cache' = .ok sub' ∧
        SameKeys sub sub')
    {func : F} {chain : List F} {t s' : Resolving F W O} (hkeys : SameKeys s t)
    (hstep : inj.resolveParam resolve existing func chain s p = .ok s') :
    ∃ t', (inj.withBodies run).resolveParam resolve' existing func chain t p = .ok t' ∧
      SameKeys s' t' := by
  unfold resolveParam at hstep ⊢
  by_cases hself : p.name = "self"
  · rw [if_pos hself] at hstep ⊢
    obtain rfl := Except.ok.inj hstep
    exact ⟨t, rfl, hkeys⟩
  rw [if_neg hself] at hstep ⊢
  have hsplat : (s.kwargs ++ existing.filter fun x =>
        decide (x.1 ∉ s.kwargs.map Prod.fst)).map Prod.fst =
      (t.kwargs ++ existing.filter fun x =>
        decide (x.1 ∉ t.kwargs.map Prod.fst)).map Prod.fst := by
    rw [List.map_append, List.map_append, hkeys.kwargs]
  cases hd : p.extractDepends with
  | none =>
    rw [hd] at hstep
    cases hv : existing.lookup p.name with
    | some v =>
      rw [hv] at hstep
      obtain rfl := Except.ok.inj hstep
      exact ⟨_, rfl, hkeys.cache, map_fst_set_congr hkeys.kwargs ..⟩
    | none =>
      rw [hv] at hstep
      dsimp only at hstep ⊢
      by_cases hkind : p.kind = .varKeyword
      · rw [if_pos hkind] at hstep ⊢
        obtain rfl := Except.ok.inj hstep
        exact ⟨_, rfl, hkeys.cache, hsplat⟩
      · rw [if_neg hkind] at hstep ⊢
        split at hstep
        · rename_i hskip
          obtain rfl := Except.ok.inj hstep
          exact ⟨t, if_pos hskip, hkeys⟩
        · cases hstep
  | some d =>
    rw [hd] at hstep
    dsimp only [withBodies_override, withBodies_run] at hstep ⊢
    by_cases hkind : p.kind = .varKeyword
    · rw [if_pos hkind] at hstep ⊢
      obtain rfl := Except.ok.inj hstep
      exact ⟨_, rfl, hkeys.cache, hsplat⟩
    rw [if_neg hkind] at hstep ⊢
    split at hstep
    · cases hstep
    rename_i hchain
    rw [if_neg hchain]
    -- the caches have the same functions, so both hit or both miss
    have hhit : (if d.useCache then s.cache.lookup (inj.override d.dependency) else none).isSome =
        (if d.useCache then t.cache.lookup (inj.override d.dependency) else none).isSome := by
      split
      · exact lookup_isSome_congr hkeys.cache _
      · rfl
    split at hstep
    · rename_i o ho
      obtain rfl := Except.ok.inj hstep
      rw [ho] at hhit
      obtain ⟨o', ho'⟩ := Option.isSome_iff_exists.mp hhit.symm
      rw [ho']
      exact ⟨_, rfl, hkeys.cache, map_fst_set_congr hkeys.kwargs ..⟩
    · rename_i hmiss
      rw [hmiss] at hhit
      have hmiss' : (if d.useCache then t.cache.lookup (inj.override d.dependency) else none)
          = none := Option.not_isSome_iff_eq_none.mp (by rw [← hhit]; exact Bool.false_ne_true)
      split at hstep
      · cases hstep
      rename_i sub hsub
      split at hstep
      · cases hstep
      obtain rfl := Except.ok.inj hstep
      obtain ⟨sub', hsub', hsubkeys⟩ := hresolve _ _ _ t.cache sub hkeys.cache hsub
      obtain ⟨o', ho'⟩ := hrun (inj.override d.dependency) sub'.kwargs
      rw [hmiss']
      dsimp only
      rw [hsub']
      dsimp only
      rw [ho']
      refine ⟨_, rfl, ?_, map_fst_set_congr hkeys.kwargs ..⟩
      dsimp only
      split
      · exact map_fst_set_congr hsubkeys.cache ..
      · exact hsubkeys.cache

theorem resolveDependencies_withBodies {run : F → Kwargs F W O → Except E O}
    (hrun : ∀ f kwargs, ∃ o, run f kwargs = .ok o) (n : ℕ) : ∀ (func : F) (chain : List F)
    (cache cache' : List (F × O)) (s : Resolving F W O),
    cache.map Prod.fst = cache'.map Prod.fst →
    inj.resolveDependencies existing n func chain cache = .ok s →
    ∃ s', (inj.withBodies run).resolveDependencies existing n func chain cache' = .ok s' ∧
      SameKeys s s' := by
  induction n with
  | zero => intro func chain cache cache' s hcache h; cases h
  | succ n ih =>
    intro func chain cache cache' s hcache h
    have hstart : SameKeys (⟨cache, []⟩ : Resolving F W O) ⟨cache', []⟩ := ⟨hcache, rfl⟩
    refine Fold.foldlM_simulation ?_ hstart h
    intro p s t s' _ hkeys hstep
    exact resolveParam_withBodies hrun ih hkeys hstep

end

/-! ### Bodies that tell two contexts apart -/

/-- A call of `g` with what a context hands to it, or of a function to which such a call has passed
the mark on. -/
def Marked (inj : Injector F H W O E) (g : F) (context : Kwargs F W O) (mark : O) (f : F)
    (kwargs : Kwargs F W O) : Prop :=
  f = g ∧ Param.Handed (inj.signature g).params context kwargs ∨
    ∃ p ∈ (inj.signature f).params, ∃ d, p.Filled d ∧
      kwargs.lookup p.name = some (.resolved (inj.override d.dependency) mark)

open Classical in
/-- Bodies that return the mark where they are called so. -/
noncomputable def marking (inj : Injector F H W O E) (g : F) (context : Kwargs F W O) (o mark : O)
    (f : F) (kwargs : Kwargs F W O) : Except E O :=
  .ok (if inj.Marked g context mark f kwargs then mark else o)

variable {existing existing' : Kwargs F W O} {g : F} {o mark : O}

/-- A context that hands something else to `g` leaves no mark. -/
theorem returns_unmarked (hne : o ≠ mark)
    (halike : ¬Param.HandedAlike (inj.signature g).params existing existing') :
    (inj.withBodies (inj.marking g existing' o mark)).Returns existing fun _ o' => o' = o := by
  intro f kwargs o' hrun hhanded hfilled
  obtain rfl := Except.ok.inj hrun
  refine if_neg ?_
  rintro (⟨rfl, hmarked⟩ | ⟨p, hp, d, hd, hmarked⟩)
  · exact halike (hhanded.alike hmarked)
  · obtain ⟨_, hheld, rfl⟩ := hfilled p d hp hd
    rw [hmarked] at hheld
    cases hheld
    exact hne rfl

/-- The other one marks every function on the way to `g`. -/
theorem returns_marked : (inj.withBodies (inj.marking g existing' o mark)).Returns existing'
    fun f o' => Relation.ReflTransGen inj.DependsOn f g → o' = mark := by
  intro f kwargs o' hrun hhanded hfilled hway
  obtain rfl := Except.ok.inj hrun
  refine if_pos ?_
  rcases hway.cases_head with rfl | ⟨f', ⟨p, hp, d, hd, rfl⟩, hrest⟩
  · exact .inl ⟨rfl, hhanded⟩
  · obtain ⟨_, hheld, hmark⟩ := hfilled p d hp hd
    obtain rfl := hmark hrest
    exact .inr ⟨p, hp, d, hd, hheld⟩

end Injector

end Istos
