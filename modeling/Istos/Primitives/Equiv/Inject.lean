import Istos.Primitives.Equiv.Resolve

/-!
# Injected parameters and the network

Two deliveries that differ in the names of injected parameters alone lead to equal calls, in which
each of these parameters holds what the framework has for it (`injected_isolated`).  `**kwargs` is
the way around: a channel's takes the name of the session (`chat_session_delivered`), and a
dependency may be handed what it took.  `injected_isolated` has the exact condition for all bodies
that the dependencies may have.
-/

namespace Istos

variable {F H W O E : Type}

/-! ### Validation -/

/-- What a delivery brings: a value of the network, as it came or validated. -/
def Arg.Delivered : Arg F W O → Prop
  | network _ => True
  | validated _ => True
  | _ => False

namespace Signature

variable {sig : Signature F H O} {py : Pydantic F H W O E} {params params' : List (String × W)}
  {skip : List String} {v : Kwargs F W O}

theorem not_mem_of_modelParam {excluded : List String} {m : String × H}
    (h : sig.modelParam py excluded = some m) :
    ∃ p ∈ sig.params, p.name = m.1 ∧ m.1 ∉ excluded := by
  unfold modelParam at h
  split at h
  · rename_i p hp
    have hmem : p ∈ sig.included excluded := by
      rw [hp]
      exact List.mem_cons_self
    obtain ⟨hparam, hexcl⟩ := List.mem_filter.mp hmem
    split at h
    · split at h
      · obtain rfl := Option.some.inj h
        exact ⟨p, hparam, rfl, of_decide_eq_true hexcl⟩
      · cases h
    · cases h
  · cases h

theorem not_mem_of_fieldDefinitions {excluded : List String} {k : String}
    (h : k ∈ (sig.fieldDefinitions excluded).map Prod.fst) : k ∉ excluded := by
  rw [fieldDefinitions, List.map_map, List.mem_map] at h
  obtain ⟨p, hp, rfl⟩ := h
  exact of_decide_eq_true (List.mem_filter.mp (List.mem_filter.mp hp).1).2

/-- A name that may not be delivered comes in under `**kwargs` alone. -/
theorem validateParams_origin (hpy : py.Documented)
    (h : sig.validateParams py params skip = .ok v) {x : String × Arg F W O} (hx : x ∈ v) :
    x.2.Delivered ∧ (x.1 ∉ "self" :: skip ∨ sig.modelParam py ("self" :: skip) = none ∧
      sig.varKeyword ("self" :: skip) = true ∧ x.1 ∈ params.map Prod.fst) := by
  unfold validateParams at h
  dsimp only at h
  split at h
  · rename_i name hint hmodel
    obtain ⟨p, -, -, hexcl⟩ := not_mem_of_modelParam hmodel
    cases hv : py.modelValidate hint params with
    | error e =>
      rw [hv] at h
      cases h
    | ok o =>
      rw [hv] at h
      obtain rfl := Except.ok.inj h
      obtain rfl := List.mem_singleton.mp hx
      exact ⟨trivial, .inl hexcl⟩
  rename_i hmodel
  have hdeclared : ∀ x ∈ (sig.declaredParams params ("self" :: skip)).map
      (fun x => (x.1, Arg.network (F := F) (O := O) x.2)),
      x.2.Delivered ∧ (x.1 ∉ "self" :: skip ∨ sig.modelParam py ("self" :: skip) = none ∧
        sig.varKeyword ("self" :: skip) = true ∧ x.1 ∈ params.map Prod.fst) := by
    intro x hx
    obtain ⟨y, hy, rfl⟩ := List.mem_map.mp hx
    refine ⟨trivial, ?_⟩
    unfold declaredParams at hy
    split at hy
    · rename_i hvar
      exact .inr ⟨hmodel, hvar, List.mem_map_of_mem hy⟩
    · obtain ⟨p, hp, hname⟩ := List.mem_map.mp (of_decide_eq_true (List.mem_filter.mp hy).2)
      refine .inl ?_
      rw [← hname]
      exact of_decide_eq_true (List.mem_filter.mp (List.mem_filter.mp hp).1).2
  split at h
  · obtain rfl := Except.ok.inj h
    exact hdeclared x hx
  split at h
  · obtain rfl := Except.ok.inj h
    exact hdeclared x hx
  cases hvar : sig.varKeyword ("self" :: skip) with
  | false =>
    rw [hvar] at h
    obtain ⟨hfield, o, ho⟩ := hpy.dump _ _ _ h x hx
    exact ⟨ho ▸ trivial, .inl (not_mem_of_fieldDefinitions hfield)⟩
  | true =>
    rw [hvar, hpy.allow] at h
    cases hd : py.dynamicValidation (sig.fieldDefinitions ("self" :: skip)) false params with
    | error e =>
      rw [hd] at h
      cases h
    | ok d =>
      rw [hd] at h
      obtain rfl := Except.ok.inj h
      rcases List.mem_append.mp hx with hfield | hextra
      · obtain ⟨hfield, o, ho⟩ := hpy.dump _ _ _ hd x hfield
        exact ⟨ho ▸ trivial, .inl (not_mem_of_fieldDefinitions hfield)⟩
      · obtain ⟨y, hy, rfl⟩ := List.mem_map.mp hextra
        exact ⟨trivial, .inr ⟨hmodel, rfl, List.mem_map_of_mem (List.mem_filter.mp hy).1⟩⟩

theorem lookup_map_network (l : List (String × W)) (k : String) :
    (l.map fun x => (x.1, Arg.network (F := F) (O := O) x.2)).lookup k =
      (l.lookup k).map .network := by
  induction l with
  | nil => rfl
  | cons x l ih =>
    obtain ⟨k', w⟩ := x
    rw [List.map_cons, List.lookup_cons, List.lookup_cons]
    cases k == k' with
    | true => rfl
    | false => exact ih

/-- Under `**kwargs` it is what the network has. -/
theorem lookup_validateParams (hpy : py.Documented) (h : sig.validateParams py params skip = .ok v)
    (hmodel : sig.modelParam py ("self" :: skip) = none)
    (hvar : sig.varKeyword ("self" :: skip) = true) {k : String} (hk : k ∈ "self" :: skip) :
    v.lookup k = (params.lookup k).map .network := by
  unfold validateParams at h
  dsimp only at h
  rw [hmodel] at h
  dsimp only at h
  have hdeclared : sig.declaredParams params ("self" :: skip) = params := by
    rw [declaredParams, hvar]
    rfl
  rw [hdeclared] at h
  split at h
  · obtain rfl := Except.ok.inj h
    exact lookup_map_network params k
  split at h
  · obtain rfl := Except.ok.inj h
    exact lookup_map_network params k
  rw [hvar, hpy.allow] at h
  have hfield : k ∉ (sig.fieldDefinitions ("self" :: skip)).map Prod.fst :=
    fun hmem => not_mem_of_fieldDefinitions hmem hk
  cases hd : py.dynamicValidation (sig.fieldDefinitions ("self" :: skip)) false params with
  | error e =>
    rw [hd] at h
    cases h
  | ok d =>
    rw [hd] at h
    obtain rfl := Except.ok.inj h
    have hnot : d.lookup k = none := by
      refine Assoc.lookup_eq_none fun hmem => ?_
      obtain ⟨x, hx, rfl⟩ := List.mem_map.mp hmem
      exact hfield (hpy.dump _ _ _ hd x hx).1
    rw [List.lookup_append, hnot, Option.none_or, lookup_map_network, Assoc.lookup_filter
      (fun k => decide (k ∉ (sig.fieldDefinitions ("self" :: skip)).map Prod.fst)),
      if_pos (decide_eq_true hfield)]

/-- Names that are not excluded come from what is delivered under names that are not excluded. -/
theorem validateParams_alike (hpy : py.Documented)
    (hagree : params.filter (fun x => decide (x.1 ∉ skip)) =
      params'.filter fun x => decide (x.1 ∉ skip))
    (hmodel : ∀ m, sig.modelParam py ("self" :: skip) = some m →
      py.modelValidate m.2 params = py.modelValidate m.2 params') :
    (sig.validateParams py params skip).map (·.filter fun x => decide (x.1 ∉ skip)) =
      (sig.validateParams py params' skip).map (·.filter fun x => decide (x.1 ∉ skip)) := by
  -- what is picked by names outside of `skip` is picked from the part that agrees
  have hcut : ∀ (l : List (String × W)) (names : List String), (∀ k ∈ names, k ∉ skip) →
      l.filter (fun x => decide (x.1 ∈ names)) =
        (l.filter fun x => decide (x.1 ∉ skip)).filter fun x => decide (x.1 ∈ names) := by
    intro l names hnames
    rw [List.filter_filter]
    refine List.filter_congr fun x _ => ?_
    by_cases hx : x.1 ∈ names
    · rw [decide_eq_true hx, decide_eq_true (hnames _ hx), Bool.and_true]
    · rw [decide_eq_false hx, Bool.false_and]
  have hskip : ∀ l : List (String × W),
      (l.map fun x => (x.1, Arg.network (F := F) (O := O) x.2)).filter
          (fun x => decide (x.1 ∉ skip)) =
        (l.filter fun x => decide (x.1 ∉ skip)).map fun x => (x.1, .network x.2) := by
    intro l
    rw [List.filter_map]
    rfl
  unfold validateParams
  dsimp only
  cases hm : sig.modelParam py ("self" :: skip) with
  | some m =>
    dsimp only
    rw [hmodel m hm]
  | none =>
    dsimp only
    have hdeclared : ((sig.declaredParams params ("self" :: skip)).map
        fun x => (x.1, Arg.network (F := F) (O := O) x.2)).filter (fun x => decide (x.1 ∉ skip)) =
        ((sig.declaredParams params' ("self" :: skip)).map
          fun x => (x.1, Arg.network x.2)).filter fun x => decide (x.1 ∉ skip) := by
      rw [hskip, hskip]
      unfold declaredParams
      dsimp only
      split
      · rw [hagree]
      · have hnames : ∀ k ∈ ((sig.included ("self" :: skip)).filter fun p => !p.kind.variadic).map
            Param.name, k ∉ skip := by
          intro k hk hmem
          obtain ⟨p, hp, rfl⟩ := List.mem_map.mp hk
          exact of_decide_eq_true (List.mem_filter.mp (List.mem_filter.mp hp).1).2
            (List.mem_cons_of_mem _ hmem)
        rw [hcut params _ hnames, hcut params' _ hnames, hagree]
    split
    · exact congrArg Except.ok hdeclared
    split
    · exact congrArg Except.ok hdeclared
    have hfields : ∀ k ∈ (sig.fieldDefinitions ("self" :: skip)).map Prod.fst, k ∉ skip :=
      fun k hk hmem => not_mem_of_fieldDefinitions hk (List.mem_cons_of_mem _ hmem)
    have hfalse : py.dynamicValidation (sig.fieldDefinitions ("self" :: skip)) false params =
        py.dynamicValidation (sig.fieldDefinitions ("self" :: skip)) false params' := by
      rw [hpy.ignore _ params, hpy.ignore _ params', hcut params _ hfields, hcut params' _ hfields,
        hagree]
    cases sig.varKeyword ("self" :: skip) with
    | false => rw [hfalse]
    | true =>
      rw [hpy.allow, hpy.allow, hfalse]
      cases py.dynamicValidation (sig.fieldDefinitions ("self" :: skip)) false params' with
      | error e => rfl
      | ok d =>
        refine congrArg Except.ok ?_
        dsimp only
        rw [List.filter_append, List.filter_append, hskip, hskip,
          List.filter_comm _ _ params, hagree, List.filter_comm _ _ params']

/-- Which keywords there are decides whether Python binds them. -/
theorem binds_congr (sig : Signature F H O) {kwargs kwargs' : Kwargs F W O}
    (h : kwargs.map Prod.fst = kwargs'.map Prod.fst) : sig.binds kwargs = sig.binds kwargs' := by
  have hall : ∀ (l : Kwargs F W O) (q : String → Bool),
      (l.all fun x => q x.1) = (l.map Prod.fst).all q := by
    intro l q
    rw [List.all_map]
    rfl
  unfold binds
  rw [hall kwargs fun k => sig.params.any fun p =>
      decide (p.kind = .varKeyword) || p.kind.byName && decide (p.name = k),
    hall kwargs' fun k => sig.params.any fun p =>
      decide (p.kind = .varKeyword) || p.kind.byName && decide (p.name = k), h]
  simp only [Injector.lookup_isSome_congr h]

end Signature

/-! ### Endpoints -/

namespace Param

theorem declaredDepends_of_extractDepends {p : Param F O} {d : Depends F}
    (h : p.extractDepends = some d) : p.declaredDepends = some d := by
  unfold extractDepends at h
  unfold declaredDepends
  cases hdefault : p.default with
  | depends d' =>
    rw [hdefault] at h
    exact h
  | _ =>
    rw [hdefault] at h
    dsimp only at h ⊢
    cases hmarker : p.annotation with
    | annotated d' =>
      rw [hmarker] at h
      exact h
    | _ =>
      rw [hmarker] at h
      cases h

/-- What the parameter has in a call with these keywords. -/
def value (p : Param F O) (kwargs : Kwargs F W O) : Option (Arg F W O) :=
  if p.kind.byName then kwargs.lookup p.name else none

theorem value_eq_some {p : Param F O} {kwargs : Kwargs F W O} {a : Arg F W O} :
    p.value kwargs = some a ↔ p.kind.byName = true ∧ kwargs.lookup p.name = some a := by
  unfold value
  split
  · rename_i hkind
    exact ⟨fun h => ⟨hkind, h⟩, fun h => h.2⟩
  · rename_i hkind
    exact ⟨fun h => (by cases h), fun h => absurd h.1 hkind⟩

end Param

namespace Endpoint

section

variable (e : Endpoint F H W O E)

/-- The parameter of the channel's session. -/
def IsSession (p : Param F O) : Prop := e.verb = .channel ∧ e.sig.params.head? = some p

/-- The parameters that the framework fills. -/
def Injected (p : Param F O) : Prop :=
  p.declaredDepends ≠ none ∨ e.IsSession p ∨ p.name = "db"

/-- The injected parameters hold what they should in a call with these keywords. -/
structure Injects (kwargs : Kwargs F W O) : Prop where
  depends : ∀ p ∈ e.sig.params, ∀ d, p.declaredDepends = some d → ∃ o,
    p.value kwargs = some (.resolved (e.override d.dependency) o) ∧
      e.Resolved (e.override d.dependency) o
  session : ∀ p, e.IsSession p → p.declaredDepends = none → p.value kwargs = some .session
  db : ∀ p ∈ e.sig.params, p.name = "db" → p.declaredDepends = none → ¬e.IsSession p →
    p.value kwargs = some .storage

/-- Python fills every injected parameter by its name, and its marker is an object. -/
def Passable : Prop :=
  ∀ p ∈ e.sig.params, e.Injected p →
    p.kind.byName = true ∧ p.name ≠ "self" ∧ p.declaredDepends = p.extractDepends

/-- Where `**kwargs` of a channel takes every name, its session's is not among them. -/
def SessionKept (params : List (String × W)) : Prop :=
  ∀ p, e.IsSession p → p.declaredDepends = none → p.name ≠ "db" →
    e.sig.modelParam e.py e.excluded = none → e.sig.varKeyword e.excluded = true →
      p.name ∉ params.map Prod.fst

/-- Where there is a single `BaseModel`, it makes the same of both. -/
def ModelAlike (params params' : List (String × W)) : Prop :=
  ∀ m, e.sig.modelParam e.py e.excluded = some m →
    e.py.modelValidate m.2 params = e.py.modelValidate m.2 params'

/-- The names of `Depends` parameters that are delivered. -/
def overlap (params : List (String × W)) : List String :=
  (params.map Prod.fst).filter fun k => decide (k ∈ e.dependsParams ∧ k ≠ "db")

/-- Every dependency that the function leads to is handed the same by both. -/
def DependenciesAlike (params params' : List (String × W)) : Prop :=
  ∀ existing existing', e.context params = .ok existing → e.context params' = .ok existing' →
    ∀ g, Relation.TransGen e.DependsOn e.func g →
      Param.HandedAlike (e.signature g).params existing existing'

/-- The same endpoint, whose dependencies do something else. -/
def withBodies (run : F → Kwargs F W O → Except E O) : Endpoint F H W O E := { e with run := run }

/-- The injected parameters hold what they should with both, and the calls are alike. -/
structure Isolated [DecidableEq F] (recursionLimit : ℕ) (params params' : List (String × W)) :
    Prop where
  left : ∀ kwargs, e.call recursionLimit params = .ok kwargs → e.Injects kwargs
  right : ∀ kwargs, e.call recursionLimit params' = .ok kwargs → e.Injects kwargs
  alike : e.call recursionLimit params = e.call recursionLimit params'

end

variable {e : Endpoint F H W O E} {p : Param F O} {params params' : List (String × W)}
  {v existing kwargs : Kwargs F W O}

theorem mem_dependsParams {k : String} :
    k ∈ e.dependsParams ↔ ∃ p ∈ e.sig.params, ∃ d, p.extractDepends = some d ∧ p.name = k := by
  simp only [dependsParams, List.mem_map, List.mem_filter, Option.isSome_iff_exists]
  constructor
  · rintro ⟨p, ⟨hp, d, hd⟩, hname⟩
    exact ⟨p, hp, d, hd, hname⟩
  · rintro ⟨p, hp, d, hd, hname⟩
    exact ⟨p, ⟨hp, d, hd⟩, hname⟩

theorem mem_injectedParams {k : String} : k ∈ e.injectedParams ↔
    k ∈ e.dependsParams ∨ (e.verb = .channel ∧ k = e.sessionParam) ∨
        (e.injectDb = true ∧ k = "db") := by
  simp only [injectedParams, List.mem_append]
  constructor
  · rintro ((h | h) | h)
    · exact .inl h
    · split at h
      · exact .inr (.inl ⟨‹_›, List.mem_singleton.mp h⟩)
      · cases h
    · split at h
      · exact .inr (.inr ⟨‹_›, List.mem_singleton.mp h⟩)
      · cases h
  · rintro (h | ⟨hverb, rfl⟩ | ⟨hdb, rfl⟩)
    · exact .inl (.inl h)
    · rw [if_pos hverb]
      exact .inl (.inr List.mem_cons_self)
    · rw [if_pos hdb]
      exact .inr List.mem_cons_self

theorem sessionParam_eq (h : e.IsSession p) : e.sessionParam = p.name := by
  unfold sessionParam
  cases hparams : e.sig.params with
  | nil =>
    have := h.2
    rw [hparams] at this
    cases this
  | cons q rest =>
    have := h.2
    rw [hparams] at this
    obtain rfl := Option.some.inj this
    rfl

theorem mem_of_isSession (h : e.IsSession p) : p ∈ e.sig.params := List.mem_of_mem_head? h.2

theorem name_ne_self (h : e.IsSession p) : p.name ≠ "self" := e.bindable p h.2

theorem excluded_of_isSession (h : e.IsSession p) : p.name ∈ e.excluded :=
  List.mem_cons_of_mem _ (mem_injectedParams.mpr (.inr (.inl ⟨h.1, (sessionParam_eq h).symm⟩)))

/-- A parameter called `db` that is not the session gets the storage, and the session is not `db`
then. -/
theorem injectDb_iff : e.injectDb = true ↔ ∃ p ∈ e.sig.params, p.name = "db" ∧ ¬e.IsSession p := by
  have hany : ∀ l : List (Param F O), (l.any fun p => decide (p.name = "db")) = true ↔
      ∃ p ∈ l, p.name = "db" := by
    intro l
    rw [List.any_eq_true]
    simp only [decide_eq_true_eq]
  unfold injectDb
  cases hverb : e.verb with
  | channel =>
    dsimp only
    rw [hany]
    cases hparams : e.sig.params with
    | nil => simp
    | cons q rest =>
      have hnodup := e.sig.nodup
      rw [hparams, List.map_cons, List.nodup_cons] at hnodup
      have hhead : ∀ p, e.IsSession p ↔ p = q := by
        intro p
        rw [IsSession, hparams, hverb]
        exact ⟨fun h => (Option.some.inj h.2).symm, fun h => ⟨rfl, congrArg some h.symm⟩⟩
      constructor
      · rintro ⟨p, hp, hname⟩
        refine ⟨p, List.mem_cons_of_mem _ hp, hname, ?_⟩
        rw [hhead]
        rintro rfl
        exact hnodup.1 (List.mem_map_of_mem hp)
      · rintro ⟨p, hp, hname, hsession⟩
        rcases List.mem_cons.mp hp with rfl | hrest
        · exact absurd ((hhead p).mpr rfl) hsession
        · exact ⟨p, hrest, hname⟩
  | _ =>
    dsimp only
    rw [hany]
    constructor
    · rintro ⟨p, hp, hname⟩
      refine ⟨p, hp, hname, fun h => ?_⟩
      have := h.1
      rw [hverb] at this
      cases this
    · rintro ⟨p, hp, hname, -⟩
      exact ⟨p, hp, hname⟩

theorem isSession_ne_db (h : e.IsSession p) (hdb : e.injectDb = true) : p.name ≠ "db" := by
  intro hname
  obtain ⟨q, hq, hqname, hqs⟩ := injectDb_iff.mp hdb
  rw [e.sig.eq_of_name hq (mem_of_isSession h) (hqname.trans hname.symm)] at hqs
  exact hqs h

/-! ### The keywords of a call -/

/-- `validated` without `db`. -/
theorem lookup_pop (v : Kwargs F W O) {k : String} (hk : k ≠ "db") :
    (v.filter fun x => decide (x.1 ≠ "db")).lookup k = v.lookup k := by
  rw [Assoc.lookup_filter (fun k => decide (k ≠ "db")), if_pos (decide_eq_true hk)]

theorem not_mem_pop (v : Kwargs F W O) :
    "db" ∉ (v.filter fun x => decide (x.1 ≠ "db")).map Prod.fst := by
  intro hmem
  obtain ⟨x, hx, hname⟩ := List.mem_map.mp hmem
  exact of_decide_eq_true (List.mem_filter.mp hx).2 hname

theorem lookup_callKwargs (h : e.callKwargs v = .ok existing) (hdb : "db" ∉ v.map Prod.fst)
    (k : String) : existing.lookup k =
      if e.injectDb = true ∧ k = "db" then some .storage
      else (v.lookup k).or (if e.verb = .channel ∧ k = e.sessionParam then some .session
        else none) := by
  have hset : ∀ l : Kwargs F W O,
    (if e.injectDb = true then Assoc.set l "db" .storage else l).lookup k =
      if e.injectDb = true ∧ k = "db" then some .storage else l.lookup k := by
    intro l
    by_cases hinject : e.injectDb = true
    · rw [if_pos hinject, Assoc.lookup_set]
      simp only [hinject, true_and]
    · rw [if_neg hinject, if_neg fun h => hinject h.1]
  unfold callKwargs at h
  cases hverb : e.verb with
  | handle =>
    rw [hverb] at h
    dsimp only at h
    rw [decide_eq_true hdb, Bool.and_true] at h
    split at h
    · cases h
    · have heq : (if e.injectDb = true then Assoc.set v "db" .storage else v) = existing := by
        split at h <;> rename_i hinject
        · rw [if_pos hinject]
          exact Except.ok.inj h
        · rw [if_neg hinject]
          exact Except.ok.inj h
      rw [← heq, hset, if_neg (c := EndpointVerb.handle = .channel ∧ _) (by simp), Option.or_none]
  | stream =>
    rw [hverb] at h
    rw [← Except.ok.inj h, hset, if_neg (c := EndpointVerb.stream = .channel ∧ _) (by simp),
      Option.or_none]
  | channel =>
    rw [hverb] at h
    rw [← Except.ok.inj h, hset, Assoc.lookup_update, List.lookup_cons]
    by_cases hk : k = e.sessionParam
    · rw [hk, beq_self_eq_true, if_pos (c := EndpointVerb.channel = .channel ∧ _) ⟨rfl, rfl⟩]
    · rw [beq_eq_false_iff_ne.mpr hk, if_neg (c := EndpointVerb.channel = .channel ∧
        _) fun h => hk h.2]
      rfl

/-- Nothing that is called before the dependencies are resolved returned it. -/
theorem ne_resolved_of_callKwargs (hpy : e.py.Documented)
    (hv : e.sig.validateParams e.py params e.injectedParams = .ok v)
    (hexisting : e.callKwargs (v.filter fun x => decide (x.1 ≠ "db")) = .ok existing) {k : String}
    {f : F} {o : O} : existing.lookup k ≠ some (.resolved f o) := by
  intro hk
  rw [lookup_callKwargs hexisting (not_mem_pop v)] at hk
  split at hk
  · cases hk
  cases hlookup : (v.filter fun x => decide (x.1 ≠ "db")).lookup k with
  | some a =>
    rw [hlookup] at hk
    obtain rfl := Option.some.inj hk
    have hmem := (List.mem_filter.mp (Assoc.mem_of_lookup hlookup)).1
    exact (Signature.validateParams_origin hpy hv hmem).1
  | none =>
    rw [hlookup, Option.none_or] at hk
    split at hk
    · cases hk
    · cases hk

/-- What is delivered under the name of the session. -/
theorem lookup_session
    (hexisting : e.callKwargs (v.filter fun x => decide (x.1 ≠ "db")) = .ok existing)
    (hp : e.IsSession p) : existing.lookup p.name =
      ((v.filter fun x => decide (x.1 ≠ "db")).lookup p.name).or (some .session) := by
  rw [lookup_callKwargs hexisting (not_mem_pop v), if_neg fun h => isSession_ne_db hp h.1 h.2,
    if_pos ⟨hp.1, (sessionParam_eq hp).symm⟩]

/-- The names under which `**kwargs` may take what a `Depends` parameter has. -/
theorem pop_filter {names : List String} (hpy : e.py.Documented) (hpass : e.Passable)
    (hkept : e.SessionKept params) (hv : e.sig.validateParams e.py params e.injectedParams = .ok v)
    (hsub : ∀ k ∈ names, k ∈ e.dependsParams)
    (hnames : e.sig.modelParam e.py e.excluded = none → e.sig.varKeyword e.excluded = true →
      ∀ k ∈ e.overlap params, k ∈ names) :
    (v.filter fun x => decide (x.1 ≠ "db")).filter (fun x => decide (x.1 ∉ names)) =
      (v.filter fun x => decide (x.1 ∉ e.injectedParams)).filter fun x => decide (x.1 ≠ "db") := by
  rw [List.filter_comm, List.filter_filter, List.filter_filter]
  refine List.filter_congr fun x hx => ?_
  by_cases hdb : x.1 = "db"
  · rw [hdb]
    simp
  have hiff : x.1 ∈ names ↔ x.1 ∈ e.injectedParams := by
    constructor
    · exact fun hk => mem_injectedParams.mpr (.inl (hsub _ hk))
    · intro hk
      rcases (Signature.validateParams_origin hpy hv hx).2 with hfree | ⟨hmodel, hvar, hdelivered⟩
      · exact absurd (List.mem_cons_of_mem _ hk) hfree
      have hoverlap : x.1 ∈ e.dependsParams → x.1 ∈ names := fun hmem =>
        hnames hmodel hvar _ (List.mem_filter.mpr ⟨hdelivered, decide_eq_true ⟨hmem, hdb⟩⟩)
      rcases mem_injectedParams.mp hk with hdep | ⟨hverb, hname⟩ | ⟨-, hname⟩
      · exact hoverlap hdep
      · cases hparams : e.sig.params with
        | nil =>
          rw [Signature.varKeyword, Signature.included, hparams] at hvar
          cases hvar
        | cons q rest =>
          have hq : e.IsSession q := ⟨hverb, by rw [hparams]; rfl⟩
          rw [sessionParam_eq hq] at hname
          cases hdecl : q.declaredDepends with
          | none =>
            rw [hname] at hdelivered hdb
            exact absurd hdelivered (hkept q hq hdecl hdb hmodel hvar)
          | some d =>
            have hmem := mem_of_isSession hq
            obtain ⟨-, -, hsame⟩ := hpass q hmem (.inl (by rw [hdecl]; exact Option.some_ne_none d))
            exact hoverlap (mem_dependsParams.mpr ⟨q, hmem, d, hsame ▸ hdecl, hname.symm⟩)
      · exact absurd hname hdb
  rw [decide_eq_decide.mpr (not_congr hiff), Bool.and_comm]

/-- The keywords but for some names are made of what was validated but for these names. -/
theorem callKwargs_alike {names : List String} {v' : Kwargs F W O} (hself : "self" ∉ names)
    (hdb : "db" ∉ names)
    (hagree : v.filter (fun x => decide (x.1 ∉ names)) = v'.filter fun x => decide (x.1 ∉ names)) :
    (e.callKwargs v).map (·.filter fun x => decide (x.1 ∉ names)) =
      (e.callKwargs v').map (·.filter fun x => decide (x.1 ∉ names)) := by
  have hset : ∀ l l' : Kwargs F W O, l.filter (fun x => decide (x.1 ∉ names)) =
      l'.filter (fun x => decide (x.1 ∉ names)) →
      (Assoc.set l "db" Arg.storage).filter (fun x => decide (x.1 ∉ names)) =
        (Assoc.set l' "db" Arg.storage).filter fun x => decide (x.1 ∉ names) := by
    intro l l' h
    rw [Assoc.filter_set (fun k => decide (k ∉ names)) l _ (decide_eq_true hdb),
      Assoc.filter_set (fun k => decide (k ∉ names)) l' _ (decide_eq_true hdb), h]
  have hkeys : ∀ k, k ∉ names → (k ∈ v.map Prod.fst ↔ k ∈ v'.map Prod.fst) := by
    intro k hk
    rw [← Assoc.lookup_isSome_iff, ← Assoc.lookup_isSome_iff,
      Assoc.lookup_eq_of_filter (p := fun k => decide (k ∉ names)) hagree (decide_eq_true hk)]
  unfold callKwargs
  cases e.verb with
  | handle =>
    dsimp only
    rw [decide_eq_decide.mpr (not_congr (hkeys "db" hdb))]
    by_cases hmem : "self" ∈ v.map Prod.fst
    · rw [if_pos hmem, if_pos ((hkeys "self" hself).mp hmem)]
    · rw [if_neg hmem, if_neg fun h => hmem ((hkeys "self" hself).mpr h)]
      by_cases hc : (e.injectDb && decide ("db" ∉ v'.map Prod.fst)) = true
      · rw [if_pos hc, if_pos hc]
        exact congrArg Except.ok (hset _ _ hagree)
      · rw [if_neg hc, if_neg hc]
        exact congrArg Except.ok hagree
  | stream =>
    dsimp only
    split
    · exact congrArg Except.ok (hset _ _ hagree)
    · exact congrArg Except.ok hagree
  | channel =>
    dsimp only
    have hupdate : (Assoc.update [(e.sessionParam, Arg.session)] v).filter
        (fun x => decide (x.1 ∉ names)) = (Assoc.update [(e.sessionParam, Arg.session)] v').filter
          fun x => decide (x.1 ∉ names) := by
      rw [Assoc.filter_update (fun k => decide (k ∉ names)),
        Assoc.filter_update (fun k => decide (k ∉ names)), hagree]
    split
    · exact congrArg Except.ok (hset _ _ hupdate)
    · exact congrArg Except.ok hupdate

/-! ### Calls -/

variable [DecidableEq F] {n : ℕ}

omit [DecidableEq F] in
/-- What the dependencies are resolved with. -/
theorem context_eq_ok : e.context params = .ok existing ↔
    ∃ v, e.sig.validateParams e.py params e.injectedParams = .ok v ∧
      e.callKwargs (v.filter fun x => decide (x.1 ≠ "db")) = .ok existing := by
  unfold context
  cases e.sig.validateParams e.py params e.injectedParams with
  | error error =>
    refine iff_of_false (fun h => by cases h) ?_
    rintro ⟨v, hv, -⟩
    cases hv
  | ok v =>
    refine ⟨fun h => ⟨v, rfl, h⟩, ?_⟩
    rintro ⟨v', hv, h⟩
    obtain rfl := Except.ok.inj hv
    exact h

omit [DecidableEq F] in
theorem dependsParams_eq_nil (h : e.hasDepends ≠ true) : e.dependsParams = [] := by
  rw [hasDepends, ne_eq, Bool.not_eq_true', Bool.not_eq_false, List.isEmpty_iff] at h
  exact h

theorem context_of_call (h : e.call n params = .ok kwargs) :
    ∃ existing, e.context params = .ok existing := by
  unfold call at h
  cases hx : e.context params with
  | error fault =>
    rw [hx] at h
    cases h
  | ok existing => exact ⟨existing, rfl⟩

theorem call_eq_ok (hx : e.context params = .ok existing) : e.call n params = .ok kwargs ↔
    e.sig.binds kwargs = true ∧ if e.hasDepends then
      ∃ cache, e.resolveDependencies existing n e.func [] [] = .ok ⟨cache, kwargs⟩
    else kwargs = existing := by
  unfold call
  rw [hx]
  dsimp only
  have hend : ∀ kw : Kwargs F W O,
      (if e.sig.binds kw then .ok kw else .error .arguments :
        Except (CallFault F E) (Kwargs F W O)) = .ok kwargs ↔
        e.sig.binds kwargs = true ∧ kw = kwargs := by
    intro kw
    split
    · rename_i hbinds
      refine ⟨fun h => ?_, fun h => congrArg Except.ok h.2⟩
      obtain rfl := Except.ok.inj h
      exact ⟨hbinds, rfl⟩
    · rename_i hbinds
      refine iff_of_false (fun h => by cases h) ?_
      rintro ⟨htrue, rfl⟩
      exact hbinds htrue
  by_cases hdepends : e.hasDepends = true
  · rw [if_pos hdepends, if_pos hdepends]
    cases e.resolveDependencies existing n e.func [] [] with
    | error fault =>
      refine iff_of_false (fun h => by cases h) ?_
      rintro ⟨-, cache, hs⟩
      cases hs
    | ok s =>
      refine (hend s.kwargs).trans (and_congr_right fun _ => ⟨?_, ?_⟩)
      · rintro rfl
        exact ⟨s.cache, rfl⟩
      · rintro ⟨cache, hs⟩
        rw [Except.ok.inj hs]
  · rw [if_neg hdepends, if_neg hdepends]
    exact (hend existing).trans (and_congr_right fun _ => eq_comm)

/-- What a call is filled with. -/
theorem filling_of_call {returned : F → O → Prop} (hx : e.context params = .ok existing)
    (hreturns : e.Returns existing returned) (h : e.call n params = .ok kwargs) :
    ∃ cache, e.toInjector.Filling existing returned e.sig.params ⟨cache, kwargs⟩ := by
  obtain ⟨-, h⟩ := (call_eq_ok hx).mp h
  split at h
  · obtain ⟨cache, hs⟩ := h
    exact ⟨cache, (Injector.handing_resolveDependencies hreturns n e.func [] [] _
      (fun f o hf => by cases hf) hs).toFilling⟩
  · rename_i hdepends
    subst h
    have hnone : ∀ p ∈ e.sig.params, ∀ d, p.extractDepends ≠ some d := by
      intro p hp d hd
      have hmem : p.name ∈ e.dependsParams := mem_dependsParams.mpr ⟨p, hp, d, hd, rfl⟩
      rw [dependsParams_eq_nil hdepends] at hmem
      cases hmem
    exact ⟨[], fun p d hp hd => absurd hd.1 (hnone p hp d), fun p v _ _ _ hv => hv,
      fun k v hk => .inl hk, fun f o hf => by cases hf⟩

/-- What leads to a call. -/
theorem leads_of_call (h : e.call n params = .ok kwargs) :
    ∃ v existing cache, e.sig.validateParams e.py params e.injectedParams = .ok v ∧
      e.callKwargs (v.filter fun x => decide (x.1 ≠ "db")) = .ok existing ∧
      e.toInjector.Filling existing e.Resolved e.sig.params ⟨cache, kwargs⟩ := by
  obtain ⟨existing, hx⟩ := context_of_call h
  obtain ⟨v, hv, hexisting⟩ := context_eq_ok.mp hx
  obtain ⟨cache, hfilling⟩ := filling_of_call hx (Injector.returns_resolved _ _) h
  exact ⟨v, existing, cache, hv, hexisting, hfilling⟩

/-! ### What a call holds -/

theorem injects_of (hpy : e.py.Documented) (hpass : e.Passable) (hkept : e.SessionKept params)
    (h : e.call n params = .ok kwargs) : e.Injects kwargs := by
  obtain ⟨v, existing, cache, hv, hexisting, hfilling⟩ := leads_of_call h
  constructor
  · intro p hp d hd
    obtain ⟨hkind, hself, hsame⟩ := hpass p hp (.inl (by rw [hd]; exact Option.some_ne_none d))
    obtain ⟨o, ho, hres⟩ := hfilling.filled p d hp
      ⟨hsame ▸ hd, hself, fun hvar => by rw [hvar] at hkind; cases hkind⟩
    exact ⟨o, Param.value_eq_some.mpr ⟨hkind, ho⟩, hres⟩
  · intro p hp hnone
    have hmem := mem_of_isSession hp
    obtain ⟨hkind, hself, hsame⟩ := hpass p hmem (.inr (.inl hp))
    refine Param.value_eq_some.mpr ⟨hkind, ?_⟩
    refine hfilling.plain p .session hmem hself (hsame ▸ hnone) ?_
    have hno : (v.filter fun x => decide (x.1 ≠ "db")).lookup p.name = none := by
      refine Assoc.lookup_eq_none fun hin => ?_
      obtain ⟨x, hx, hname⟩ := List.mem_map.mp hin
      obtain ⟨hxv, hdb⟩ := List.mem_filter.mp hx
      rcases (Signature.validateParams_origin hpy hv hxv).2 with hfree | ⟨hmodel, hvar, hdelivered⟩
      · rw [hname] at hfree
        exact hfree (excluded_of_isSession hp)
      · rw [hname] at hdelivered
        exact hkept p hp hnone (hname ▸ of_decide_eq_true hdb) hmodel hvar hdelivered
    rw [lookup_session hexisting hp, hno]
    rfl
  · intro p hp hname hnone hsession
    obtain ⟨hkind, hself, hsame⟩ := hpass p hp (.inr (.inr hname))
    refine Param.value_eq_some.mpr ⟨hkind, ?_⟩
    refine hfilling.plain p .storage hp hself (hsame ▸ hnone) ?_
    rw [lookup_callKwargs hexisting (not_mem_pop v),
      if_pos ⟨injectDb_iff.mpr ⟨p, hp, hname, hsession⟩, hname⟩]

theorem passable_of (hpy : e.py.Documented) (h : e.call n params = .ok kwargs)
    (hinj : e.Injects kwargs) : e.Passable := by
  obtain ⟨v, existing, cache, hv, hexisting, hfilling⟩ := leads_of_call h
  have hplain : ∀ p : Param F O, p.declaredDepends = none → p.extractDepends = none := by
    intro p hnone
    cases hd : p.extractDepends with
    | none => rfl
    | some d =>
      rw [Param.declaredDepends_of_extractDepends hd] at hnone
      cases hnone
  intro p hp hinjected
  cases hd : p.declaredDepends with
  | some d =>
    obtain ⟨o, ho, -⟩ := hinj.depends p hp d hd
    obtain ⟨hkind, hlookup⟩ := Param.value_eq_some.mp ho
    rcases hfilling.origin _ _ hlookup with hext | ⟨q, d', o', hq, hname, hfilled, -⟩
    · exact absurd hext (ne_resolved_of_callKwargs hpy hv hexisting)
    · obtain rfl := e.sig.eq_of_name hq hp hname
      rw [← hd, Param.declaredDepends_of_extractDepends hfilled.1]
      exact ⟨hkind, hfilled.2.1, hfilled.1.symm⟩
  | none =>
    rw [hplain p hd]
    by_cases hsession : e.IsSession p
    · exact ⟨(Param.value_eq_some.mp (hinj.session p hsession hd)).1, name_ne_self hsession, rfl⟩
    · rcases hinjected with hne | hs | hname
      · exact absurd hd hne
      · exact absurd hs hsession
      · refine ⟨(Param.value_eq_some.mp (hinj.db p hp hname hd hsession)).1, ?_, rfl⟩
        rw [hname]
        decide

theorem sessionKept_of (hpy : e.py.Documented) (h : e.call n params = .ok kwargs)
    (hinj : e.Injects kwargs) : e.SessionKept params := by
  intro p hp hnone hdb hmodel hvar hdelivered
  obtain ⟨v, existing, cache, hv, hexisting, hfilling⟩ := leads_of_call h
  have hmem := mem_of_isSession hp
  obtain ⟨-, hself, hsame⟩ := passable_of hpy h hinj p hmem (.inr (.inl hp))
  obtain ⟨w, hw⟩ := Option.isSome_iff_exists.mp (Assoc.lookup_isSome_iff.mpr hdelivered)
  have hlookup : existing.lookup p.name = some (.network w) := by
    rw [lookup_session hexisting hp, lookup_pop v hdb,
      Signature.lookup_validateParams hpy hv hmodel hvar (excluded_of_isSession hp), hw]
    rfl
  have hnetwork := hfilling.plain p _ hmem hself (hsame ▸ hnone) hlookup
  have hheld := (Param.value_eq_some.mp (hinj.session p hp hnone)).2
  rw [hnetwork] at hheld
  cases hheld

omit [DecidableEq F] in
/-- The contexts of two deliveries differ in names of `Depends` parameters alone. -/
theorem context_alike (hpy : e.py.Documented) (hpass : e.Passable)
    (hagree : params.filter (fun x => decide (x.1 ∉ e.injectedParams)) =
      params'.filter fun x => decide (x.1 ∉ e.injectedParams))
    (hkept : e.SessionKept params) (hkept' : e.SessionKept params')
    (hmodel : e.ModelAlike params params') : ∃ names : List String,
      (∀ k ∈ names, ∃ p ∈ e.sig.params, ∃ d, p.Filled d ∧ p.name = k) ∧
      (e.context params).map (·.filter fun x => decide (x.1 ∉ names)) =
        (e.context params').map (·.filter fun x => decide (x.1 ∉ names)) := by
  -- the names that `**kwargs` takes and that a dependency may be handed
  have hmem : ∀ k ∈ e.overlap params ++ e.overlap params', k ∈ e.dependsParams ∧ k ≠ "db" := by
    intro k hk
    rcases List.mem_append.mp hk with h | h
    · exact of_decide_eq_true (List.mem_filter.mp h).2
    · exact of_decide_eq_true (List.mem_filter.mp h).2
  have hfilled : ∀ k ∈ e.overlap params ++ e.overlap params',
      ∃ p ∈ e.sig.params, ∃ d, p.Filled d ∧ p.name = k := by
    intro k hk
    obtain ⟨p, hp, d, hd, hname⟩ := mem_dependsParams.mp (hmem k hk).1
    obtain ⟨hkind, hself, -⟩ := hpass p hp
      (.inl (by rw [Param.declaredDepends_of_extractDepends hd]; exact Option.some_ne_none d))
    exact ⟨p, hp, d, ⟨hd, hself, fun hvar => by rw [hvar] at hkind; cases hkind⟩, hname⟩
  refine ⟨e.overlap params ++ e.overlap params', hfilled, ?_⟩
  have hself : "self" ∉ e.overlap params ++ e.overlap params' := by
    intro hk
    obtain ⟨p, -, d, hd, hname⟩ := hfilled _ hk
    exact hd.2.1 hname
  have hvalidated := Signature.validateParams_alike hpy hagree hmodel
  unfold context
  cases hv : e.sig.validateParams e.py params e.injectedParams with
  | error error =>
    rw [hv] at hvalidated
    cases hv' : e.sig.validateParams e.py params' e.injectedParams with
    | error error' =>
      rw [hv'] at hvalidated
      cases hvalidated
      rfl
    | ok v' =>
      rw [hv'] at hvalidated
      cases hvalidated
  | ok v =>
    rw [hv] at hvalidated
    cases hv' : e.sig.validateParams e.py params' e.injectedParams with
    | error error' =>
      rw [hv'] at hvalidated
      cases hvalidated
    | ok v' =>
      rw [hv'] at hvalidated
      have hfree : v.filter (fun x => decide (x.1 ∉ e.injectedParams)) =
          v'.filter fun x => decide (x.1 ∉ e.injectedParams) := Except.ok.inj hvalidated
      have hpop := pop_filter hpy hpass hkept hv (fun k hk => (hmem k hk).1)
        fun _ _ k hk => List.mem_append_left _ hk
      have hpop' := pop_filter hpy hpass hkept' hv' (fun k hk => (hmem k hk).1)
        fun _ _ k hk => List.mem_append_right _ hk
      rw [hfree, ← hpop'] at hpop
      exact callKwargs_alike hself (fun hk => (hmem _ hk).2 rfl) hpop

theorem call_alike (hpy : e.py.Documented) (hpass : e.Passable)
    (hagree : params.filter (fun x => decide (x.1 ∉ e.injectedParams)) =
      params'.filter fun x => decide (x.1 ∉ e.injectedParams))
    (hkept : e.SessionKept params) (hkept' : e.SessionKept params')
    (hmodel : e.ModelAlike params params') (halike : e.DependenciesAlike params params') :
    e.call n params = e.call n params' := by
  obtain ⟨names, hfilled, hcontext⟩ := context_alike hpy hpass hagree hkept hkept' hmodel
  unfold call
  cases hx : e.context params with
  | error fault =>
    rw [hx] at hcontext
    cases hx' : e.context params' with
    | error fault' =>
      rw [hx'] at hcontext
      cases hcontext
      rfl
    | ok existing' =>
      rw [hx'] at hcontext
      cases hcontext
  | ok existing =>
    rw [hx] at hcontext
    cases hx' : e.context params' with
    | error fault' =>
      rw [hx'] at hcontext
      cases hcontext
    | ok existing' =>
      rw [hx'] at hcontext
      have hsame : existing.filter (fun x => decide (x.1 ∉ names)) =
          existing'.filter fun x => decide (x.1 ∉ names) := Except.ok.inj hcontext
      dsimp only
      by_cases hdepends : e.hasDepends = true
      · rw [if_pos hdepends, if_pos hdepends, Injector.resolveDependencies_congr n e.func]
        intro g hg
        rcases Relation.reflTransGen_iff_eq_or_transGen.mp hg with heq | hway
        · -- the names are those of parameters of the function itself
          subst heq
          refine Param.handedAlike_of_not_reads (fun k hk => ?_) hsame
          obtain ⟨p, hp, d, hd, hname⟩ := hfilled k hk
          rintro (⟨q, hq, hnone, hqname⟩ | ⟨htaken, -⟩)
          · rw [e.sig.eq_of_name hp hq (hname.trans hqname.symm)] at hd
            rw [hd.1] at hnone
            cases hnone
          · exact htaken (Param.mem_taken.mpr ⟨p, hp, hname, hd.2.1, .inr ⟨d, hd⟩⟩)
        · exact halike existing existing' hx hx' g hway
      · rw [if_neg hdepends, if_neg hdepends]
        -- without dependencies no name is left out
        have hnil : names = [] := by
          refine List.eq_nil_iff_forall_not_mem.mpr fun k hk => ?_
          obtain ⟨p, hp, d, hd, hname⟩ := hfilled k hk
          have hmem := mem_dependsParams.mpr ⟨p, hp, d, hd.1, hname⟩
          rw [dependsParams_eq_nil hdepends] at hmem
          cases hmem
        subst hnil
        have heq : existing = existing' := by simpa using hsame
        rw [heq]

/-- Where dependencies return, a call comes about whatever they return. -/
theorem exists_call_withBodies {run : F → Kwargs F W O → Except E O}
    (hrun : ∀ f kwargs, ∃ o, run f kwargs = .ok o) (h : e.call n params = .ok kwargs) :
    ∃ kwargs', (e.withBodies run).call n params = .ok kwargs' := by
  obtain ⟨existing, hx⟩ := context_of_call h
  have hx' : (e.withBodies run).context params = .ok existing := hx
  obtain ⟨hbinds, hkwargs⟩ := (call_eq_ok hx).mp h
  by_cases hdepends : e.hasDepends = true
  · rw [if_pos hdepends] at hkwargs
    obtain ⟨cache, hs⟩ := hkwargs
    obtain ⟨s', hs', hkeys⟩ := Injector.resolveDependencies_withBodies hrun n e.func
      [] [] [] _ rfl hs
    refine ⟨s'.kwargs, (call_eq_ok hx').mpr ⟨?_, ?_⟩⟩
    · exact (e.sig.binds_congr hkeys.kwargs).symm.trans hbinds
    · have hdepends' : (e.withBodies run).hasDepends = true := hdepends
      rw [if_pos hdepends']
      exact ⟨s'.cache, hs'⟩
  · rw [if_neg hdepends] at hkwargs
    have hdepends' : ¬(e.withBodies run).hasDepends = true := hdepends
    refine ⟨existing, (call_eq_ok hx').mpr ⟨hkwargs ▸ hbinds, ?_⟩⟩
    rw [if_neg hdepends']

/-- Where the calls are equal for all bodies, the dependencies are handed the same. -/
theorem dependenciesAlike_of (h : e.call n params = .ok kwargs) {o mark : O} (hne : o ≠ mark)
    (halike : ∀ run, (e.withBodies run).call n params = (e.withBodies run).call n params') :
    e.DependenciesAlike params params' := by
  intro existing existing' hx hx' g hway
  by_contra hnot
  obtain ⟨f, ⟨p, hp, d, hd, rfl⟩, hrest⟩ := Relation.TransGen.head'_iff.mp hway
  have hreturns : ∀ f kwargs, ∃ o', e.marking (E := E) g existing' o mark f kwargs = .ok o' :=
    fun f kwargs => ⟨_, rfl⟩
  obtain ⟨kw, hkw⟩ := exists_call_withBodies hreturns h
  have hkw' := hkw
  rw [halike] at hkw'
  obtain ⟨cache, hfilling⟩ := filling_of_call (e := e.withBodies (e.marking g existing' o mark)) hx
    (Injector.returns_unmarked hne hnot) hkw
  obtain ⟨cache', hfilling'⟩ := filling_of_call
    (e := e.withBodies (e.marking g existing' o mark)) hx'
    Injector.returns_marked hkw'
  obtain ⟨o₁, ho₁, rfl⟩ := hfilling.filled p d hp hd
  obtain ⟨o₂, ho₂, hmark⟩ := hfilling'.filled p d hp hd
  rw [ho₁] at ho₂
  cases ho₂
  exact hne (hmark hrest)

/-- The function gets what the single `BaseModel` made. -/
theorem lookup_model {m : String × H} (hm : e.sig.modelParam e.py e.excluded = some m)
    (h : e.call n params = .ok kwargs) : ∃ o, e.py.modelValidate m.2 params = .ok o ∧
      kwargs.lookup m.1 = some (.validated o) := by
  obtain ⟨v, existing, cache, hv, hexisting, hfilling⟩ := leads_of_call h
  obtain ⟨p, hp, hname, hfree⟩ := Signature.not_mem_of_modelParam hm
  unfold Signature.validateParams at hv
  dsimp only at hv
  rw [show e.sig.modelParam e.py ("self" :: e.injectedParams) = some m from hm] at hv
  dsimp only at hv
  cases ho : e.py.modelValidate m.2 params with
  | error error =>
    rw [ho] at hv
    cases hv
  | ok o =>
    rw [ho] at hv
    obtain rfl := Except.ok.inj hv
    refine ⟨o, rfl, ?_⟩
    have hself : m.1 ≠ "self" := fun heq => hfree (heq ▸ List.mem_cons_self)
    have hinjected : m.1 ∉ e.injectedParams := fun hmem => hfree (List.mem_cons_of_mem _ hmem)
    have hdb : m.1 ≠ "db" := by
      intro heq
      by_cases hsession : e.IsSession p
      · exact hfree (hname ▸ excluded_of_isSession hsession)
      · exact hinjected (mem_injectedParams.mpr (.inr (.inr
          ⟨injectDb_iff.mpr ⟨p, hp, hname.trans heq, hsession⟩, heq⟩)))
    have hnone : p.extractDepends = none := by
      cases hd : p.extractDepends with
      | none => rfl
      | some d => exact absurd (mem_injectedParams.mpr (.inl (mem_dependsParams.mpr
          ⟨p, hp, d, hd, hname⟩))) hinjected
    have hlookup : existing.lookup p.name = some (.validated o) := by
      rw [lookup_callKwargs hexisting (not_mem_pop _), hname, if_neg fun h => hdb h.2,
          lookup_pop _ hdb,
        List.lookup_cons_self]
      rfl
    have hkept := hfilling.plain p _ hp (hname ▸ hself) hnone hlookup
    rwa [hname] at hkept

theorem modelAlike_of {kwargs' : Kwargs F W O} (h : e.call n params = .ok kwargs)
    (h' : e.call n params' = .ok kwargs') (halike : e.call n params = e.call n params') :
    e.ModelAlike params params' := by
  intro m hm
  obtain ⟨o, ho, hlookup⟩ := lookup_model hm h
  obtain ⟨o', ho', hlookup'⟩ := lookup_model hm h'
  obtain rfl : kwargs = kwargs' := by
    rw [h, h'] at halike
    exact Except.ok.inj halike
  rw [hlookup] at hlookup'
  cases hlookup'
  rw [ho, ho']

/-- Two deliveries that differ in injected names lead to equal calls, in which these hold what the
framework has, when every injected parameter can be passed, the name of the session is not delivered
to `**kwargs`, a single model makes the same of both, and no dependency is handed something else by
one of them.  Where both calls come about, all but the last is necessary; and it is so for all
bodies that the dependencies may have exactly when the last holds as well. -/
theorem injected_isolated (hpy : e.py.Documented)
    (hagree : params.filter (fun x => decide (x.1 ∉ e.injectedParams)) =
      params'.filter fun x => decide (x.1 ∉ e.injectedParams)) :
    ((e.Passable ∧ e.SessionKept params ∧ e.SessionKept params' ∧ e.ModelAlike params params') ∧
        e.DependenciesAlike params params' → e.Isolated n params params') ∧
      ∀ kwargs kwargs', e.call n params = .ok kwargs → e.call n params' = .ok kwargs' →
        (e.Isolated n params params' →
          e.Passable ∧ e.SessionKept params ∧ e.SessionKept params' ∧
            e.ModelAlike params params') ∧
        ∀ o o' : O, o ≠ o' → ((∀ run, (e.withBodies run).Isolated n params params') ↔
          (e.Passable ∧ e.SessionKept params ∧ e.SessionKept params' ∧
            e.ModelAlike params params') ∧ e.DependenciesAlike params params') := by
  -- the conditions do not speak of the bodies, so they are enough for all of them
  have henough : ∀ run, (e.Passable ∧ e.SessionKept params ∧ e.SessionKept params' ∧
      e.ModelAlike params params') ∧ e.DependenciesAlike params params' →
      (e.withBodies run).Isolated n params params' := by
    rintro run ⟨⟨hpass, hkept, hkept', hmodel⟩, halike⟩
    exact ⟨fun kwargs h => injects_of (e := e.withBodies run) hpy hpass hkept h,
      fun kwargs h => injects_of (e := e.withBodies run) hpy hpass hkept' h,
      call_alike (e := e.withBodies run) hpy hpass hagree hkept hkept' hmodel halike⟩
  refine ⟨henough e.run, fun kwargs kwargs' h h' => ?_⟩
  have hneeded : e.Isolated n params params' → e.Passable ∧ e.SessionKept params ∧
      e.SessionKept params' ∧ e.ModelAlike params params' := fun hisolated =>
    ⟨passable_of hpy h (hisolated.left kwargs h), sessionKept_of hpy h (hisolated.left kwargs h),
      sessionKept_of hpy h' (hisolated.right kwargs' h'), modelAlike_of h h' hisolated.alike⟩
  refine ⟨hneeded, fun o o' hne => ⟨fun hall => ?_, fun hcond run => henough run hcond⟩⟩
  exact ⟨hneeded (hall e.run), dependenciesAlike_of h hne fun run => (hall run).alike⟩

/-! ### A channel and a handler -/

/-- The fields of a dynamic model, none of which has a hint. -/
def untypedFields {F H : Type} (params : List (String × String)) :
    List (String × FieldDefinition F H String) → Except String (Kwargs F String String)
  | [] => .ok []
  | (name, field) :: rest =>
    match params.lookup name, field.default with
    | some w, _ => (untypedFields params rest).map ((name, .validated w) :: ·)
    | none, .value o => (untypedFields params rest).map ((name, .validated o) :: ·)
    | none, _ => .error ("Field required: " ++ name)

/-- Pydantic, where nothing has a hint that it would check. -/
def untypedPydantic (F H : Type) : Pydantic F H String String String where
  present := true
  isBaseModel := fun _ => false
  modelValidate := fun _ _ => .error ""
  dynamicValidation := fun fields allow params => (untypedFields params fields).map
    (· ++ if allow then (params.filter fun x => decide (x.1 ∉ fields.map Prod.fst)).map
      fun x => (x.1, .network x.2) else [])

theorem untypedFields_congr {F H : Type} {params params' : List (String × String)}
    {fields : List (String × FieldDefinition F H String)}
    (h : ∀ k ∈ fields.map Prod.fst, params.lookup k = params'.lookup k) :
    untypedFields params fields = untypedFields params' fields := by
  induction fields with
  | nil => rfl
  | cons x rest ih =>
    rw [untypedFields, untypedFields, h x.1 List.mem_cons_self,
      ih fun k hk => h k (List.mem_cons_of_mem _ hk)]

theorem untypedFields_dump {F H : Type} {params : List (String × String)}
    {fields : List (String × FieldDefinition F H String)} {d : Kwargs F String String}
    (h : untypedFields params fields = .ok d) :
    ∀ x ∈ d, x.1 ∈ fields.map Prod.fst ∧ ∃ o, x.2 = .validated o := by
  induction fields generalizing d with
  | nil =>
    obtain rfl := Except.ok.inj h
    exact fun x hx => absurd hx List.not_mem_nil
  | cons y rest ih =>
    have hcons : ∀ o, (untypedFields (F := F) params rest).map ((y.1,
        Arg.validated o) :: ·) = .ok d →
        ∀ x ∈ d, x.1 ∈ (y :: rest).map Prod.fst ∧ ∃ o, x.2 = .validated o := by
      intro o ho x hx
      cases hrest : untypedFields (F := F) params rest with
      | error message =>
        rw [hrest] at ho
        cases ho
      | ok d' =>
        rw [hrest] at ho
        obtain rfl := Except.ok.inj ho
        rcases List.mem_cons.mp hx with rfl | hlater
        · exact ⟨List.mem_cons_self, o, rfl⟩
        · obtain ⟨hmem, hvalidated⟩ := ih hrest x hlater
          exact ⟨List.mem_cons_of_mem _ hmem, hvalidated⟩
    rw [untypedFields] at h
    split at h
    · exact hcons _ h
    · exact hcons _ h
    · cases h

theorem untypedPydantic_documented (F H : Type) : (untypedPydantic F H).Documented where
  ignore := by
    intro fields params
    have hread : untypedFields params fields =
        untypedFields (params.filter fun x => decide (x.1 ∈ fields.map Prod.fst)) fields := by
      refine untypedFields_congr fun k hk => ?_
      rw [Assoc.lookup_filter (fun k => decide (k ∈ fields.map Prod.fst)),
        if_pos (decide_eq_true hk)]
    show (untypedFields params fields).map (· ++ []) =
      (untypedFields (params.filter _) fields).map (· ++ [])
    rw [hread]
  dump := by
    intro fields params d h
    cases hd : untypedFields (F := F) params fields with
    | error message =>
      rw [untypedPydantic] at h
      dsimp only at h
      rw [hd] at h
      cases h
    | ok d' =>
      rw [untypedPydantic] at h
      dsimp only at h
      rw [hd] at h
      have heq : d' ++ [] = d := Except.ok.inj h
      rw [List.append_nil] at heq
      exact heq ▸ untypedFields_dump hd
  allow := by
    intro fields params
    rw [untypedPydantic]
    dsimp only
    cases untypedFields (F := F) params fields with
    | error message => rfl
    | ok d =>
      refine congrArg Except.ok ?_
      show d ++ _ = (d ++ []) ++ _
      rw [List.append_nil]
      rfl

/-- `async def chat(s, **kw)`. -/
def chatEndpoint : Endpoint Unit Unit String String String where
  signature := fun _ => {
    params := [⟨"s", .positionalOrKeyword, .empty, .bare⟩, ⟨"kw", .varKeyword, .empty, .bare⟩]
    typeHints := some []
    nodup := by decide
    last := by decide }
  run := fun _ _ => .error ""
  override := id
  verb := .channel
  func := ()
  py := untypedPydantic Unit Unit
  bindable := by decide

/-- The network's `s` takes the place of the session. -/
theorem chat_session_delivered :
    ([("s", "x")].filter fun x => decide (x.1 ∉ chatEndpoint.injectedParams)) =
      ([] : List (String × String)).filter (fun x => decide (x.1 ∉ chatEndpoint.injectedParams)) ∧
    ¬chatEndpoint.Isolated 1000 [("s", "x")] [] := by
  refine ⟨by decide, fun h => ?_⟩
  have hcall : chatEndpoint.call 1000 [("s", "x")] = .ok [("s", .network "x")] := rfl
  have hheld := (h.left _ hcall).session ⟨"s", .positionalOrKeyword, .empty, .bare⟩ ⟨rfl, rfl⟩ rfl
  cases hheld

/-- The functions of `moveEndpoint`. -/
inductive MoveFunc
  | move
  | getUser
  | getLimits
  deriving DecidableEq

/-- `def move(distance, user=Depends(get_user), limits=Depends(get_limits), db=None, **rest)`, with
`def get_limits(user=Depends(get_user), **kw)`. -/
def moveEndpoint : Endpoint MoveFunc Unit String String String where
  signature := fun f =>
    match f with
    | .move => {
      params := [⟨"distance", .positionalOrKeyword, .empty, .bare⟩,
        ⟨"user", .positionalOrKeyword, .depends ⟨.getUser, true⟩, .bare⟩,
        ⟨"limits", .positionalOrKeyword, .depends ⟨.getLimits, true⟩, .bare⟩,
        ⟨"db", .positionalOrKeyword, .value "None", .bare⟩, ⟨"rest", .varKeyword, .empty, .bare⟩]
      typeHints := some [("distance", ())]
      nodup := by decide
      last := by decide }
    | .getUser => {
      params := []
      typeHints := some []
      nodup := by decide
      last := by decide }
    | .getLimits => {
      params := [⟨"user", .positionalOrKeyword, .depends ⟨.getUser, true⟩, .bare⟩,
        ⟨"kw", .varKeyword, .empty, .bare⟩]
      typeHints := some []
      nodup := by decide
      last := by decide }
  run := fun f _ => .ok (if f = .getUser then "alice" else "10")
  override := id
  verb := .handle
  func := .move
  py := untypedPydantic MoveFunc Unit
  bindable := by decide

/-- `**kw` of `get_limits` does not take `user`, which is a parameter of its own. -/
theorem moveEndpoint_not_reads {g : MoveFunc} (hg : g ≠ .move) :
    ¬Param.Reads (moveEndpoint.signature g).params "user" := by
  cases g with
  | move => exact absurd rfl hg
  | getUser =>
    rintro (⟨p, hp, -⟩ | ⟨-, p, hp, -⟩)
    · cases hp
    · cases hp
  | getLimits =>
    rintro (⟨p, hp, hnone, hname⟩ | ⟨htaken, -⟩)
    · rcases hp with _ | ⟨_, _ | ⟨_, hp⟩⟩
      · cases hnone
      · exact absurd hname (by decide)
      · cases hp
    · exact htaken (by decide)

/-- Nothing depends on `move`. -/
theorem moveEndpoint_ne_move {f g : MoveFunc} (h : moveEndpoint.DependsOn f g) : g ≠ .move := by
  obtain ⟨p, hp, d, hd, rfl⟩ := h
  cases f with
  | move =>
    rcases hp with _ | ⟨_, _ | ⟨_, _ | ⟨_, _ | ⟨_, _ | ⟨_, hp⟩⟩⟩⟩⟩
    · cases hd.1
    · cases hd.1
      decide
    · cases hd.1
      decide
    · cases hd.1
    · cases hd.1
    · cases hp
  | getUser => cases hp
  | getLimits =>
    rcases hp with _ | ⟨_, _ | ⟨_, hp⟩⟩
    · cases hd.1
      decide
    · cases hd.1
    · cases hp

/-- The network's `user` reaches nobody. -/
theorem move_isolated :
    moveEndpoint.Isolated 1000 [("user", "mallory"), ("distance", "3"), ("x", "1")]
      [("distance", "3"), ("x", "1"), ("db", "mine")] := by
  have hagree : ([("user", "mallory"), ("distance", "3"), ("x", "1")].filter fun x =>
        decide (x.1 ∉ moveEndpoint.injectedParams)) =
      [("distance", "3"), ("x", "1"), ("db", "mine")].filter fun x =>
        decide (x.1 ∉ moveEndpoint.injectedParams) := by decide
  have hexact := (injected_isolated (n := 1000) (untypedPydantic_documented MoveFunc Unit) hagree).2
    _ _ rfl rfl
  refine (hexact.2 "alice" "mallory" (by decide)).mpr ⟨⟨?_, ?_, ?_, ?_⟩, ?_⟩ moveEndpoint.run
  · intro p hp hinjected
    rcases hp with _ | ⟨_, _ | ⟨_, _ | ⟨_, _ | ⟨_, _ | ⟨_, hp⟩⟩⟩⟩⟩
    · exact ⟨rfl, by decide, rfl⟩
    · exact ⟨rfl, by decide, rfl⟩
    · exact ⟨rfl, by decide, rfl⟩
    · exact ⟨rfl, by decide, rfl⟩
    · rcases hinjected with hdepends | hsession | hdb
      · exact absurd rfl hdepends
      · exact absurd hsession.1 (by decide)
      · exact absurd hdb (by decide)
    · cases hp
  · exact fun p hp => absurd hp.1 (by decide)
  · exact fun p hp => absurd hp.1 (by decide)
  · intro m hm
    cases hm
  · intro existing existing' hx hx' g hway
    obtain rfl := Except.ok.inj hx
    obtain rfl := Except.ok.inj hx'
    obtain ⟨f, -, hlast⟩ := Relation.TransGen.tail'_iff.mp hway
    have hreads : ∀ k ∈ ["user"], ¬Param.Reads (moveEndpoint.signature g).params k := by
      intro k hk
      obtain rfl := List.mem_singleton.mp hk
      exact moveEndpoint_not_reads (moveEndpoint_ne_move hlast)
    exact Param.handedAlike_of_not_reads hreads (by decide)

end Endpoint

end Istos
