import Istos.Data.Assoc

/-!
# What an endpoint's function is called with

`Endpoint.call` is the way from the parameters of a delivery to the call of the function of a
`@handle`, a `@stream` or a `@channel`: `validate_params`, the injected `db` and session,
`resolve_dependencies`, and the binding of the keywords that Python makes.

An argument carries where it comes from.  Pydantic, the models of the application and the bodies of
its dependencies are parameters.
-/

namespace Istos

/-! ### Signatures -/

/-- `inspect.Parameter.kind`. -/
inductive ParamKind
  | positionalOnly
  | positionalOrKeyword
  | varPositional
  | keywordOnly
  | varKeyword
  deriving DecidableEq

/-- Whether a keyword of the parameter's name fills it. -/
def ParamKind.byName : ParamKind → Bool
  | positionalOrKeyword => true
  | keywordOnly => true
  | _ => false

/-- Whether the parameter is `*args` or `**kwargs`. -/
def ParamKind.variadic : ParamKind → Bool
  | varPositional => true
  | varKeyword => true
  | _ => false

/-- `Depends(dependency, use_cache)`. -/
structure Depends (F : Type) where
  dependency : F
  useCache : Bool

/-- `inspect.Parameter.default`. -/
inductive ParamDefault (F O : Type)
  | empty
  | value (o : O)
  | depends (d : Depends F)

/-- What `inspect.Parameter.annotation` has of a marker. -/
inductive ParamAnnotation (F : Type)
  /-- nothing -/
  | bare
  /-- `Annotated[..., Depends(...)]` -/
  | annotated (d : Depends F)
  /-- the source text of an annotation, which is what a module with deferred annotations has -/
  | text (d : Option (Depends F))

/-- `inspect.Parameter`. -/
structure Param (F O : Type) where
  name : String
  kind : ParamKind
  default : ParamDefault F O
  annotation : ParamAnnotation F

namespace Param

variable {F O : Type}

/-- `extract_depends`. -/
def extractDepends (p : Param F O) : Option (Depends F) :=
  match p.default with
  | .depends d => some d
  | _ =>
    match p.annotation with
    | .annotated d => some d
    | _ => none

/-- The marker that the source has. -/
def declaredDepends (p : Param F O) : Option (Depends F) :=
  match p.default with
  | .depends d => some d
  | _ =>
    match p.annotation with
    | .annotated d => some d
    | .text d => d
    | .bare => none

/-- Whether the parameter has a default. -/
def hasDefault (p : Param F O) : Bool :=
  match p.default with
  | .empty => false
  | _ => true

end Param

/-- `inspect.signature` of a function, and its `get_type_hints`. -/
structure Signature (F H O : Type) where
  params : List (Param F O)
  /-- `none` where a hint cannot be resolved -/
  typeHints : Option (List (String × H))
  /-- no two parameters have one name -/
  nodup : (params.map Param.name).Nodup
  /-- nothing follows `**kwargs` -/
  last : ∀ p ∈ params.dropLast, p.kind ≠ .varKeyword

/-! ### Arguments -/

/-- An argument, with where it comes from. -/
inductive Arg (F W O : Type)
  /-- a value of the network -/
  | network (x : W)
  /-- what Pydantic made of a value -/
  | validated (o : O)
  /-- the app's storage -/
  | storage
  /-- the `ChannelSession` -/
  | session
  /-- what a dependency returned -/
  | resolved (f : F) (o : O)
  deriving DecidableEq

/-- Keyword arguments. -/
abbrev Kwargs (F W O : Type) := List (String × Arg F W O)

/-! ### Validation -/

/-- A field of the dynamic model: its annotation, where there is a hint, and its default. -/
structure FieldDefinition (F H O : Type) where
  annotation : Option H
  default : ParamDefault F O

/-- Pydantic, and the models of the application. -/
structure Pydantic (F H W O E : Type) where
  /-- `HAS_PYDANTIC` -/
  present : Bool
  /-- `_is_basemodel` -/
  isBaseModel : H → Bool
  /-- `param_type.model_validate(params)` -/
  modelValidate : H → List (String × W) → Except E O
  /-- `create_model("DynamicValidation", **fields).model_validate(params).model_dump()`; the second
  argument is whether the model has `extra="allow"` -/
  dynamicValidation : List (String × FieldDefinition F H O) → Bool → List (String × W) →
    Except E (Kwargs F W O)

/-- What Pydantic documents of a dynamic model. -/
structure Pydantic.Documented {F H W O E : Type} (py : Pydantic F H W O E) : Prop where
  /-- it reads the keys of its fields -/
  ignore : ∀ fields (params : List (String × W)), py.dynamicValidation fields false params =
    py.dynamicValidation fields false (params.filter fun x => decide (x.1 ∈ fields.map Prod.fst))
  /-- its dump has the fields -/
  dump : ∀ fields params d, py.dynamicValidation fields false params = .ok d →
    ∀ x ∈ d, x.1 ∈ fields.map Prod.fst ∧ ∃ o, x.2 = .validated o
  /-- what it allows beyond them is dumped as it came -/
  allow : ∀ fields (params : List (String × W)), py.dynamicValidation fields true params =
    (py.dynamicValidation fields false params).map (· ++
      (params.filter fun x => decide (x.1 ∉ fields.map Prod.fst)).map fun x => (x.1, .network x.2))

/-- Why a call does not come about. -/
inductive CallFault (F E : Type)
  /-- `SchemaValidationError` -/
  | invalid (e : E)
  /-- `DependencyCycleError`, with the chain -/
  | cycle (chain : List F)
  /-- the `TypeError` of a required parameter -/
  | required (name : String) (func : F)
  /-- what a dependency raised -/
  | raised (e : E)
  /-- `RecursionError` -/
  | recursion
  /-- the `TypeError` of a call -/
  | arguments

namespace Signature

variable {F H W O E : Type} (sig : Signature F H O)

/-- `hints`. -/
def hints : List (String × H) := sig.typeHints.getD []

/-- The parameters that are not excluded. -/
def included (excluded : List String) : List (Param F O) :=
  sig.params.filter fun p => decide (p.name ∉ excluded)

/-- Whether one of them is `**kwargs`. -/
def varKeyword (excluded : List String) : Bool :=
  (sig.included excluded).any fun p => decide (p.kind = .varKeyword)

/-- `_declared_params`. -/
def declaredParams (params : List (String × W)) (excluded : List String) : List (String × W) :=
  let accepted := ((sig.included excluded).filter fun p => !p.kind.variadic).map Param.name
  if sig.varKeyword excluded then params else params.filter fun x => decide (x.1 ∈ accepted)

/-- The single `BaseModel` parameter and its type. -/
def modelParam (py : Pydantic F H W O E) (excluded : List String) : Option (String × H) :=
  match sig.included excluded with
  | [p] =>
    match sig.hints.lookup p.name with
    | some h => if py.present && py.isBaseModel h then some (p.name, h) else none
    | none => none
  | _ => none

/-- `field_definitions`. -/
def fieldDefinitions (excluded : List String) : List (String × FieldDefinition F H O) :=
  ((sig.included excluded).filter fun p => !p.kind.variadic).map fun p =>
    (p.name, ⟨sig.hints.lookup p.name, p.default⟩)

/-- `validate_params`. -/
def validateParams (py : Pydantic F H W O E) (params : List (String × W))
    (skipParams : List String) :
    Except E (Kwargs F W O) :=
  let excluded := "self" :: skipParams
  let declared : Kwargs F W O :=
    (sig.declaredParams params excluded).map fun x => (x.1, .network x.2)
  match sig.modelParam py excluded with
  | some (name, h) => (py.modelValidate h params).map fun o => [(name, .validated o)]
  | none =>
    if !py.present || sig.hints.isEmpty then .ok declared
    else if (sig.fieldDefinitions excluded).isEmpty then .ok declared
    else py.dynamicValidation (sig.fieldDefinitions excluded) (sig.varKeyword excluded) params

/-- Whether Python binds the keywords to the parameters. -/
def binds (kwargs : Kwargs F W O) : Bool :=
  (kwargs.all fun x => sig.params.any fun p =>
    decide (p.kind = .varKeyword) || p.kind.byName && decide (p.name = x.1)) &&
  sig.params.all fun p => p.kind.variadic || p.hasDefault ||
    p.kind.byName && (kwargs.lookup p.name).isSome

end Signature

/-! ### Dependencies -/

/-- The functions of an application, and the overrides of its dependencies. -/
structure Injector (F H W O E : Type) where
  signature : F → Signature F H O
  /-- what a dependency does with its arguments -/
  run : F → Kwargs F W O → Except E O
  /-- `overrides.get(original, original)` -/
  override : F → F

/-- `resolve_dependencies` on its way through the parameters. -/
structure Resolving (F W O : Type) where
  cache : List (F × O)
  kwargs : Kwargs F W O

namespace Injector

variable {F H W O E : Type} [DecidableEq F] (inj : Injector F H W O E)

/-- One parameter; `resolve` is the recursive call. -/
def resolveParam (resolve : F → List F → List (F × O) → Except (CallFault F E) (Resolving F W O))
    (existing : Kwargs F W O) (func : F) (chain : List F) (s : Resolving F W O) (p : Param F O) :
    Except (CallFault F E) (Resolving F W O) :=
  if p.name = "self" then .ok s
  else
    match p.extractDepends, existing.lookup p.name with
    | none, some v => .ok { s with kwargs := Assoc.set s.kwargs p.name v }
    | depends, _ =>
      -- `**kwargs` takes what is left, also where it has a marker
      if p.kind = .varKeyword then
        .ok { s with
          kwargs := s.kwargs ++ existing.filter fun x => decide (x.1 ∉ s.kwargs.map Prod.fst) }
      else
        match depends with
        | some d =>
          let f := inj.override d.dependency
          -- the cycle is looked for before the cache
          if d.dependency ∈ chain ∨ f ∈ chain then .error (.cycle (chain ++ [f]))
          else
            match if d.useCache then s.cache.lookup f else none with
            | some o => .ok { s with kwargs := Assoc.set s.kwargs p.name (.resolved f o) }
            | none =>
              match resolve f (chain ++ [f]) s.cache with
              | .error e => .error e
              | .ok sub =>
                match inj.run f sub.kwargs with
                | .error e => .error (.raised e)
                | .ok o => .ok {
                    cache := if d.useCache then Assoc.set sub.cache f o else sub.cache
                    kwargs := Assoc.set s.kwargs p.name (.resolved f o) }
        | none =>
          if p.hasDefault || !p.kind.byName then .ok s else .error (.required p.name func)

/-- `resolve_dependencies`, with the number of calls that the interpreter's recursion limit leaves.
-/
def resolveDependencies (existing : Kwargs F W O) :
    ℕ → F → List F → List (F × O) → Except (CallFault F E) (Resolving F W O)
  | 0, _, _, _ => .error .recursion
  | n + 1, func, chain, cache =>
    (inj.signature func).params.foldlM
      (inj.resolveParam (resolveDependencies existing n) existing func chain) ⟨cache, []⟩

end Injector

/-! ### Endpoints -/

/-- What an endpoint is registered as. -/
inductive EndpointVerb
  | handle
  | stream
  | channel
  deriving DecidableEq

/-- A function that is bound to the network. -/
structure Endpoint (F H W O E : Type) extends Injector F H W O E where
  verb : EndpointVerb
  func : F
  py : Pydantic F H W O E
  /-- `ensure_network_bindable` -/
  bindable : ∀ p, (signature func).params.head? = some p → p.name ≠ "self"

namespace Endpoint

variable {F H W O E : Type} (e : Endpoint F H W O E)

/-- `inspect.signature(func)`. -/
def sig : Signature F H O := e.signature e.func

/-- `_depends_params`. -/
def dependsParams : List String :=
  (e.sig.params.filter fun p => p.extractDepends.isSome).map Param.name

/-- `_has_depends`. -/
def hasDepends : Bool := !e.dependsParams.isEmpty

/-- `_session_param`. -/
def sessionParam : String :=
  match e.sig.params with
  | p :: _ => p.name
  | [] => "session"

/-- `_inject_db`. -/
def injectDb : Bool :=
  match e.verb with
  | .channel => e.sig.params.tail.any fun p => decide (p.name = "db")
  | _ => e.sig.params.any fun p => decide (p.name = "db")

/-- `_injected_params`. -/
def injectedParams : List String :=
  e.dependsParams ++ (if e.verb = .channel then [e.sessionParam] else []) ++
    (if e.injectDb then ["db"] else [])

/-- What the network may not name. -/
def excluded : List String := "self" :: e.injectedParams

/-- `call_kwargs` before the dependencies. -/
def callKwargs (validated : Kwargs F W O) : Except (CallFault F E) (Kwargs F W O) :=
  match e.verb with
  | .handle =>
    -- `await self(**validated_params)`
    if "self" ∈ validated.map Prod.fst then .error .arguments
    else if e.injectDb && decide ("db" ∉ validated.map Prod.fst) then
      .ok (Assoc.set validated "db" .storage)
    else .ok validated
  | .stream => .ok (if e.injectDb then Assoc.set validated "db" .storage else validated)
  | .channel =>
    let kwargs := Assoc.update [(e.sessionParam, .session)] validated
    .ok (if e.injectDb then Assoc.set kwargs "db" .storage else kwargs)

/-- `call_kwargs`, which the dependencies are resolved with. -/
def context (params : List (String × W)) : Except (CallFault F E) (Kwargs F W O) :=
  match e.sig.validateParams e.py params e.injectedParams with
  | .error error => .error (.invalid error)
  -- `validated.pop("db", None)`
  | .ok validated => e.callKwargs (validated.filter fun x => decide (x.1 ≠ "db"))

/-- The call of the function that a delivery leads to. -/
def call [DecidableEq F] (recursionLimit : ℕ) (params : List (String × W)) :
    Except (CallFault F E) (Kwargs F W O) :=
  match e.context params with
  | .error fault => .error fault
  | .ok existing =>
    let resolved : Except (CallFault F E) (Kwargs F W O) :=
      if e.hasDepends then
        (e.resolveDependencies existing recursionLimit e.func [] []).map Resolving.kwargs
      else .ok existing
    match resolved with
    | .error fault => .error fault
    | .ok kwargs => if e.sig.binds kwargs then .ok kwargs else .error .arguments

end Endpoint

end Istos
