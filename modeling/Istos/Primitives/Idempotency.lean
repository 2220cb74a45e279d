import Istos.Codec.Utf8
import Istos.Data.Cursor
import Istos.Data.Lasts
import Istos.Middleware.RateLimit
import Istos.Primitives.Inject
import Mathlib.Data.String.Basic

/-!
# The idempotency key

`handler_wrapper` makes the key of a call from its own path, the caller, and the arguments that the
call binds to the parameters of the function.  `bindPartial` is `inspect.Signature.bind_partial`
with `apply_defaults`.  What `str` writes for an object is a parameter, and so is the digest.
-/

namespace Istos

/-! ### Values -/

/-- A key of a dictionary. -/
inductive ArgKey
  | null
  | bool (b : Bool)
  | num (n : ℤ)
  | float (x : PyFloat)
  | str (s : String)
  /-- what `json` takes for no key -/
  | other
  deriving DecidableEq

/-- An argument.  A dictionary has its items in the order in which `sorted` puts them: neither `==`
nor `json.dumps(sort_keys=True)` sees the order in which they came. -/
inductive ArgValue (O : Type)
  | null
  | bool (b : Bool)
  | num (n : ℤ)
  | float (x : PyFloat)
  | str (s : String)
  | list (xs : List (ArgValue O))
  | tuple (xs : List (ArgValue O))
  | dict (items : List (ArgKey × ArgValue O))
  /-- an object that `json` does not write -/
  | other (o : O)

/-- What `json` writes for a key; `none` where it raises. -/
def ArgKey.text : ArgKey → Option String
  | null => some "null"
  | bool true => some "true"
  | bool false => some "false"
  | num n => some (String.ofList (Decimal.text n))
  | float x => some (String.ofList (Json.floatText x))
  | str s => some s
  | other => none

def ArgKey.isNumber : ArgKey → Bool
  | bool _ => true
  | num _ => true
  | float _ => true
  | _ => false

def ArgKey.isStr : ArgKey → Bool
  | str _ => true
  | _ => false

/-- Whether `sorted` can compare the keys. -/
def ArgKey.comparable (keys : List ArgKey) : Bool :=
  decide (keys.length ≤ 1) || keys.all ArgKey.isStr || keys.all ArgKey.isNumber

namespace ArgValue

variable {O : Type} (str : O → String)

mutual

/-- What `json.dumps(sort_keys=True, default=str)` makes of a value; `none` where it raises. -/
def toJson : ArgValue O → Option Json
  | .null => some .null
  | .bool b => some (.bool b)
  | .num n => some (.num n)
  | .float x => some (.float x)
  | .str s => some (.str s)
  | .list xs => (toElements xs).map .arr
  | .tuple xs => (toElements xs).map .arr
  | .dict items =>
    if ArgKey.comparable (items.map Prod.fst) then (toFields items).map .obj else none
  | .other o => some (.str (str o))

def toElements : List (ArgValue O) → Option (List Json)
  | [] => some []
  | x :: xs => do return (← toJson x) :: (← toElements xs)

def toFields : List (ArgKey × ArgValue O) → Option (List (String × Json))
  | [] => some []
  | (k, x) :: items => do return (← k.text, ← toJson x) :: (← toFields items)

end

end ArgValue

/-! ### Calls -/

/-- A dictionary of keyword arguments. -/
abbrev Keywords (V : Type) := Table (Prod.fst : String × V → String)

/-- What a parameter is bound to. -/
inductive Bound (V : Type)
  | one (v : V)
  /-- of `*args` -/
  | many (vs : List V)
  /-- of `**kwargs` -/
  | named (items : Keywords V)

/-- The request context, as far as the key reads it. -/
structure CallerContext where
  principal : Option Principal
  /-- what the attachment has as its token -/
  token : Option Json

/-- A call of a handler; `context` is `none` outside a request. -/
structure HandlerCall (V : Type) where
  args : List V
  kwargs : Keywords V
  context : Option CallerContext

/-- Whether a positional argument fills the parameter. -/
def ParamKind.positional : ParamKind → Bool
  | positionalOnly => true
  | positionalOrKeyword => true
  | _ => false

namespace Signature

variable {F H V : Type} (sig : Signature F H V)

/-- `_injected_params`. -/
def injectedParams : List String :=
  (sig.params.filter fun p => p.extractDepends.isSome || decide (p.name = "db")).map Param.name

/-- Whether an argument of this name is left out of the key. -/
def leftOut (name : String) : Bool := decide (name = "self" ∨ name ∈ sig.injectedParams)

/-- The keywords that no parameter takes by its name. -/
def extraKeywords (kwargs : Keywords V) : Keywords V :=
  kwargs.filter fun x => !sig.params.any fun p => p.kind.byName && decide (p.name = x.1)

/-- Whether `bind_partial` binds the arguments. -/
def fits (args : List V) (kwargs : Keywords V) : Bool :=
  let positional := sig.params.filter fun p => p.kind.positional
  -- not too many positional arguments
  (decide (args.length ≤ positional.length) ||
      sig.params.any fun p => decide (p.kind = .varPositional)) &&
    -- no parameter is filled twice
    ((positional.take args.length).all fun p => !(p.kind.byName && (kwargs.get? p.name).isSome)) &&
    -- no keyword has the name of a positional-only parameter that is not filled
    ((positional.drop args.length).all fun p => p.kind.byName || (kwargs.get? p.name).isNone) &&
    -- no keyword is unexpected
    ((sig.extraKeywords kwargs).rows.isEmpty ||
      sig.params.any fun p => decide (p.kind = .varKeyword))

/-- The default of a parameter. -/
def defaultOf (p : Param F V) : Option V :=
  match p.default with
  | .value v => some v
  | _ => none

/-- The parameters with what they are bound to; without a value a parameter is left out. -/
def bindFrom (kwargs : Keywords V) : List (Param F V) → List V → List (Param F V × Bound V)
  | [], _ => []
  | p :: ps, args =>
    match p.kind, args with
    | .varPositional, args => (p, .many args) :: bindFrom kwargs ps []
    | .varKeyword, args => (p, .named (sig.extraKeywords kwargs)) :: bindFrom kwargs ps args
    | .keywordOnly, args =>
      (((kwargs.get? p.name).map Prod.snd).or (defaultOf p)).toList.map (fun v => (p, .one v)) ++
        bindFrom kwargs ps args
    | _, v :: args => (p, .one v) :: bindFrom kwargs ps args
    | .positionalOrKeyword, [] =>
      (((kwargs.get? p.name).map Prod.snd).or (defaultOf p)).toList.map (fun v => (p, .one v)) ++
        bindFrom kwargs ps []
    | .positionalOnly, [] =>
      (defaultOf p).toList.map (fun v => (p, .one v)) ++ bindFrom kwargs ps []

/-- `bind_partial(*args, **kwargs)` and `apply_defaults()`; `none` is a `TypeError`. -/
def bindPartial (args : List V) (kwargs : Keywords V) : Option (List (Param F V × Bound V)) :=
  if sig.fits args kwargs then some (sig.bindFrom kwargs sig.params args) else none

/-- `f"arg{i}"`. -/
def argName (i : ℕ) : String := String.ofList ("arg".toList ++ Decimal.digits i)

/-- The positional arguments under the names that they get. -/
def argItems (args : List V) : List (String × V) := args.zipIdx.map fun x => (argName x.2, x.1)

/-- One bound parameter. -/
def addBound (params : Keywords V) (x : Param F V × Bound V) : Keywords V :=
  match x.2 with
  | .one v => params.put (x.1.name, v)
  | .many vs => params.update (argItems vs)
  | .named items => params.update items.rows

/-- `_bound_params`. -/
def boundParams (args : List V) (kwargs : Keywords V) : Keywords V :=
  match sig.bindPartial args kwargs with
  | some bound => (bound.filter fun x => !sig.leftOut x.1.name).foldl addBound ∅
  | none => ((Table.ofList Prod.fst (argItems args)).update kwargs.rows).filter fun x =>
      !sig.leftOut x.1

end Signature

/-! ### The key -/

variable {O : Type} (sha256 : Bytes → String)

/-- `hashlib.sha256(token.encode()).hexdigest()[:16]`. -/
def tokenMark (token : String) : String :=
  String.ofList ((sha256 (Utf8.encode token)).toList.take 16)

/-- `_caller_identity`; `none` where it raises. -/
def callerIdentity [PyText] (context : Option CallerContext) : Option String :=
  match context with
  | none => some ""
  | some ctx =>
    match ctx.principal.bind Principal.ident with
    | some ident => some ("p:" ++ ident)
    | none =>
      match ctx.token with
      | none => some ""
      | some token =>
        if token.truthy then
          match token with
          | .str text => some ("t:" ++ tokenMark sha256 text)
          | _ => none
        else some ""

/-- `_make_idempotency_key`; `none` where it raises. -/
def makeIdempotencyKey (str : O → String) (path : String) (params : Keywords (ArgValue O))
    (identity : String) : Option String := do
  let fields ← (Cursor.sort params.rows).mapM fun x => (x.2.toJson str).map fun j => (x.1, j)
  return sha256 (Utf8.encode (path ++ "\n" ++ identity ++ "\n" ++ (Json.obj fields).dumps))

/-- The key of a call, in `__call__`. -/
def idempotencyKey [PyText] {F H : Type} (str : O → String) (path : String)
    (sig : Signature F H (ArgValue O)) (call : HandlerCall (ArgValue O)) : Option String := do
  makeIdempotencyKey sha256 str path (sig.boundParams call.args call.kwargs)
    (← callerIdentity sha256 call.context)

end Istos
