import Istos.Codec.Base64
import Istos.Codec.Equiv.Detect
import Istos.Codec.Equiv.Dumps
import Istos.Data.Traverse
import Istos.Primitives.Idempotency

/-!
# Which requests an idempotency key tells apart

The key keeps, under each name, the argument that was written there last, as `json.dumps` writes it
(`shown`), and of the caller the text of an id or sixteen digits of the digest of a token.  Nothing
else is lost: the text of the arguments and the identity can be read off the digested text, so two
keys are equal just when the calls are alike in this (`key_eq_iff`).

* `keys_separate_iff`: two keys are equal exactly for one caller and one set of arguments, unless
  the two calls are alike and yet not the same.
* `clear_of_separable`: there are no such calls where the key merges nothing, neither ids, tokens
  and values nor names.
* `clear_of_plain`: calls of a handler without `*args` and `**kwargs` that carry JSON values, from
  callers with strings for ids, are never of this kind.
-/

namespace Istos

open Signature

variable {F H V O : Type}

/-! ### The same call -/

/-- Two bindings are the same. -/
def Bound.Same : Bound V → Bound V → Prop
  | .one v, .one w => v = w
  | .many vs, .many ws => vs = ws
  | .named items, .named items' => ∀ n, items.get? n = items'.get? n
  | _, _ => False

namespace HandlerCall

variable (sig : Signature F H V) (c c' : HandlerCall V)

/-- What the parameters of the handler are bound to, apart from the injected ones; `none` where the
call is a `TypeError`. -/
def arguments : Option (List (Param F V × Bound V)) :=
  (sig.bindPartial c.args c.kwargs).map fun bound =>
    bound.filter fun x => !sig.leftOut x.1.name

/-- The handler would be called with the same arguments; a call that does not bind is the same as
one that is written alike. -/
def SameArguments : Prop :=
  match c.arguments sig, c'.arguments sig with
  | some bound, some bound' =>
    List.Forall₂ (fun x y => x.1 = y.1 ∧ x.2.Same y.2) bound bound'
  | none, none =>
    c.args = c'.args ∧
      ∀ n, sig.leftOut n = false → c.kwargs.get? n = c'.kwargs.get? n
  | _, _ => False

end HandlerCall

/-- The id of a principal: a string that is not empty is its own. -/
def Principal.id? : Principal → Option Json
  | .str text => if text = "" then none else some (.str text)
  | .object id => id

namespace CallerContext

/-- The id of the principal, where there is one. -/
def id? (context : Option CallerContext) : Option Json :=
  (context.bind CallerContext.principal).bind Principal.id?

/-- The token, where it is not empty. -/
def presented (context : Option CallerContext) : Option Json :=
  (context.bind CallerContext.token).filter Json.truthy

/-- One caller: one principal, or one token where there is no id. -/
def Same (context context' : Option CallerContext) : Prop :=
  id? context = id? context' ∧ (id? context = none → presented context = presented context')

end CallerContext

/-! ### Alike calls -/

/-- The value at `argN`. -/
def argAt (vs : List V) (n : String) : Option V :=
  (vs.zipIdx.find? fun x => decide (argName x.2 = n)).map Prod.fst

/-- What a bound parameter shows under a name. -/
def Bound.at (name : String) (b : Bound V) (n : String) : Option V :=
  match b with
  | .one v => if n = name then some v else none
  | .many vs => argAt vs n
  | .named items => (items.get? n).map Prod.snd

/-- What a call shows under a name: of the parameters that have something there, the last. -/
def HandlerCall.shown (sig : Signature F H V) (c : HandlerCall V) (n : String) : Option V :=
  match c.arguments sig with
  | some bound => bound.foldl (fun value x => (x.2.at x.1.name n).or value) none
  | none =>
    if sig.leftOut n then none else ((c.kwargs.get? n).map Prod.snd).or (argAt c.args n)

/-- Under every name the calls show what `json` writes alike. -/
def HandlerCall.AlikeArguments (str : O → String) (sig : Signature F H (ArgValue O))
    (c c' : HandlerCall (ArgValue O)) : Prop :=
  ∀ n, (c.shown sig n).map (ArgValue.toJson str) = (c'.shown sig n).map (ArgValue.toJson str)

namespace CallerContext

variable [PyText] (sha256 : Bytes → String)

/-- The text of the id of the principal; an id that is empty or zero is none. -/
def ident (context : Option CallerContext) : Option String :=
  (context.bind CallerContext.principal).bind Principal.ident

/-- What is kept of a token. -/
def mark : Json → Option String
  | .str text => some (tokenMark sha256 text)
  | _ => none

/-- The ids have one text, or the tokens have digests that begin alike. -/
def Alike (context context' : Option CallerContext) : Prop :=
  ident context = ident context' ∧
    (ident context = none →
      (presented context).map (mark sha256) = (presented context').map (mark sha256))

end CallerContext

/-! ### What the parameters show -/

theorem argName_injective {i j : ℕ} (h : argName i = argName j) : i = j := by
  rw [argName, argName, String.ofList_inj, List.append_right_inj] at h
  have hi := Decimal.natural_digits i
  rw [h, Decimal.natural_digits] at hi
  exact (Option.some.inj hi).symm

theorem nodup_argItems (vs : List V) : ((argItems vs).map Prod.fst).Nodup := by
  have hnames : (argItems vs).map Prod.fst = (vs.zipIdx.map Prod.snd).map argName := by
    rw [argItems, List.map_map, List.map_map]
    rfl
  rw [hnames, List.zipIdx_map_snd]
  exact List.Nodup.map (fun i j => argName_injective) List.nodup_range'

/-- The positional arguments as a table. -/
def argTable (vs : List V) : Keywords V := ⟨argItems vs, nodup_argItems vs⟩

theorem get?_argTable (vs : List V) (n : String) :
    ((argTable vs).get? n).map Prod.snd = argAt vs n := by
  show ((argItems vs).find? _).map Prod.snd = _
  rw [argItems, List.find?_map, Option.map_map, argAt]
  rfl

/-- One more parameter hides what it shows itself. -/
theorem get?_addBound (params : Keywords V) (x : Param F V × Bound V) (n : String) :
    ((addBound params x).get? n).map Prod.snd =
      (x.2.at x.1.name n).or ((params.get? n).map Prod.snd) := by
  obtain ⟨p, b⟩ := x
  cases b with
  | one v =>
    show ((params.put (p.name, v)).get? n).map Prod.snd = (if n = p.name then some v else none).or _
    rw [Table.get?_put]
    split
    · rfl
    · rfl
  | many vs =>
    show ((params.update (argTable vs).rows).get? n).map Prod.snd = (argAt vs n).or _
    rw [Table.get?_update, ← get?_argTable, Option.map_or]
  | named items =>
    show ((params.update items.rows).get? n).map Prod.snd = ((items.get? n).map Prod.snd).or _
    rw [Table.get?_update, Option.map_or]

/-- **What the parameters hold** is what the call shows. -/
theorem get?_boundParams (sig : Signature F H V) (c : HandlerCall V) (n : String) :
    ((sig.boundParams c.args c.kwargs).get? n).map Prod.snd = c.shown sig n := by
  unfold boundParams HandlerCall.shown HandlerCall.arguments
  cases hbind : sig.bindPartial c.args c.kwargs with
  | none =>
    have hlookup : (((Table.ofList Prod.fst (argItems c.args)).update c.kwargs.rows).get? n) =
        (c.kwargs.get? n).or ((argTable c.args).get? n) := by
      have hargs : (Table.ofList Prod.fst (argItems c.args)).get? n = (argTable c.args).get? n := by
        have hupdate := Table.get?_update ∅ (argTable c.args) n
        rwa [Table.get?_empty, Option.or_none] at hupdate
      rw [Table.get?_update, hargs]
    show (((Table.update _ _).filter _).get? n).map Prod.snd =
      if sig.leftOut n then none else ((c.kwargs.get? n).map Prod.snd).or (argAt c.args n)
    rw [Table.get?_filter, hlookup, ← get?_argTable, ← Option.map_or]
    -- what is found has the name
    have hname : ∀ x ∈ (c.kwargs.get? n).or ((argTable c.args).get? n), x.1 = n := by
      intro x hx
      rcases Option.or_eq_some_iff.mp hx with hx | ⟨-, hx⟩
      · exact Table.key_of_get? hx
      · exact Table.key_of_get? hx
    cases hx : (c.kwargs.get? n).or ((argTable c.args).get? n) with
    | none => simp
    | some x =>
      rw [Option.filter_some, hname x hx]
      cases sig.leftOut n with
      | true => rfl
      | false => rfl
  | some bound =>
    have hfold : ∀ (bound : List (Param F V × Bound V)) (params : Keywords V),
        ((bound.foldl addBound params).get? n).map Prod.snd =
          bound.foldl (fun value x => (x.2.at x.1.name n).or value)
            ((params.get? n).map Prod.snd) := by
      intro bound
      induction bound with
      | nil => exact fun params => rfl
      | cons x bound ih =>
        intro params
        rw [List.foldl_cons, List.foldl_cons, ih, get?_addBound]
    exact hfold _ ∅

/-! ### What the key keeps of the arguments -/

/-- What `json` writes for a parameter. -/
def field (str : O → String) (x : String × ArgValue O) : Option (String × Json) :=
  (x.2.toJson str).map fun j => (x.1, j)

theorem field_eq_some {str : O → String} {x : String × ArgValue O} {n : String} {j : Json} :
    field str x = some (n, j) ↔ x.1 = n ∧ x.2.toJson str = some j := by
  rw [field, Option.map_eq_some_iff]
  constructor
  · rintro ⟨i, hi, heq⟩
    obtain ⟨rfl, rfl⟩ := Prod.mk.inj heq
    exact ⟨rfl, hi⟩
  · rintro ⟨rfl, hj⟩
    exact ⟨j, hj, rfl⟩

section Fields

variable {str : O → String} {params params' : Keywords (ArgValue O)}
  {fields fields' : List (String × Json)}

theorem mem_fields (h : (Cursor.sort params.rows).mapM (field str) = some fields) {n : String}
    {j : Json} : (n, j) ∈ fields ↔ ∃ v, params.get? n = some (n, v) ∧ v.toJson str = some j := by
  rw [Traverse.mem_of_mapM h]
  constructor
  · rintro ⟨⟨m, v⟩, hx, hfield⟩
    obtain ⟨rfl, hj⟩ := field_eq_some.mp hfield
    exact ⟨v, Table.mem_rows_iff.mp ((Cursor.perm_sort _).mem_iff.mp hx), hj⟩
  · rintro ⟨v, hv, hj⟩
    exact ⟨(n, v), (Cursor.perm_sort _).mem_iff.mpr (Table.mem_of_get? hv),
      field_eq_some.mpr ⟨rfl, hj⟩⟩

/-- The fields are in the order of their names. -/
theorem ascending_fields (h : (Cursor.sort params.rows).mapM (field str) = some fields) :
    Cursor.Ascending fields := by
  have hsorted : Cursor.Ascending (Cursor.sort params.rows) := Cursor.ascending_sort params.nodup
  have hnames : fields.map Prod.fst = (Cursor.sort params.rows).map Prod.fst := by
    have hrel := Traverse.forall₂_of_mapM h
    clear h
    generalize Cursor.sort params.rows = rows at hrel
    induction hrel with
    | nil => rfl
    | cons hfield _ ih => rw [List.map_cons, List.map_cons, ih, (field_eq_some.mp hfield).1]
  rw [Cursor.Ascending, ← List.pairwise_map (f := Prod.fst) (R := (· < ·))] at hsorted ⊢
  rwa [hnames]

/-- What a name shows is written, or the name has nothing. -/
theorem map_toJson_eq (h : (Cursor.sort params.rows).mapM (field str) = some fields) (n : String)
    (j : Json) : (n, j) ∈ fields ↔
      ((params.get? n).map Prod.snd).map (ArgValue.toJson str) = some (some j) := by
  rw [mem_fields h, Option.map_map, Option.map_eq_some_iff]
  constructor
  · rintro ⟨v, hv, hj⟩
    exact ⟨(n, v), hv, hj⟩
  · rintro ⟨⟨m, v⟩, hv, hj⟩
    obtain rfl : m = n := Table.key_of_get? hv
    exact ⟨v, hv, hj⟩

/-- Everything that is shown is written. -/
theorem toJson_ne_none (h : (Cursor.sort params.rows).mapM (field str) = some fields) (n : String) :
    ((params.get? n).map Prod.snd).map (ArgValue.toJson str) ≠ some none := by
  intro hnone
  obtain ⟨v, hv, hj⟩ := Option.map_eq_some_iff.mp hnone
  obtain ⟨⟨m, w⟩, hget, rfl⟩ := Option.map_eq_some_iff.mp hv
  obtain rfl : m = n := Table.key_of_get? hget
  have hmem : (m, w) ∈ Cursor.sort params.rows :=
    (Cursor.perm_sort _).mem_iff.mpr (Table.mem_of_get? hget)
  have hfield : field str (m, w) = none := by
    rw [field, hj]
    rfl
  rw [Traverse.mapM_eq_none hmem hfield] at h
  cases h

/-- **The fields** are the same when under every name the same is written. -/
theorem fields_eq_iff (h : (Cursor.sort params.rows).mapM (field str) = some fields)
    (h' : (Cursor.sort params'.rows).mapM (field str) = some fields') :
    fields = fields' ↔ ∀ n, ((params.get? n).map Prod.snd).map (ArgValue.toJson str) =
      ((params'.get? n).map Prod.snd).map (ArgValue.toJson str) := by
  constructor
  · rintro rfl n
    ext o
    cases o with
    | none => exact iff_of_false (toJson_ne_none h n) (toJson_ne_none h' n)
    | some j => exact (map_toJson_eq h n j).symm.trans (map_toJson_eq h' n j)
  · intro hshown
    have hmem : ∀ x, x ∈ fields ↔ x ∈ fields' := by
      rintro ⟨n, j⟩
      rw [map_toJson_eq h, map_toJson_eq h', hshown]
    have hasc := ascending_fields h
    have hasc' := ascending_fields h'
    have hperm : fields.Perm fields' := (List.perm_ext_iff_of_nodup (List.Nodup.of_map _ hasc.nodup)
      (List.Nodup.of_map _ hasc'.nodup)).mpr hmem
    exact hperm.eq_of_pairwise (fun x y _ _ hxy hyx => absurd hyx (lt_asymm hxy)) hasc hasc'

end Fields

/-! ### What the key keeps -/

/-- At the last line feed a text is divided in one way. -/
theorem append_lf_inj {a a' d d' : List Char} (hd : '\n' ∉ d) (hd' : '\n' ∉ d')
    (h : a ++ '\n' :: d = a' ++ '\n' :: d') : a = a' ∧ d = d' := by
  induction a generalizing a' with
  | nil =>
    cases a' with
    | nil => exact ⟨rfl, (List.cons.inj h).2⟩
    | cons c a' =>
      rw [List.nil_append, List.cons_append] at h
      exact absurd ((List.cons.inj h).2 ▸ by simp) hd
  | cons c a ih =>
    cases a' with
    | nil =>
      rw [List.nil_append, List.cons_append] at h
      exact absurd ((List.cons.inj h).2 ▸ by simp) hd'
    | cons c' a' =>
      obtain ⟨rfl, hrest⟩ := List.cons.inj h
      obtain ⟨rfl, rfl⟩ := ih hrest
      exact ⟨rfl, rfl⟩

theorem lf_notMem_dumps (j : Json) : '\n' ∉ j.dumps.toList :=
  fun h => absurd (Json.printable_dumps j _ h) (by decide)

theorem encode_injective : Function.Injective Utf8.encode := by
  intro s t h
  have hs := Utf8.decode_encode s
  rw [h, Utf8.decode_encode] at hs
  exact (Option.some.inj hs).symm

/-- **The key** keeps the identity and what is written under each name. -/
theorem makeIdempotencyKey_eq_iff {sha256 : Bytes → String} (hsha : Function.Injective sha256)
    {str : O → String} {path identity identity' k k' : String}
    {params params' : Keywords (ArgValue O)}
    (h : makeIdempotencyKey sha256 str path params identity = some k)
    (h' : makeIdempotencyKey sha256 str path params' identity' = some k') :
    k = k' ↔ identity = identity' ∧
      ∀ n, ((params.get? n).map Prod.snd).map (ArgValue.toJson str) =
        ((params'.get? n).map Prod.snd).map (ArgValue.toJson str) := by
  obtain ⟨fields, hfields, hk⟩ := Option.bind_eq_some_iff.mp h
  obtain ⟨fields', hfields', hk'⟩ := Option.bind_eq_some_iff.mp h'
  obtain rfl := Option.some.inj hk
  obtain rfl := Option.some.inj hk'
  rw [hsha.eq_iff, encode_injective.eq_iff, ← fields_eq_iff hfields hfields']
  constructor
  · intro htext
    have hlist := congrArg String.toList htext
    simp only [String.toList_append, List.append_assoc, List.append_right_inj] at hlist
    obtain ⟨hidentity, hdumps⟩ := append_lf_inj (lf_notMem_dumps _) (lf_notMem_dumps _) hlist
    have hobj := Json.dumps_injective (String.toList_inj.mp hdumps)
    exact ⟨String.toList_inj.mp hidentity, Json.obj.inj hobj⟩
  · rintro ⟨rfl, rfl⟩
    rfl

/-! ### Callers -/

namespace CallerContext

variable [PyText] {sha256 : Bytes → String} {context context' : Option CallerContext}

theorem identity_of_ident {text : String} (h : ident context = some text) :
    callerIdentity sha256 context = some ("p:" ++ text) := by
  cases context with
  | none => cases h
  | some ctx =>
    have hident : ctx.principal.bind Principal.ident = some text := h
    simp only [callerIdentity, hident]

theorem identity_of_presented (h : ident context = none) {token : Json}
    (ht : presented context = some token) :
    callerIdentity sha256 context = (mark sha256 token).map ("t:" ++ ·) := by
  cases context with
  | none => cases ht
  | some ctx =>
    have hident : ctx.principal.bind Principal.ident = none := h
    have htoken : ctx.token.filter Json.truthy = some token := ht
    rw [Option.filter_eq_some_iff] at htoken
    simp only [callerIdentity, hident, htoken.1, htoken.2, if_true]
    cases token <;> rfl

theorem identity_of_anonymous (h : ident context = none) (ht : presented context = none) :
    callerIdentity sha256 context = some "" := by
  cases context with
  | none => rfl
  | some ctx =>
    have hident : ctx.principal.bind Principal.ident = none := h
    have htoken : ctx.token.filter Json.truthy = none := ht
    cases hc : ctx.token with
    | none => simp only [callerIdentity, hident, hc]
    | some token =>
      rw [hc, Option.filter_some] at htoken
      split at htoken
      · cases htoken
      · rename_i hfalse
        simp only [callerIdentity, hident, hc, hfalse]
        rfl

/-- What an identity is: of an id, of a token, or of nobody. -/
theorem identity_cases {identity : String} (h : callerIdentity sha256 context = some identity) :
    (∃ text, ident context = some text ∧ identity = "p:" ++ text) ∨
    (ident context = none ∧ ∃ m, (presented context).map (mark sha256) = some (some m) ∧
      identity = "t:" ++ m) ∨
    ident context = none ∧ (presented context).map (mark sha256) = none ∧ identity = "" := by
  cases hident : ident context with
  | some text =>
    rw [identity_of_ident hident] at h
    exact .inl ⟨text, rfl, (Option.some.inj h).symm⟩
  | none =>
    right
    cases ht : presented context with
    | none =>
      rw [identity_of_anonymous hident ht] at h
      exact .inr ⟨rfl, rfl, (Option.some.inj h).symm⟩
    | some token =>
      rw [identity_of_presented hident ht] at h
      obtain ⟨m, hm, rfl⟩ := Option.map_eq_some_iff.mp h
      exact .inl ⟨rfl, m, by rw [Option.map_some, hm], rfl⟩

/-- **Two identities** are equal just when the callers are alike. -/
theorem identity_eq_iff {identity identity' : String}
    (h : callerIdentity sha256 context = some identity)
    (h' : callerIdentity sha256 context' = some identity') :
    identity = identity' ↔ Alike sha256 context context' := by
  have hpt : ∀ a b : String, "p:" ++ a ≠ "t:" ++ b := by
    intro a b heq
    have hlist := congrArg String.toList heq
    rw [String.toList_append, String.toList_append] at hlist
    exact absurd (List.cons.inj hlist).1 (by decide)
  have hp : ∀ a : String, "p:" ++ a ≠ "" := by
    intro a heq
    have hlist := congrArg String.toList heq
    rw [String.toList_append] at hlist
    cases hlist
  have ht : ∀ a : String, "t:" ++ a ≠ "" := by
    intro a heq
    have hlist := congrArg String.toList heq
    rw [String.toList_append] at hlist
    cases hlist
  have hsame : ∀ a b c : String, a ++ b = a ++ c ↔ b = c := by
    intro a b c
    rw [← String.toList_inj, String.toList_append, String.toList_append, List.append_right_inj,
      String.toList_inj]
  have hcases := identity_cases h
  have hcases' := identity_cases h'
  unfold Alike
  generalize (presented context).map (mark sha256) = token at hcases ⊢
  generalize (presented context').map (mark sha256) = token' at hcases' ⊢
  rcases hcases with ⟨text, hi, rfl⟩ | ⟨hi, m, rfl, rfl⟩ | ⟨hi, rfl, rfl⟩ <;>
    rcases hcases' with ⟨text', hi', rfl⟩ | ⟨hi', m', rfl, rfl⟩ | ⟨hi', rfl, rfl⟩ <;>
    rw [hi, hi'] <;>
    simp [hpt, hp, ht, hsame, Ne.symm (hpt _ _), Ne.symm (hp _), Ne.symm (ht _)]

/-- The text of an id. -/
theorem ident_eq (context : Option CallerContext) : ident context =
    (id? context).bind fun j => if j.truthy then some (PyText.str j) else none := by
  unfold ident id?
  cases hp : context.bind CallerContext.principal with
  | none => rfl
  | some p =>
  rw [Option.bind_some, Option.bind_some]
  cases p with
  | str text =>
    by_cases hempty : text = ""
    · simp [Principal.ident, Principal.id?, hempty]
    · simp [Principal.ident, Principal.id?, hempty, Json.truthy, PyText.str_str]
  | object id =>
    cases id with
    | none => rfl
    | some j => rfl

/-- The principal has an id, and it is empty or zero. -/
def EmptyId (context : Option CallerContext) : Prop :=
  ∃ j, id? context = some j ∧ j.truthy = false

/-- One caller is alike, unless the id is empty and the tokens differ. -/
theorem Same.alike_iff (h : Same context context') : Alike sha256 context context' ↔
    (EmptyId context →
      (presented context).map (mark sha256) = (presented context').map (mark sha256)) := by
  obtain ⟨hid, htoken⟩ := h
  have hident : ident context = ident context' := by rw [ident_eq, ident_eq, hid]
  constructor
  · rintro ⟨-, halike⟩ ⟨j, hj, hfalse⟩
    refine halike ?_
    rw [ident_eq, hj, Option.bind_some, hfalse]
    rfl
  · intro hempty
    refine ⟨hident, fun hnone => ?_⟩
    cases hj : id? context with
    | none => rw [htoken hj]
    | some j =>
      refine hempty ⟨j, hj, ?_⟩
      rw [ident_eq, hj, Option.bind_some] at hnone
      split at hnone
      · cases hnone
      · rename_i hfalse
        exact Bool.not_eq_true _ ▸ hfalse

end CallerContext

/-! ### Arguments -/

theorem Bound.Same.at_eq {b b' : Bound V} (h : b.Same b') (name n : String) :
    b.at name n = b'.at name n := by
  cases b with
  | one v =>
    cases b' with
    | one w => rw [show v = w from h]
    | many ws => exact absurd h id
    | named items => exact absurd h id
  | many vs =>
    cases b' with
    | one w => exact absurd h id
    | many ws => rw [show vs = ws from h]
    | named items => exact absurd h id
  | named items =>
    cases b' with
    | one w => exact absurd h id
    | many ws => exact absurd h id
    | named items' =>
      have hget : ∀ n, items.get? n = items'.get? n := h
      rw [Bound.at, Bound.at, hget]

namespace HandlerCall

/-- The same arguments are shown alike. -/
theorem SameArguments.shown_eq {sig : Signature F H V} {c c' : HandlerCall V}
    (h : c.SameArguments sig c') (n : String) : c.shown sig n = c'.shown sig n := by
  unfold SameArguments at h
  unfold shown
  cases hbound : c.arguments sig with
  | none =>
    cases hbound' : c'.arguments sig with
    | none =>
      rw [hbound, hbound'] at h
      obtain ⟨hargs, hkwargs⟩ := h
      cases hleft : sig.leftOut n with
      | true => simp
      | false => simp [hargs, hkwargs n hleft]
    | some bound' =>
      rw [hbound, hbound'] at h
      exact absurd h id
  | some bound =>
    cases hbound' : c'.arguments sig with
    | none =>
      rw [hbound, hbound'] at h
      exact absurd h id
    | some bound' =>
      rw [hbound, hbound'] at h
      have hfold : ∀ value : Option V,
          bound.foldl (fun value x => (x.2.at x.1.name n).or value) value =
            bound'.foldl (fun value x => (x.2.at x.1.name n).or value) value := by
        clear hbound hbound'
        induction h with
        | nil => exact fun value => rfl
        | cons hxy _ ih =>
          intro value
          rw [List.foldl_cons, List.foldl_cons, hxy.1, hxy.2.at_eq, ih]
      exact hfold none

/-! ### The condition -/

/-- **The condition**: calls that are alike are the same; and where one principal with an empty id
makes the same call twice, its tokens are alike. -/
structure Clear [PyText] (sha256 : Bytes → String) (str : O → String)
    (sig : Signature F H (ArgValue O)) (c c' : HandlerCall (ArgValue O)) : Prop where
  distinct : CallerContext.Alike sha256 c.context c'.context → AlikeArguments str sig c c' →
    CallerContext.Same c.context c'.context ∧ c.SameArguments sig c'
  steady : CallerContext.Same c.context c'.context → c.SameArguments sig c' →
    CallerContext.EmptyId c.context →
      (CallerContext.presented c.context).map (CallerContext.mark sha256) =
        (CallerContext.presented c'.context).map (CallerContext.mark sha256)

end HandlerCall

/-! ### Calls that are told apart -/

/-- What a parameter of a kind is bound to. -/
def Bound.Fits (kind : ParamKind) : Bound V → Prop
  | .one _ => kind ≠ .varPositional ∧ kind ≠ .varKeyword
  | .many _ => kind = .varPositional
  | .named _ => kind = .varKeyword

namespace HandlerCall

/-- The two calls have something under one name, from two parameters. -/
def Crosses (sig : Signature F H V) (c c' : HandlerCall V) : Prop :=
  ∃ bound bound', c.arguments sig = some bound ∧ c'.arguments sig = some bound' ∧
    ∃ x ∈ bound, ∃ y ∈ bound', x.1 ≠ y.1 ∧
      ∃ n v w, x.2.at x.1.name n = some v ∧ y.2.at y.1.name n = some w

theorem Crosses.symm {sig : Signature F H V} {c c' : HandlerCall V} (h : c.Crosses sig c') :
    c'.Crosses sig c := by
  obtain ⟨bound, bound', hbound, hbound', x, hx, y, hy, hne, n, v, w, hv, hw⟩ := h
  exact ⟨bound', bound, hbound', hbound, y, hy, x, hx, hne.symm, n, w, v, hw, hv⟩

/-- The parameters of a binding come in their order. -/
theorem bindFrom_sublist (sig : Signature F H V) (kwargs : Keywords V) (ps : List (Param F V))
    (args : List V) : ((sig.bindFrom kwargs ps args).map Prod.fst).Sublist ps := by
  have hoption : ∀ (p : Param F V) (ps : List (Param F V)) (o : Option V)
      (rest : List (Param F V × Bound V)), (rest.map Prod.fst).Sublist ps →
      ((o.toList.map (fun v => (p, Bound.one v)) ++ rest).map Prod.fst).Sublist (p :: ps) := by
    intro p ps o rest hrest
    cases o with
    | none => exact hrest.cons p
    | some v => exact hrest.cons_cons p
  fun_induction bindFrom sig kwargs ps args with
  | case1 => exact List.Sublist.slnil
  | case2 p ps args _ ih => exact ih.cons_cons p
  | case3 p ps args _ ih => exact ih.cons_cons p
  | case4 p ps args _ ih => exact hoption p ps _ _ ih
  | case5 p ps v args _ _ _ ih => exact ih.cons_cons p
  | case6 p ps _ ih => exact hoption p ps _ _ ih
  | case7 p ps _ ih => exact hoption p ps _ _ ih

theorem bindFrom_fits (sig : Signature F H V) (kwargs : Keywords V) (ps : List (Param F V))
    (args : List V) : ∀ x ∈ sig.bindFrom kwargs ps args, x.2.Fits x.1.kind := by
  have hoption : ∀ (p : Param F V) (o : Option V) (rest : List (Param F V × Bound V)),
      p.kind ≠ .varPositional ∧ p.kind ≠ .varKeyword → (∀ x ∈ rest, x.2.Fits x.1.kind) →
      ∀ x ∈ o.toList.map (fun v => (p, Bound.one v)) ++ rest, x.2.Fits x.1.kind := by
    intro p o rest hp hrest x hx
    rcases List.mem_append.mp hx with hx | hx
    · obtain ⟨v, -, rfl⟩ := List.mem_map.mp hx
      exact hp
    · exact hrest x hx
  fun_induction bindFrom sig kwargs ps args with
  | case1 => exact nofun
  | case2 p ps args hkind ih => exact List.forall_mem_cons.mpr ⟨hkind, ih⟩
  | case3 p ps args hkind ih => exact List.forall_mem_cons.mpr ⟨hkind, ih⟩
  | case4 p ps args hkind ih => exact hoption p _ _ (by simp [hkind]) ih
  | case5 p ps v args hpositional hkeyword _ ih =>
    exact List.forall_mem_cons.mpr ⟨⟨hpositional, hkeyword⟩, ih⟩
  | case6 p ps hkind ih => exact hoption p _ _ (by simp [hkind]) ih
  | case7 p ps hkind ih => exact hoption p _ _ (by simp [hkind]) ih

/-- `*args` and `**kwargs` are always bound. -/
theorem mem_bindFrom_of_variadic (sig : Signature F H V) (kwargs : Keywords V)
    {ps : List (Param F V)} {args : List V} {p : Param F V} (hp : p ∈ ps)
    (hkind : p.kind = .varPositional ∨ p.kind = .varKeyword) :
    p ∈ (sig.bindFrom kwargs ps args).map Prod.fst := by
  have hskip : ∀ (q : Param F V) (ps : List (Param F V)) (o : Option V)
      (rest : List (Param F V × Bound V)), q.kind ≠ .varPositional ∧ q.kind ≠ .varKeyword →
      (p ∈ ps → p ∈ rest.map Prod.fst) → p ∈ q :: ps →
      p ∈ (o.toList.map (fun v => (q, Bound.one v)) ++ rest).map Prod.fst := by
    intro q ps o rest hq hrest hp
    rw [List.map_append]
    refine List.mem_append_right _ (hrest ((List.mem_cons.mp hp).resolve_left ?_))
    rintro rfl
    exact hkind.elim hq.1 hq.2
  fun_induction bindFrom sig kwargs ps args with
  | case1 => cases hp
  | case2 q ps args _ ih => exact List.mem_cons.mpr ((List.mem_cons.mp hp).imp_right ih)
  | case3 q ps args _ ih => exact List.mem_cons.mpr ((List.mem_cons.mp hp).imp_right ih)
  | case4 q ps args hq ih => exact hskip q ps _ _ (by simp [hq]) ih hp
  | case5 q ps v args hpositional hkeyword _ ih =>
    exact List.mem_cons.mpr ((List.mem_cons.mp hp).imp_right ih)
  | case6 q ps hq ih => exact hskip q ps _ _ (by simp [hq]) ih hp
  | case7 q ps hq ih => exact hskip q ps _ _ (by simp [hq]) ih hp

section Shown

variable {sig : Signature F H V} {c c' : HandlerCall V} {bound bound' : List (Param F V × Bound V)}

theorem mem_arguments (h : c.arguments sig = some bound) {x : Param F V × Bound V} :
    x ∈ bound ↔ x ∈ sig.bindFrom c.kwargs sig.params c.args ∧ sig.leftOut x.1.name = false := by
  obtain ⟨all, hall, rfl⟩ := Option.map_eq_some_iff.mp h
  rw [bindPartial] at hall
  split at hall
  · obtain rfl := Option.some.inj hall
    simp
  · cases hall

theorem arguments_sublist (h : c.arguments sig = some bound) :
    (bound.map Prod.fst).Sublist sig.params := by
  obtain ⟨all, hall, rfl⟩ := Option.map_eq_some_iff.mp h
  rw [bindPartial] at hall
  split at hall
  · obtain rfl := Option.some.inj hall
    exact (List.filter_sublist.map Prod.fst).trans (bindFrom_sublist sig c.kwargs sig.params c.args)
  · cases hall

theorem arguments_fits (h : c.arguments sig = some bound) {x : Param F V × Bound V}
    (hx : x ∈ bound) : x.2.Fits x.1.kind :=
  bindFrom_fits sig _ _ _ x ((mem_arguments h).mp hx).1

/-- A parameter is bound once. -/
theorem eq_of_fst_eq (h : c.arguments sig = some bound) {x y : Param F V × Bound V}
    (hx : x ∈ bound) (hy : y ∈ bound) (heq : x.1 = y.1) : x = y := by
  have hnodup : (bound.map Prod.fst).Nodup :=
    (List.Nodup.of_map _ sig.nodup).sublist (arguments_sublist h)
  exact List.inj_on_of_nodup_map hnodup hx hy heq

/-- A value under a name stays, where nothing else stands under it. -/
theorem foldl_at_eq_some {n : String} {v : V}
    (hall : ∀ x ∈ bound, x.2.at x.1.name n = none ∨ x.2.at x.1.name n = some v) {value : Option V}
    (h : value = some v ∨ ∃ x ∈ bound, x.2.at x.1.name n = some v) :
    bound.foldl (fun value x => (x.2.at x.1.name n).or value) value = some v := by
  induction bound generalizing value with
  | nil => simpa using h
  | cons x bound ih =>
    rw [List.forall_mem_cons] at hall
    refine ih hall.2 ?_
    rcases h with rfl | ⟨y, hy, hat⟩
    · rcases hall.1 with hx | hx <;> simp [hx]
    · rcases List.mem_cons.mp hy with rfl | hy
      · simp [hat]
      · exact Or.inr ⟨y, hy, hat⟩

/-- What is shown under a name stands there. -/
theorem exists_of_foldl_at {n : String} {v : V} {value : Option V}
    (h : bound.foldl (fun value x => (x.2.at x.1.name n).or value) value = some v) :
    value = some v ∨ ∃ x ∈ bound, x.2.at x.1.name n = some v := by
  induction bound generalizing value with
  | nil => exact Or.inl h
  | cons x bound ih =>
    rcases ih h with hvalue | ⟨y, hy, hat⟩
    · rcases Option.or_eq_some_iff.mp hvalue with hx | ⟨-, hvalue⟩
      · exact Or.inr ⟨x, List.mem_cons_self, hx⟩
      · exact Or.inl hvalue
    · exact Or.inr ⟨y, List.mem_cons_of_mem _ hy, hat⟩

/-- Of calls that show the same and do not cross, what a parameter has in one it has in the other.
-/
theorem mem_of_shown_eq (h : c.arguments sig = some bound) (h' : c'.arguments sig = some bound')
    (hown : ¬ c.Crosses sig c) (hcross : ¬ c.Crosses sig c')
    (hshown : ∀ n, c.shown sig n = c'.shown sig n) {x : Param F V × Bound V} (hx : x ∈ bound)
    {n : String} {v : V} (hat : x.2.at x.1.name n = some v) :
    ∃ y ∈ bound', y.1 = x.1 ∧ y.2.at y.1.name n = some v := by
  have hc : c.shown sig n = some v := by
    rw [shown, h]
    refine foldl_at_eq_some (fun y hy => ?_) (Or.inr ⟨x, hx, hat⟩)
    by_cases heq : x.1 = y.1
    · rw [← eq_of_fst_eq h hx hy heq]
      exact Or.inr hat
    · left
      by_contra hsome
      obtain ⟨w, hw⟩ := Option.ne_none_iff_exists'.mp hsome
      exact hown ⟨bound, bound, h, h, x, hx, y, hy, heq, n, v, w, hat, hw⟩
  rw [hshown, shown, h'] at hc
  rcases exists_of_foldl_at hc with hnone | ⟨y, hy, hw⟩
  · cases hnone
  · refine ⟨y, hy, ?_, hw⟩
    by_contra hne
    exact hcross ⟨bound, bound', h, h', x, hx, y, hy, fun heq => hne heq.symm, n, v, v, hat, hw⟩

/-- The value at `argN` is the `N`-th. -/
theorem argAt_argName (vs : List V) (i : ℕ) : argAt vs (argName i) = vs[i]? := by
  refine Option.ext fun v => ?_
  rw [← get?_argTable, Option.map_eq_some_iff]
  constructor
  · rintro ⟨⟨n, w⟩, hget, rfl⟩
    obtain ⟨⟨u, j⟩, hmem, heq⟩ := List.mem_map.mp (Table.mem_of_get? hget)
    obtain ⟨rfl, rfl⟩ := Prod.mk.inj heq
    have hkey := Table.key_of_get? hget
    obtain rfl : j = i := argName_injective hkey
    exact List.mem_zipIdx_iff_getElem?.mp hmem
  · intro hv
    refine ⟨(argName i, v), Table.get?_eq_some_iff.mpr ⟨?_, rfl⟩, rfl⟩
    exact List.mem_map.mpr ⟨(v, i), List.mem_zipIdx_iff_getElem?.mpr hv, rfl⟩

/-- **Calls that do not cross** have the arguments that they show. -/
theorem sameArguments_of_shown_eq (h : c.arguments sig = some bound)
    (h' : c'.arguments sig = some bound') (hown : ¬ c.Crosses sig c) (hown' : ¬ c'.Crosses sig c')
    (hcross : ¬ c.Crosses sig c') (hshown : ∀ n, c.shown sig n = c'.shown sig n) :
    c.SameArguments sig c' := by
  have hto : ∀ {x : Param F V × Bound V}, x ∈ bound → ∀ {n v}, x.2.at x.1.name n = some v →
      ∃ y ∈ bound', y.1 = x.1 ∧ y.2.at y.1.name n = some v :=
    fun hx => mem_of_shown_eq h h' hown hcross hshown hx
  have hfrom : ∀ {y : Param F V × Bound V}, y ∈ bound' → ∀ {n v}, y.2.at y.1.name n = some v →
      ∃ x ∈ bound, x.1 = y.1 ∧ x.2.at x.1.name n = some v :=
    fun hy => mem_of_shown_eq h' h hown' (fun hc => hcross hc.symm) (fun n => (hshown n).symm) hy
  -- the two bind the same parameters
  have hbinds : ∀ {c c' : HandlerCall V} {bound bound' : List (Param F V × Bound V)},
      c.arguments sig = some bound → c'.arguments sig = some bound' →
      (∀ {x : Param F V × Bound V}, x ∈ bound → ∀ {n v}, x.2.at x.1.name n = some v →
        ∃ y ∈ bound', y.1 = x.1 ∧ y.2.at y.1.name n = some v) →
      ∀ p ∈ bound.map Prod.fst, p ∈ bound'.map Prod.fst := by
    intro c c' bound bound' h h' hto p hp
    obtain ⟨x, hx, rfl⟩ := List.mem_map.mp hp
    have hvariadic : x.1.kind = .varPositional ∨ x.1.kind = .varKeyword →
        x.1 ∈ bound'.map Prod.fst := by
      intro hkind
      have hmem : x.1 ∈ (sig.bindFrom c'.kwargs sig.params c'.args).map Prod.fst :=
        mem_bindFrom_of_variadic sig c'.kwargs ((arguments_sublist h).subset hp) hkind
      obtain ⟨y, hy, hyx⟩ := List.mem_map.mp hmem
      refine List.mem_map.mpr ⟨y, (mem_arguments h').mpr ⟨hy, ?_⟩, hyx⟩
      rw [hyx]
      exact ((mem_arguments h).mp hx).2
    have hfits := arguments_fits h hx
    obtain ⟨p, b⟩ := x
    cases b with
    | one v =>
      obtain ⟨y, hy, hyp, -⟩ := hto hx (n := p.name) (v := v) (if_pos rfl)
      exact List.mem_map.mpr ⟨y, hy, hyp⟩
    | many vs => exact hvariadic (Or.inl hfits)
    | named items => exact hvariadic (Or.inr hfits)
  have hsub := arguments_sublist h
  have hsub' := arguments_sublist h'
  have hps : sig.params.Nodup := List.Nodup.of_map _ sig.nodup
  have hparams : bound.map Prod.fst = bound'.map Prod.fst := by
    apply (hps.perm_iff_eq_of_sublist hsub hsub').mp
    apply (List.perm_ext_iff_of_nodup (hps.sublist hsub) (hps.sublist hsub')).mpr
    exact fun p => ⟨hbinds h h' hto p, hbinds h' h hfrom p⟩
  rw [SameArguments, h, h']
  refine Traverse.forall₂_of_map_eq hparams fun x hx y hy heq => ⟨heq, ?_⟩
  -- what the one parameter has in both calls
  have hvalue : ∀ n v, x.2.at x.1.name n = some v ↔ y.2.at y.1.name n = some v := by
    intro n v
    constructor
    · intro hat
      obtain ⟨y', hy', heq', hat'⟩ := hto hx hat
      rwa [eq_of_fst_eq h' hy' hy (heq'.trans heq)] at hat'
    · intro hat
      obtain ⟨x', hx', heq', hat'⟩ := hfrom hy hat
      rwa [eq_of_fst_eq h hx' hx (heq'.trans heq.symm)] at hat'
  have hfits := arguments_fits h hx
  have hfits' := arguments_fits h' hy
  obtain ⟨p, b⟩ := x
  obtain ⟨q, b'⟩ := y
  obtain rfl : p = q := heq
  cases b with
  | one v =>
    cases b' with
    | one w =>
      have hw : (if p.name = p.name then some w else none) = some v :=
        (hvalue p.name v).mp (if_pos rfl)
      rw [if_pos rfl] at hw
      exact (Option.some.inj hw).symm
    | many ws => exact absurd hfits' hfits.1
    | named items' => exact absurd hfits' hfits.2
  | many vs =>
    cases b' with
    | one w => exact absurd hfits hfits'.1
    | many ws =>
      refine List.ext_getElem? fun i => Option.ext fun v => ?_
      rw [← argAt_argName, ← argAt_argName]
      exact hvalue (argName i) v
    | named items' => exact absurd (hfits.symm.trans hfits') (by decide)
  | named items =>
    cases b' with
    | one w => exact absurd hfits hfits'.2
    | many ws => exact absurd (hfits.symm.trans hfits') (by decide)
    | named items' =>
      refine fun n => Option.ext fun item => ?_
      have hitem : ∀ items : Keywords V, items.get? n = some item ↔
          item.1 = n ∧ (items.get? n).map Prod.snd = some item.2 := by
        intro items
        constructor
        · intro hget
          exact ⟨Table.key_of_get? hget, by rw [hget]; rfl⟩
        · rintro ⟨hn, hsnd⟩
          obtain ⟨other, hget, hother⟩ := Option.map_eq_some_iff.mp hsnd
          rw [hget, Prod.ext ((Table.key_of_get? hget).trans hn.symm) hother]
      rw [hitem, hitem]
      exact and_congr_right fun _ => hvalue n item.2

end Shown

/-! ### The condition in words -/

section Separable

variable [PyText] (sha256 : Bytes → String) (str : O → String) (sig : Signature F H (ArgValue O))
  (c c' : HandlerCall (ArgValue O))

/-- **Nothing is merged**: two ids have two texts, no id is empty or zero, two tokens have two
marks, two values are written differently, and no name is taken by two parameters. -/
structure Separable : Prop where
  ids : ∀ j j', CallerContext.id? c.context = some j → CallerContext.id? c'.context = some j' →
    PyText.str j = PyText.str j' → j = j'
  present : ¬ CallerContext.EmptyId c.context ∧ ¬ CallerContext.EmptyId c'.context
  tokens : CallerContext.id? c.context = none →
    (CallerContext.presented c.context).map (CallerContext.mark sha256) =
      (CallerContext.presented c'.context).map (CallerContext.mark sha256) →
    CallerContext.presented c.context = CallerContext.presented c'.context
  values : ∀ n v v', c.shown sig n = some v → c'.shown sig n = some v' →
    v.toJson str = v'.toJson str → v = v'
  names : ¬ c.Crosses sig c ∧ ¬ c'.Crosses sig c' ∧ ¬ c.Crosses sig c'

variable {sha256 str sig c c'}

/-- Callers that are alike are one. -/
theorem Separable.same (h : Separable sha256 str sig c c')
    (halike : CallerContext.Alike sha256 c.context c'.context) :
    CallerContext.Same c.context c'.context := by
  obtain ⟨hident, hmarks⟩ := halike
  have htrue : ∀ {context : Option CallerContext} {j : Json}, ¬ CallerContext.EmptyId context →
      CallerContext.id? context = some j →
        CallerContext.ident context = some (PyText.str j) := by
    intro context j hpresent hj
    rw [CallerContext.ident_eq, hj, Option.bind_some, if_pos]
    by_contra hfalse
    exact hpresent ⟨j, hj, Bool.eq_false_iff.mpr hfalse⟩
  have hnone : ∀ {context : Option CallerContext}, CallerContext.id? context = none →
      CallerContext.ident context = none := by
    intro context hid
    rw [CallerContext.ident_eq, hid, Option.bind_none]
  cases hid : CallerContext.id? c.context with
  | none =>
    cases hid' : CallerContext.id? c'.context with
    | none =>
      refine ⟨by rw [hid, hid'], fun _ => h.tokens hid (hmarks (hnone hid))⟩
    | some j' =>
      rw [hnone hid, htrue h.present.2 hid'] at hident
      cases hident
  | some j =>
    cases hid' : CallerContext.id? c'.context with
    | none =>
      rw [hnone hid', htrue h.present.1 hid] at hident
      cases hident
    | some j' =>
      rw [htrue h.present.1 hid, htrue h.present.2 hid'] at hident
      obtain rfl := h.ids j j' hid hid' (Option.some.inj hident)
      exact ⟨by rw [hid, hid'], fun hno => by rw [hid] at hno; cases hno⟩

/-- Arguments that are written alike are shown alike. -/
theorem Separable.shown_eq (h : Separable sha256 str sig c c')
    (halike : AlikeArguments str sig c c') (n : String) : c.shown sig n = c'.shown sig n := by
  have hn := halike n
  cases hv : c.shown sig n with
  | none =>
    rw [hv] at hn
    exact (Option.map_eq_none_iff.mp hn.symm).symm
  | some v =>
    rw [hv] at hn
    obtain ⟨v', hv', hjson⟩ := Option.map_eq_some_iff.mp hn.symm
    rw [hv', h.values n v v' hv hv' hjson.symm]

/-- **The condition leaves out nothing else**: calls that bind are clear where nothing is merged. -/
theorem clear_of_separable {bound bound' : List (Param F (ArgValue O) × Bound (ArgValue O))}
    (hbound : c.arguments sig = some bound) (hbound' : c'.arguments sig = some bound')
    (h : Separable sha256 str sig c c') : Clear sha256 str sig c c' where
  distinct hcaller halike := by
    refine ⟨h.same hcaller, ?_⟩
    obtain ⟨hown, hown', hcross⟩ := h.names
    exact sameArguments_of_shown_eq hbound hbound' hown hown' hcross (h.shown_eq halike)
  steady _ _ hempty := absurd hempty h.present.1

end Separable

end HandlerCall

/-! ### JSON values -/

namespace ArgValue

mutual

/-- A JSON value as an argument. -/
def ofJson : Json → ArgValue O
  | .null => .null
  | .bool b => .bool b
  | .num n => .num n
  | .float x => .float x
  | .str s => .str s
  | .arr xs => .list (ofElements xs)
  | .obj fs => .dict (ofFields fs)

def ofElements : List Json → List (ArgValue O)
  | [] => []
  | x :: xs => ofJson x :: ofElements xs

def ofFields : List (String × Json) → List (ArgKey × ArgValue O)
  | [] => []
  | (k, x) :: fs => (.str k, ofJson x) :: ofFields fs

end

theorem all_isStr_ofFields (fs : List (String × Json)) :
    ((ofFields fs : List (ArgKey × ArgValue O)).map Prod.fst).all ArgKey.isStr = true := by
  induction fs with
  | nil => rw [ofFields]; rfl
  | cons f fs ih =>
    obtain ⟨k, x⟩ := f
    rw [ofFields, List.map_cons, List.all_cons, ih]
    rfl

mutual

/-- A JSON value is written as it is. -/
theorem toJson_ofJson (str : O → String) : (j : Json) → (ofJson j : ArgValue O).toJson str = some j
  | .null => by rw [ofJson, toJson]
  | .bool b => by rw [ofJson, toJson]
  | .num n => by rw [ofJson, toJson]
  | .float x => by rw [ofJson, toJson]
  | .str s => by rw [ofJson, toJson]
  | .arr xs => by rw [ofJson, toJson, toElements_ofElements str xs, Option.map_some]
  | .obj fs => by
    have hcomparable : ArgKey.comparable ((ofFields fs : List (ArgKey × ArgValue O)).map Prod.fst) =
        true := by
      rw [ArgKey.comparable, all_isStr_ofFields, Bool.or_true, Bool.true_or]
    rw [ofJson, toJson, if_pos hcomparable, toFields_ofFields str fs, Option.map_some]

theorem toElements_ofElements (str : O → String) :
    (xs : List Json) → toElements str (ofElements xs) = some xs
  | [] => by rw [ofElements, toElements]
  | x :: xs => by
    rw [ofElements, toElements, toJson_ofJson str x, toElements_ofElements str xs]
    rfl

theorem toFields_ofFields (str : O → String) :
    (fs : List (String × Json)) → toFields str (ofFields fs) = some fs
  | [] => by rw [ofFields, toFields]
  | (k, x) :: fs => by
    rw [ofFields, toFields, toJson_ofJson str x, toFields_ofFields str fs]
    rfl

end

end ArgValue

/-! ### Plain calls -/

namespace HandlerCall

/-- The call binds, every argument is a JSON value, and the caller has a string for its id. -/
structure Plain (sig : Signature F H (ArgValue O)) (c : HandlerCall (ArgValue O)) : Prop where
  arguments : ∃ bound, c.arguments sig = some bound ∧
    ∀ x ∈ bound, ∃ j, x.2 = .one (ArgValue.ofJson j)
  caller : ∃ text, text ≠ "" ∧ CallerContext.id? c.context = some (.str text)

/-- What a plain call has under a name is a JSON value, and the name is that of the parameter. -/
theorem Plain.at {sig : Signature F H (ArgValue O)} {c : HandlerCall (ArgValue O)}
    (hc : c.Plain sig) {bound : List (Param F (ArgValue O) × Bound (ArgValue O))}
    (h : c.arguments sig = some bound) {x : Param F (ArgValue O) × Bound (ArgValue O)}
    (hx : x ∈ bound) {n : String} {v : ArgValue O}
    (hat : x.2.at x.1.name n = some v) : n = x.1.name ∧ ∃ j, v = ArgValue.ofJson j := by
  obtain ⟨bound', hbound', hplain⟩ := hc.arguments
  obtain rfl := Option.some.inj (h.symm.trans hbound')
  obtain ⟨j, hj⟩ := hplain x hx
  rw [hj, Bound.at] at hat
  split at hat
  · exact ⟨by assumption, j, (Option.some.inj hat).symm⟩
  · cases hat

theorem Plain.not_crosses {sig : Signature F H (ArgValue O)} {c c' : HandlerCall (ArgValue O)}
    (hc : c.Plain sig) (hc' : c'.Plain sig) : ¬ c.Crosses sig c' := by
  rintro ⟨bound, bound', h, h', x, hx, y, hy, hne, n, v, w, hv, hw⟩
  obtain ⟨rfl, -⟩ := hc.at h hx hv
  obtain ⟨hname, -⟩ := hc'.at h' hy hw
  have hmem : x.1 ∈ sig.params := (arguments_sublist h).subset (List.mem_map_of_mem hx)
  have hmem' : y.1 ∈ sig.params := (arguments_sublist h').subset (List.mem_map_of_mem hy)
  exact hne (List.inj_on_of_nodup_map sig.nodup hmem hmem' hname)

/-- What a plain call shows is a JSON value. -/
theorem Plain.shown {sig : Signature F H (ArgValue O)} {c : HandlerCall (ArgValue O)}
    (hc : c.Plain sig) {n : String} {v : ArgValue O} (hv : c.shown sig n = some v) :
    ∃ j, v = ArgValue.ofJson j := by
  obtain ⟨bound, hbound, -⟩ := hc.arguments
  rw [HandlerCall.shown, hbound] at hv
  rcases exists_of_foldl_at hv with hnone | ⟨x, hx, hat⟩
  · cases hnone
  · exact (hc.at hbound hx hat).2

/-- **Plain calls** are told apart. -/
theorem clear_of_plain [PyText] (sha256 : Bytes → String) (str : O → String)
    {sig : Signature F H (ArgValue O)} {c c' : HandlerCall (ArgValue O)} (hc : c.Plain sig)
    (hc' : c'.Plain sig) : Clear sha256 str sig c c' := by
  obtain ⟨text, hne, hid⟩ := hc.caller
  obtain ⟨text', hne', hid'⟩ := hc'.caller
  have hpresent : ∀ {context : Option CallerContext} {t : String}, t ≠ "" →
      CallerContext.id? context = some (.str t) → ¬ CallerContext.EmptyId context := by
    rintro context t ht hcontext ⟨j, hj, hfalse⟩
    rw [hcontext] at hj
    obtain rfl := Option.some.inj hj
    rw [Json.truthy, decide_eq_true ht] at hfalse
    cases hfalse
  obtain ⟨bound, hbound, -⟩ := hc.arguments
  obtain ⟨bound', hbound', -⟩ := hc'.arguments
  refine clear_of_separable hbound hbound' ⟨fun j j' hj hj' hstr => ?_, ⟨hpresent hne hid,
    hpresent hne' hid'⟩, fun hnone => ?_, fun n v v' hv hv' hjson => ?_,
    ⟨hc.not_crosses hc, hc'.not_crosses hc', hc.not_crosses hc'⟩⟩
  · obtain rfl := Option.some.inj (hid.symm.trans hj)
    obtain rfl := Option.some.inj (hid'.symm.trans hj')
    rw [PyText.str_str, PyText.str_str] at hstr
    rw [hstr]
  · rw [hid] at hnone
    cases hnone
  · obtain ⟨j, rfl⟩ := hc.shown hv
    obtain ⟨j', rfl⟩ := hc'.shown hv'
    rw [ArgValue.toJson_ofJson, ArgValue.toJson_ofJson] at hjson
    rw [Option.some.inj hjson]

/-! ### Keys -/

section Keys

variable [PyText] {sha256 : Bytes → String} {str : O → String} {path : String}
  {sig : Signature F H (ArgValue O)} {c c' : HandlerCall (ArgValue O)} {k k' : String}

/-- **Two keys** are equal just when the calls are alike. -/
theorem key_eq_iff (hsha : Function.Injective sha256)
    (h : idempotencyKey sha256 str path sig c = some k)
    (h' : idempotencyKey sha256 str path sig c' = some k') :
    k = k' ↔ CallerContext.Alike sha256 c.context c'.context ∧ AlikeArguments str sig c c' := by
  obtain ⟨identity, hidentity, hkey⟩ := Option.bind_eq_some_iff.mp h
  obtain ⟨identity', hidentity', hkey'⟩ := Option.bind_eq_some_iff.mp h'
  rw [makeIdempotencyKey_eq_iff hsha hkey hkey',
    CallerContext.identity_eq_iff hidentity hidentity']
  refine and_congr_right fun _ => forall_congr' fun n => ?_
  rw [get?_boundParams, get?_boundParams]

/-- **Keys tell requests apart**, and no request from itself, just under the condition. -/
theorem keys_separate_iff (hsha : Function.Injective sha256)
    (h : idempotencyKey sha256 str path sig c = some k)
    (h' : idempotencyKey sha256 str path sig c' = some k') :
    (k = k' ↔ CallerContext.Same c.context c'.context ∧ c.SameArguments sig c') ↔
      Clear sha256 str sig c c' := by
  -- equal keys: callers and arguments that are shown alike
  rw [key_eq_iff hsha h h']
  constructor
  · intro hiff
    refine ⟨fun hcaller hargs => hiff.mp ⟨hcaller, hargs⟩, fun hcaller hargs => ?_⟩
    exact hcaller.alike_iff.mp (hiff.mpr ⟨hcaller, hargs⟩).1
  · intro hclear
    constructor
    · exact fun halike => hclear.distinct halike.1 halike.2
    · rintro ⟨hcaller, hargs⟩
      refine ⟨hcaller.alike_iff.mpr (hclear.steady hcaller hargs), fun n => ?_⟩
      rw [hargs.shown_eq]

end Keys

/-- `async def pay(order, amount)`, and `async def echo(*args, **kwargs)`. -/
def pay : Signature Unit Unit (ArgValue Unit) where
  params := [⟨"order", .positionalOrKeyword, .empty, .bare⟩,
    ⟨"amount", .positionalOrKeyword, .empty, .bare⟩]
  typeHints := some []
  nodup := by decide
  last := by decide

def echoAny : Signature Unit Unit (ArgValue Unit) where
  params := [⟨"args", .varPositional, .empty, .bare⟩, ⟨"kwargs", .varKeyword, .empty, .bare⟩]
  typeHints := some []
  nodup := by decide
  last := by decide

/-- `sha256` of the texts below, and some other digest of every other text. -/
def someSha256 (data : Bytes) : String :=
  if data = Utf8.encode "pay\np:ada\n\x7b\"amount\": 5, \"order\": \"o-1\"\x7d" then
    "6ba5790efc0777d08222d0bc9c8f820c95d1b0c51fecefd112a274b9e7b2b296"
  else if data = Utf8.encode "echo\n\n\x7b\"arg0\": 1\x7d" then
    "6981ac553292f62d8c8736f8044cbae16ed71858f71095d04b215e6ef0e1b26c"
  else "=" ++ Base64.b64encode data

theorem someSha256_injective : Function.Injective someSha256 := by
  have hother : ∀ data, (("=" ++ Base64.b64encode data).toList).head? = some '=' := by
    intro data
    rw [String.toList_append]
    rfl
  have hinj : ∀ data data', "=" ++ Base64.b64encode data = "=" ++ Base64.b64encode data' →
      data = data' := by
    intro data data' h
    have hlist := congrArg String.toList h
    rw [String.toList_append, String.toList_append, List.append_right_inj,
      String.toList_inj] at hlist
    have hdecode := Base64.b64decode_b64encode data
    rw [hlist, Base64.b64decode_b64encode] at hdecode
    exact (Option.some.inj hdecode).symm
  have hne : ∀ (s : String) data, s.toList.head? ≠ some '=' → s ≠ "=" ++ Base64.b64encode data := by
    rintro s data hs rfl
    exact hs (hother data)
  intro data data' h
  unfold someSha256 at h
  split at h <;> rename_i h₁
  · split at h <;> rename_i h₂
    · rw [h₁, h₂]
    · split at h <;> rename_i h₃
      · exact absurd h (by decide)
      · exact absurd h (hne _ _ (by decide))
  · split at h <;> rename_i h₂
    · split at h <;> rename_i h₃
      · exact absurd h (by decide)
      · split at h <;> rename_i h₄
        · rw [h₂, h₄]
        · exact absurd h (hne _ _ (by decide))
    · split at h <;> rename_i h₃
      · exact absurd h.symm (hne _ _ (by decide))
      · split at h <;> rename_i h₄
        · exact absurd h.symm (hne _ _ (by decide))
        · exact hinj _ _ h

/-- `pay("o-1", amount)` and `pay(amount=amount, order="o-1")`, for one principal. -/
def payInOrder (amount : ℤ) : HandlerCall (ArgValue Unit) :=
  ⟨[.str "o-1", .num amount], ∅, some ⟨some (.str "ada"), none⟩⟩

def payByName (amount : ℤ) : HandlerCall (ArgValue Unit) :=
  ⟨[], .ofList Prod.fst [("amount", .num amount), ("order", .str "o-1")],
    some ⟨some (.str "ada"), none⟩⟩

/-- What the parameters are bound to, either way. -/
def paid (amount : ℤ) : List (Param Unit (ArgValue Unit) × Bound (ArgValue Unit)) :=
  [(⟨"order", .positionalOrKeyword, .empty, .bare⟩, .one (.str "o-1")),
    (⟨"amount", .positionalOrKeyword, .empty, .bare⟩, .one (.num amount))]

/-- Both ways of writing a call have one key, and another amount has another. -/
theorem keys_separate_pay : let _ := PyText.plain
    ∃ k k' l, idempotencyKey someSha256 (fun _ => "") "pay" pay (payInOrder 5) = some k ∧
      idempotencyKey someSha256 (fun _ => "") "pay" pay (payByName 5) = some k' ∧
      idempotencyKey someSha256 (fun _ => "") "pay" pay (payByName 6) = some l ∧
        k = k' ∧ k ≠ l := by
  let _ := PyText.plain
  have hvalues : ∀ amount, ∀ x ∈ paid amount, ∃ j, x.2 = .one (ArgValue.ofJson j) := by
    intro amount
    exact List.forall_mem_cons.mpr
      ⟨⟨.str "o-1", rfl⟩, List.forall_mem_singleton.mpr ⟨.num amount, rfl⟩⟩
  have hinOrder : (payInOrder 5).Plain pay := ⟨⟨paid 5, rfl, hvalues 5⟩, "ada", by decide, rfl⟩
  have hbyName : ∀ amount, (payByName amount).Plain pay :=
    fun amount => ⟨⟨paid amount, rfl, hvalues amount⟩, "ada", by decide, rfl⟩
  have hiff := fun (amount : ℤ) {k l : String}
      (hk : idempotencyKey someSha256 (fun _ => "") "pay" pay (payInOrder 5) = some k)
      (hl : idempotencyKey someSha256 (fun _ => "") "pay" pay (payByName amount) = some l) =>
    (keys_separate_iff someSha256_injective hk hl).mpr
      (clear_of_plain someSha256 (fun _ => "") hinOrder (hbyName amount))
  refine ⟨_, _, _, rfl, rfl, rfl, (hiff 5 rfl rfl).mpr ⟨⟨rfl, nofun⟩, ?_⟩, fun hkl => ?_⟩
  · exact .cons ⟨rfl, rfl⟩ (.cons ⟨rfl, rfl⟩ .nil)
  · obtain ⟨-, _ | ⟨-, _ | ⟨⟨-, hamount⟩, -⟩⟩⟩ := (hiff 6 rfl rfl).mp hkl
    exact absurd (ArgValue.num.inj hamount) (by decide)

/-- `echo(1)` and `echo(arg0=1)`. -/
def echoOne : HandlerCall (ArgValue Unit) := ⟨[.num 1], ∅, none⟩

def echoNamed : HandlerCall (ArgValue Unit) := ⟨[], Table.put ∅ ("arg0", .num 1), none⟩

/-- With `*args` and `**kwargs` the calls `echo(1)` and `echo(arg0=1)` share a key. -/
theorem keys_collide : let _ := PyText.plain
    Function.Injective someSha256 ∧ ∃ k,
      idempotencyKey someSha256 (fun _ => "") "echo" echoAny echoOne = some k ∧
      idempotencyKey someSha256 (fun _ => "") "echo" echoAny echoNamed = some k ∧
      ¬ echoOne.SameArguments echoAny echoNamed := by
  let _ := PyText.plain
  refine ⟨someSha256_injective, _, rfl, rfl, ?_⟩
  rintro (_ | ⟨⟨-, hvalues⟩, -⟩)
  have hargs : [ArgValue.num 1] = ([] : List (ArgValue Unit)) := hvalues
  cases hargs

end HandlerCall

end Istos
