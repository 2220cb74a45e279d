import Istos.Codec.Equiv.PyText
import Istos.Data.Assoc
import Istos.Primitives.Equiv.Errors
import Istos.Wire.Gateway

/-!
# What the gateway reads and writes

* `read_alike_iff`: the gateway and a caller on the mesh read an error reply alike just when it has
  a code that can be looked up.
* `encode_alike_iff`: the gateway and every other client encode a call alike just when no argument
  has the name of an option and every value is written by `str` as `encode_params` writes it;
  `spelledAlike_iff` says which values these are.
* `selector_round_trip`: what `build_selector` writes is read back, whatever the arguments are.
-/

namespace Istos

/-! ### Replies -/

/-- The gateway and a caller on the mesh read a reply alike. -/
def ReadAlike (parsed : Json) (defaultCode : String) : Prop :=
  if isErrorPayload parsed then
    ∃ status r, statusForReply parsed = some status ∧ errorFromPayload parsed defaultCode = some r ∧
      status = r.fields.status
  else statusForReply parsed = some 200

/-- The status of a class in `_CODE_TO_ERROR` is the one of its code. -/
theorem codeToStatus_of_found {code : Json} {cls : ErrorClass} {status : ℤ}
    (h : codeToError code = some (cls, status)) : codeToStatus code = some status := by
  unfold codeToError at h
  split at h <;> cases h <;> rfl

theorem statusForReply_eq {parsed code : Json} (herror : isErrorPayload parsed = true)
    (h : parsed.get? "code" = some code) (hhash : Hashable code = true) :
    statusForReply parsed = some ((codeToStatus code).getD defaultErrorStatus) := by
  rw [statusForReply, if_pos herror, h]
  cases code with
  | arr xs => cases hhash
  | obj fields => cases hhash
  | _ => rfl

theorem statusForReply_eq_none {parsed : Json} (herror : isErrorPayload parsed = true)
    (h : ¬ ∃ code, parsed.get? "code" = some code ∧ Hashable code = true) :
    statusForReply parsed = none := by
  rw [statusForReply, if_pos herror]
  cases hcode : parsed.get? "code" with
  | none => rfl
  | some code =>
    cases code with
    | arr xs => rfl
    | obj fields => rfl
    | _ => exact absurd ⟨_, hcode, rfl⟩ h

/-- The status of what is rebuilt is the one of its code. -/
theorem status_errorFromPayload {parsed code : Json} (defaultCode : String)
    (h : parsed.get? "code" = some code) (hhash : Hashable code = true) :
    ∃ r, errorFromPayload parsed defaultCode = some r ∧
      r.fields.status = (codeToStatus code).getD defaultErrorStatus := by
  have hcases : ∀ found, codeToError code = found → ∃ r,
      errorFromPayload parsed defaultCode = some r ∧
        r.fields.status = (codeToStatus code).getD defaultErrorStatus := by
    rintro (_ | ⟨cls, status⟩) hfound
    · refine ⟨⟨[.istos], ⟨(parsed.get? "message").getD (.str "the responder failed"), code,
        (codeToStatus code).getD defaultErrorStatus, none,
            .json ((parsed.get? "details").getD .null)⟩,
        (parsed.get? "correlation_id").getD .null⟩, ?_, rfl⟩
      unfold errorFromPayload
      rw [h]
      dsimp only [Option.getD_some]
      cases code with
      | arr xs => cases hhash
      | obj fields => cases hhash
      | _ => dsimp only; rw [hfound]
    · refine ⟨⟨[cls, .istos], ⟨(parsed.get? "message").getD (.str "the responder failed"), code,
        status, none, .json ((parsed.get? "details").getD .null)⟩,
        (parsed.get? "correlation_id").getD .null⟩, ?_, ?_⟩
      · unfold errorFromPayload
        rw [h]
        dsimp only [Option.getD_some]
        cases code with
        | arr xs => cases hhash
        | obj fields => cases hhash
        | _ => dsimp only; rw [hfound]
      · rw [codeToStatus_of_found hfound]
        rfl
  exact hcases _ rfl

/-- **Every reader reads an error reply alike** just when it has a code that can be looked up. -/
theorem read_alike_iff (parsed : Json) (defaultCode : String) :
    ReadAlike parsed defaultCode ↔
      (isErrorPayload parsed = true → ∃ code, parsed.get? "code" = some code ∧
          Hashable code = true) := by
  unfold ReadAlike
  cases herror : isErrorPayload parsed with
  | false =>
    have hstatus : statusForReply parsed = some 200 := by
      rw [statusForReply, herror]
      rfl
    exact ⟨fun _ hcontra => absurd hcontra Bool.false_ne_true, fun _ => hstatus⟩
  | true =>
    rw [if_pos rfl]
    constructor
    -- a code that is not there, or is no key of a table, raises in the gateway
    · rintro ⟨status, r, hstatus, -, -⟩ -
      by_contra hno
      rw [statusForReply_eq_none herror hno] at hstatus
      cases hstatus
    · intro hcode
      obtain ⟨code, hget, hhash⟩ := hcode rfl
      obtain ⟨r, hr, hsame⟩ := status_errorFromPayload defaultCode hget hhash
      exact ⟨_, r, statusForReply_eq herror hget hhash, hr, hsame.symm⟩

/-- An envelope of another language, without a code. -/
theorem read_alike_no_code :
    ¬ ReadAlike (.obj [("__istos_error", .bool true), ("message", .str "out of fuel")])
      "internal_error" := by
  rw [read_alike_iff]
  intro h
  obtain ⟨code, hcode, -⟩ := h rfl
  cases hcode

/-! ### Arguments -/

variable [PyText]

/-- The names that some client does not pass on. -/
def takenNames : List String :=
  ["self", "key_expr", "timeout_s", "serializer", "token", "consolidate_replies"]

/-- A value is written by `str` as `encode_params` writes it. -/
def SpelledAlike (v : Json) : Prop := encodeParam v = some (PyText.str v)

/-- **The values that are written alike**: numbers and texts, and the lists and dictionaries of
which every token is written alike. -/
theorem spelledAlike_iff (v : Json) : SpelledAlike v ↔
    match v with
    | .null => False
    | .bool _ => False
    | .arr xs => ∀ t ∈ (Json.arr xs).tokens, PyText.SharedToken t
    | .obj fields => ∀ t ∈ (Json.obj fields).tokens, PyText.SharedToken t
    | _ => True := by
  unfold SpelledAlike
  cases v with
  | null => exact iff_of_false nofun id
  | bool b =>
    refine iff_of_false (fun h => ?_) id
    have htext : PyText.str (.bool b) = if b then "True" else "False" := by cases b <;> rfl
    rw [encodeParam, htext] at h
    cases b <;> exact absurd h (by decide)
  | arr xs => exact Option.some_inj.trans (PyText.dumps_eq_repr_iff (.arr xs))
  | obj fields => exact Option.some_inj.trans (PyText.dumps_eq_repr_iff (.obj fields))
  | _ => exact iff_of_true rfl trivial

/-- Every client leads to the same parameters, whatever their order. -/
def EncodedAlike (z : Zenoh) (key : String) (args : Arguments) : Prop :=
  ∃ m : String → Option String, ∀ c : Client, ∃ params,
    c.decoded z key args = some params ∧ ∀ k, params.lookup k = m k

namespace Client

omit [PyText] in
/-- The names that a client does not pass on are taken. -/
theorem mem_takenNames {c : Client} {k : String} (h : k ∈ c.given ∨ k ∈ c.options) :
    k ∈ takenNames := by
  have hall : ∀ c : Client, (∀ k ∈ c.given, k ∈ takenNames) ∧ ∀ k ∈ c.options, k ∈ takenNames := by
    intro c
    cases c <;> decide
  exact h.elim ((hall c).1 k) ((hall c).2 k)

/-- Every client but the gateway passes keyword arguments. -/
theorem params_eq {c : Client} (hc : c ≠ gateway) (args : Arguments) :
    c.params args = if args.any fun x => decide (x.1 ∈ c.given) then none
      else some ((args.filter fun x => decide (x.1 ∉ c.options)).map
        fun x => (x.1, PyText.str x.2)) := by
  cases c with
  | gateway => exact absurd rfl hc
  | _ => rfl

theorem params_of_ne_gateway {c : Client} (hc : c ≠ gateway) {args : Arguments} {params : Params}
    (h : c.params args = some params) :
    params = (args.filter fun x => decide (x.1 ∉ c.options)).map fun x =>
      (x.1, PyText.str x.2) := by
  rw [params_eq hc] at h
  split at h
  · cases h
  · exact (Option.some.inj h).symm

/-- The parameters of a call have distinct names. -/
theorem nodup_params {c : Client} {args : Arguments} (hargs : (args.map Prod.fst).Nodup)
    {params : Params} (h : c.params args = some params) : (params.map Prod.fst).Nodup := by
  by_cases hc : c = gateway
  · subst hc
    obtain rfl := Option.some.inj h
    have hsub : ((encodeParams args).map Prod.fst).Sublist (args.map Prod.fst) := by
      unfold encodeParams
      clear hargs h
      induction args with
      | nil => exact List.Sublist.refl _
      | cons x args ih =>
        cases hx : encodeParam x.2 with
        | none =>
          rw [List.filterMap_cons_none (by rw [hx]; rfl)]
          exact ih.cons x.1
        | some v =>
          rw [List.filterMap_cons_some (by rw [hx]; rfl)]
          exact ih.cons_cons x.1
    exact hsub.nodup hargs
  · rw [params_of_ne_gateway hc h, List.map_map]
    exact (List.Sublist.map Prod.fst List.filter_sublist).nodup hargs

/-- What the handler decodes is what the client wrote. -/
theorem decoded_eq {z : Zenoh} (hz : z.SplitsText) {key : String} (hkey : '?' ∉ key.toList)
    {args : Arguments} (hargs : (args.map Prod.fst).Nodup) (c : Client) :
    c.decoded z key args = c.params args := by
  unfold decoded
  cases h : c.params args with
  | none => rfl
  | some params =>
    rw [Option.bind_some, hz.read hkey (nodup_params hargs h)]
    rfl

end Client

/-- The gateway's parameters, where every value is written alike. -/
theorem encodeParams_of_alike {args : Arguments} (h : ∀ x ∈ args, SpelledAlike x.2) :
    encodeParams args = args.map fun x => (x.1, PyText.str x.2) := by
  unfold encodeParams
  induction args with
  | nil => rfl
  | cons x args ih =>
    have hx : encodeParam x.2 = some (PyText.str x.2) := h x List.mem_cons_self
    rw [List.filterMap_cons_some (by rw [hx]; rfl), ih fun y hy => h y (List.mem_cons_of_mem x hy)]
    rfl

/-- Where nothing is taken, every client writes all arguments. -/
theorem Client.params_of_alike {args : Arguments} (hnames : ∀ x ∈ args, x.1 ∉ takenNames)
    (hvalues : ∀ x ∈ args, SpelledAlike x.2) (c : Client) :
    c.params args = some (args.map fun x => (x.1, PyText.str x.2)) := by
  have hgiven : (args.any fun x => decide (x.1 ∈ c.given)) = false := by
    rw [List.any_eq_false]
    intro x hx
    rw [decide_eq_true_eq]
    exact fun hmem => hnames x hx (mem_takenNames (.inl hmem))
  have hfilter : (args.filter fun x => decide (x.1 ∉ c.options)) = args := by
    rw [List.filter_eq_self]
    intro x hx
    exact decide_eq_true fun hmem => hnames x hx (mem_takenNames (.inr hmem))
  by_cases hc : c = .gateway
  · subst hc
    exact congrArg some (encodeParams_of_alike hvalues)
  · rw [params_eq hc, if_neg (by rw [hgiven]; exact Bool.false_ne_true), hfilter]

/-! #### Looking up a parameter -/

/-- What the gateway leads to under the name of an argument. -/
theorem lookup_encodeParams {args : Arguments} (hargs : (args.map Prod.fst).Nodup) {k : String}
    {v : Json} (h : (k, v) ∈ args) : (encodeParams args).lookup k = encodeParam v := by
  have hnodup : ((encodeParams args).map Prod.fst).Nodup :=
    Client.nodup_params (c := .gateway) hargs rfl
  cases hv : encodeParam v with
  | some text =>
    refine Assoc.lookup_of_mem hnodup (List.mem_filterMap.mpr ⟨(k, v), h, ?_⟩)
    rw [hv]
    rfl
  | none =>
    refine Assoc.lookup_eq_none fun hmem => ?_
    obtain ⟨y, hy, hyk⟩ := List.mem_map.mp hmem
    obtain ⟨x, hx, hxy⟩ := List.mem_filterMap.mp hy
    obtain ⟨text, htext, rfl⟩ := Option.map_eq_some_iff.mp hxy
    obtain ⟨k', v'⟩ := x
    obtain rfl : k' = k := hyk
    have hsame : v' = v := by
      have h₁ := Assoc.lookup_of_mem hargs hx
      rw [Assoc.lookup_of_mem hargs h] at h₁
      exact (Option.some.inj h₁).symm
    rw [hsame, hv] at htext
    cases htext

/-- **Every client encodes a call alike** just when no argument has the name of an option and every
value is written by `str` as `encode_params` writes it. -/
theorem encode_alike_iff {z : Zenoh} (hz : z.SplitsText) {key : String} (hkey : '?' ∉ key.toList)
    {args : Arguments} (hargs : (args.map Prod.fst).Nodup) :
    EncodedAlike z key args ↔ ∀ x ∈ args, x.1 ∉ takenNames ∧ SpelledAlike x.2 := by
  constructor
  · rintro ⟨m, hm⟩ ⟨k, v⟩ hx
    have hread : ∀ c : Client, ∃ params, c.params args = some params ∧
        ∀ k, params.lookup k = m k := by
      intro c
      obtain ⟨params, hdecoded, hlookup⟩ := hm c
      rw [c.decoded_eq hz hkey hargs] at hdecoded
      exact ⟨params, hdecoded, hlookup⟩
    -- the decorated function has no options, and raises for one name only
    obtain ⟨params, hparams, hlookup⟩ := hread .query
    have hquery := Client.params_of_ne_gateway (by decide) hparams
    have hkeep : (args.filter fun x => decide (x.1 ∉ Client.query.options)) = args :=
      List.filter_eq_self.mpr fun y _ => decide_eq_true List.not_mem_nil
    rw [hkeep] at hquery
    have hmk : m k = some (PyText.str v) := by
      rw [← hlookup, hquery]
      refine Assoc.lookup_of_mem ?_ (List.mem_map.mpr ⟨(k, v), hx, rfl⟩)
      rw [List.map_map]
      exact hargs
    have hnot : ∀ c : Client, c ≠ .gateway → k ∉ c.given ∧ k ∉ c.options := by
      intro c hc
      obtain ⟨params, hparams, hlookup⟩ := hread c
      constructor
      · intro hgiven
        have hany : (args.any fun x => decide (x.1 ∈ c.given)) = true :=
          List.any_eq_true.mpr ⟨(k, v), hx, decide_eq_true hgiven⟩
        rw [Client.params_eq hc, if_pos hany] at hparams
        cases hparams
      · intro hoption
        have hlost : params.lookup k = none := by
          refine Assoc.lookup_eq_none fun hmem => ?_
          rw [Client.params_of_ne_gateway hc hparams, List.map_map] at hmem
          obtain ⟨y, hy, rfl⟩ := List.mem_map.mp hmem
          exact absurd hoption (of_decide_eq_true (List.mem_filter.mp hy).2)
        rw [hlookup, hmk] at hlost
        cases hlost
    refine ⟨fun htaken => ?_, ?_⟩
    · obtain ⟨hgiven, hoption⟩ := hnot .queryOnce (by decide)
      have hall : ∀ k ∈ takenNames, k ∈ Client.queryOnce.given ∨ k ∈ Client.queryOnce.options := by
        decide
      exact (hall k htaken).elim hgiven hoption
    · obtain ⟨params, hparams, hlookup⟩ := hread .gateway
      obtain rfl := Option.some.inj hparams
      show encodeParam v = some (PyText.str v)
      rw [← lookup_encodeParams hargs hx, hlookup, hmk]
  · intro hall
    refine ⟨fun k => (args.map fun x => (x.1, PyText.str x.2)).lookup k, fun c => ?_⟩
    refine ⟨args.map fun x => (x.1, PyText.str x.2), ?_, fun _ => rfl⟩
    rw [c.decoded_eq hz hkey hargs]
    exact c.params_of_alike (fun x hx => (hall x hx).1) fun x hx => (hall x hx).2

omit [PyText] in
/-- A call with a word, a number and nested lists of numbers. -/
theorem encode_alike_move : let _ := PyText.plain
    EncodedAlike .literal "robot/*/move" [("to", .str "a;b"), ("distance", .num 10),
      ("path", .arr [.num 1, .arr [.num 2, .num (-3)]])] := by
  intro _
  refine (encode_alike_iff Zenoh.literal_splitsText (by decide) (by decide)).mpr ?_
  simp only [List.forall_mem_cons, List.not_mem_nil, false_implies, implies_true, and_true,
    spelledAlike_iff]
  refine ⟨by decide, by decide, by decide, ?_⟩
  simp [Json.tokens, Json.moreElements, PyText.SharedToken]

omit [PyText] in
/-- The gateway writes `true` and leaves out `null`; every other client writes `True` and `None`. -/
theorem encode_differs_bool : let _ := PyText.plain
    ¬ EncodedAlike .literal "robot/move" [("fast", .bool true)] := by
  intro _
  rw [encode_alike_iff Zenoh.literal_splitsText (by decide) (by decide)]
  intro hall
  have hspelled := (hall ("fast", .bool true) List.mem_cons_self).2
  exact absurd hspelled (by unfold SpelledAlike; decide)

/-! ### Selectors -/

/-- `build_selector`, from the arguments on. -/
def argumentSelector (key : String) (args : Arguments) : String :=
  buildSelector key (encodeParams args)

/-- **Selectors round-trip**: what Zenoh splits the selector of any arguments into decodes to what
`encode_params` made of them, whatever characters their names and values have. -/
theorem selector_round_trip {z : Zenoh} (hz : z.SplitsText) {key : String}
    (hkey : '?' ∉ key.toList) {args : Arguments} (hargs : (args.map Prod.fst).Nodup) :
    z.read (argumentSelector key args) = some (key, encodeParams args) :=
  hz.read hkey (Client.nodup_params (c := .gateway) hargs rfl)

/-- Names and values with separators, an escape that is already there, and a value that is
dropped. -/
def awkwardArguments : Arguments :=
  [("a;b=c", .str "100%2F é"), ("=", .arr [.num 1, .str ";"]), ("none", .null),
    ("flag", .bool true)]

omit [PyText] in
theorem selector_round_trip_awkward :
    let _ := PyText.plain
    Zenoh.literal.read (argumentSelector "jobs/*/run" awkwardArguments)
      = some ("jobs/*/run", encodeParams awkwardArguments) :=
  let _ := PyText.plain
  selector_round_trip Zenoh.literal_splitsText (by decide) (by decide)

end Istos
