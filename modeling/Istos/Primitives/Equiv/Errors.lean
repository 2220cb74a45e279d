import Istos.Codec.Equiv.Json
import Istos.Primitives.Errors

/-!
# What an error keeps across a hop

The envelope holds the code, the message and the details.  The class, the status and whether to
retry are looked up under the code.

* `received_eq`: what the caller rebuilds.
* `error_across_hop_iff`: it means the same as what was raised just when the code says what the
  class, the status and `retryable` of the raised error say.
-/

namespace Istos

/-- The wire code of a class in `_CODE_TO_ERROR`. -/
def ErrorClass.wireCode : ErrorClass → Option String
  | notFound => some "not_found"
  | unauthorized => some "unauthorized"
  | forbidden => some "forbidden"
  | conflict => some "conflict"
  | rateLimit => some "rate_limit_exceeded"
  | _ => none

/-- The codes under which the caller's side does not retry. -/
def clientCodes : List String :=
  ["unauthorized", "forbidden", "not_found", "validation_error", "bad_request"]

/-- A code that says that the caller is at fault. -/
def clientCode : Json → Bool
  | .str s => decide (s ∈ clientCodes)
  | _ => false

/-- A code that can be looked up. -/
def Hashable : Json → Bool
  | .arr _ => false
  | .obj _ => false
  | _ => true

/-! ### The tables -/

/-- `_CODE_TO_ERROR` holds each class under its code. -/
theorem codeToError_iff {code : Json} {cls : ErrorClass} :
    (∃ status, codeToError code = some (cls, status)) ↔ ∃ k, cls.wireCode = some k ∧
        code = .str k := by
  constructor
  · rintro ⟨status, h⟩
    unfold codeToError at h
    split at h <;> cases h <;> exact ⟨_, rfl, rfl⟩
  · rintro ⟨k, hk, rfl⟩
    unfold ErrorClass.wireCode at hk
    split at hk <;> cases hk <;> exact ⟨_, rfl⟩

/-- The status under a code says whether to retry. -/
theorem retryable_codeToError {code : Json} {cls : ErrorClass} {status : ℤ}
    (h : codeToError code = some (cls, status)) :
    PyError.isRetryable ⟨"", true, some (none, status)⟩ = !clientCode code := by
  unfold codeToError at h
  split at h <;> cases h <;> decide

theorem retryable_codeToStatus {code : Json} (h : codeToError code = none) :
    PyError.isRetryable ⟨"", true, some (none, (codeToStatus code).getD defaultErrorStatus)⟩ =
      !clientCode code := by
  by_cases hclient : clientCode code = true
  · cases code with
    | str s =>
      have hs : s ∈ clientCodes := of_decide_eq_true hclient
      simp only [clientCodes, List.mem_cons, List.not_mem_nil, or_false] at hs
      rcases hs with rfl | rfl | rfl | rfl | rfl
      · cases h
      · cases h
      · cases h
      · decide
      · decide
    | _ => cases hclient
  · have hstatus : codeToStatus code = none := by
      unfold codeToStatus
      split <;> first | rfl | exact absurd rfl hclient | cases h
    rw [hstatus, Bool.eq_false_iff.mpr hclient]
    decide

/-! ### The envelope -/

namespace ErrorResponse

variable (r : ErrorResponse) (details : Option Json)

theorem get?_code : (Json.obj (r.fields details)).get? "code" = some r.code := rfl

theorem get?_message : (Json.obj (r.fields details)).get? "message" = some r.message := rfl

/-- An envelope is recognised. -/
theorem isErrorPayload_fields : isErrorPayload (.obj (r.fields details)) = true := rfl

theorem get?_details : (Json.obj (r.fields details)).get? "details" = details := by
  unfold fields
  cases r.correlationId with
  | none => cases details <;> rfl
  | some cid =>
    by_cases hempty : cid = ""
    · simp only [if_pos hempty]
      cases details <;> rfl
    · simp only [if_neg hempty]
      cases details <;> rfl

/-- The envelope is a value that `json` writes and reads. -/
theorem valid_fields [Rounding] (herror : r.error.Valid) (hcode : r.code.Valid)
    (hmessage : r.message.Valid)
    (hdetails : ∀ d ∈ details, d.Valid) : (Json.obj (r.fields details)).Valid := by
  have hkeys : ["__istos_error", "error", "code", "message", "correlation_id", "details"].Nodup :=
    by decide
  have hkeys₁ : ["__istos_error", "error", "code", "message"].Nodup := by decide
  have hkeys₂ : ["__istos_error", "error", "code", "message", "details"].Nodup := by decide
  have hkeys₃ : ["__istos_error", "error", "code", "message", "correlation_id"].Nodup := by decide
  have hcid : ∀ cid : List (String × Json), (cid = [] ∨ ∃ s, cid = [("correlation_id", .str s)]) →
      (Json.obj ([(errorMarker, .bool true), ("error", r.error), ("code", r.code),
        ("message", r.message)]
        ++ cid ++ details.toList.map fun d => ("details", d))).Valid := by
    rintro cid (rfl | ⟨s, rfl⟩)
    · cases details with
      | none => exact ⟨hkeys₁, trivial, herror, hcode, hmessage, trivial⟩
      | some d => exact ⟨hkeys₂, trivial, herror, hcode, hmessage, hdetails d rfl, trivial⟩
    · cases details with
      | none => exact ⟨hkeys₃, trivial, herror, hcode, hmessage, trivial, trivial⟩
      | some d => exact ⟨hkeys, trivial, herror, hcode, hmessage, trivial, hdetails d rfl, trivial⟩
  refine hcid _ ?_
  cases r.correlationId with
  | none => exact .inl rfl
  | some cid =>
    by_cases hempty : cid = ""
    · exact .inl (if_pos hempty)
    · exact .inr ⟨cid, if_neg hempty⟩

end ErrorResponse

/-- What `json` writes of an envelope. -/
theorem ErrorResponse.written_toDict (r : ErrorResponse) :
    r.toDict.written = r.details.details.map fun details => .obj (r.fields details) := by
  unfold toDict
  cases r.details with
  | json j => cases j <;> rfl
  | object o written => cases written <;> rfl

/-- Details that are left out are `None`. -/
theorem PyValue.written_eq (v : PyValue) :
    v.written = v.details.map fun details => details.getD .null := by
  cases v with
  | json j => cases j <;> rfl
  | object o written => cases written <;> rfl

/-! ### What the caller rebuilds -/

/-- The classes and the status that are found under a code. -/
def Rebuilt.Under (r : Rebuilt) (code message details : Json) : Prop :=
  r.fields.code = code ∧ r.fields.message = message ∧ r.fields.details = .json details ∧
    (∀ cls, cls ∈ r.classes ↔ cls = .istos ∨ ∃ k, cls.wireCode = some k ∧ code = .str k) ∧
    r.isRetryable = !clientCode code

section

variable (r : ErrorResponse) (details : Option Json) (defaultCode : String)

theorem errorFromPayload_of_found (hcode : Hashable r.code = true) {cls : ErrorClass} {status : ℤ}
    (hfound : codeToError r.code = some (cls, status)) :
    errorFromPayload (.obj (r.fields details)) defaultCode =
      some ⟨[cls, .istos], ⟨r.message, r.code, status, none, .json (details.getD .null)⟩,
        ((Json.obj (r.fields details)).get? "correlation_id").getD .null⟩ := by
  unfold errorFromPayload
  rw [r.get?_code, r.get?_message, r.get?_details]
  dsimp only [Option.getD_some]
  cases hc : r.code with
  | arr xs => rw [hc] at hcode; cases hcode
  | obj fs => rw [hc] at hcode; cases hcode
  | _ => rw [hc] at hfound; dsimp only; rw [hfound]

theorem errorFromPayload_of_not_found (hcode : Hashable r.code = true)
    (hfound : codeToError r.code = none) :
    errorFromPayload (.obj (r.fields details)) defaultCode =
      some ⟨[.istos],
        ⟨r.message, r.code, (codeToStatus r.code).getD defaultErrorStatus, none,
            .json (details.getD .null)⟩,
        ((Json.obj (r.fields details)).get? "correlation_id").getD .null⟩ := by
  unfold errorFromPayload
  rw [r.get?_code, r.get?_message, r.get?_details]
  dsimp only [Option.getD_some]
  cases hc : r.code with
  | arr xs => rw [hc] at hcode; cases hcode
  | obj fs => rw [hc] at hcode; cases hcode
  | _ => rw [hc] at hfound; dsimp only; rw [hfound]

/-- **What is rebuilt from an envelope.** -/
theorem errorFromPayload_fields (hcode : Hashable r.code = true) :
    ∃ e, errorFromPayload (.obj (r.fields details)) defaultCode = some e ∧
      e.Under r.code r.message (details.getD .null) := by
  cases hfound : codeToError r.code with
  | none =>
    refine ⟨_, errorFromPayload_of_not_found r details defaultCode hcode hfound, rfl, rfl, rfl,
      fun cls => ?_, retryable_codeToStatus hfound⟩
    have hno : ¬ ∃ k, cls.wireCode = some k ∧ r.code = .str k := by
      rw [← codeToError_iff, hfound]
      rintro ⟨status, ⟨⟩⟩
    simp [hno]
  | some found =>
    obtain ⟨cls, status⟩ := found
    refine ⟨_, errorFromPayload_of_found r details defaultCode hcode hfound, rfl, rfl, rfl,
      fun cls' => ?_, retryable_codeToError hfound⟩
    rw [← codeToError_iff, hfound]
    simp only [List.mem_cons, List.not_mem_nil, or_false, Option.some.injEq, Prod.mk.injEq]
    constructor
    · rintro (rfl | rfl)
      · exact .inr ⟨status, rfl, rfl⟩
      · exact .inl rfl
    · rintro (rfl | ⟨_, rfl, -⟩)
      · exact .inr rfl
      · exact .inl rfl

/-- A code that cannot be looked up. -/
theorem errorFromPayload_of_not_hashable (hcode : Hashable r.code = false) :
    errorFromPayload (.obj (r.fields details)) defaultCode = none := by
  unfold errorFromPayload
  rw [r.get?_code]
  cases hc : r.code with
  | arr xs => rfl
  | obj fs => rfl
  | _ => rw [hc] at hcode; cases hcode

end

/-! ### One hop -/

/-- What `json` writes of an exception it also reads, and the details of an `IstosError` are JSON.
-/
structure Raised.Valid [Rounding] (e : Raised) : Prop where
  errors : ∀ j ∈ e.errors.written, j.Valid
  istos : ∀ fields, e.istos = some fields →
    fields.message.Valid ∧ fields.code.Valid ∧ ∃ j, fields.details = .json j ∧ j.Valid

/-- Whether the handler of `SchemaValidationError` comes before the one of `IstosError`. -/
def Raised.schemaFirst (e : Raised) : Bool :=
  e.mro.find? (fun cls => cls = .schemaValidation ∨ cls = .istos) = some .schemaValidation

theorem findSome?_default {mro : List ErrorClass} (h : ErrorClass.istos ∈ mro) :
    mro.findSome? ExceptionHandlerRegistry.default =
      some (if mro.find? (fun cls => cls = .schemaValidation ∨
          cls = .istos) = some .schemaValidation then
        ExceptionHandlerRegistry.fromSchemaValidation
          else ExceptionHandlerRegistry.fromIstosError) := by
  induction mro with
  | nil => cases h
  | cons cls mro ih =>
    cases cls with
    | schemaValidation => rfl
    | istos => rfl
    | _ =>
      have hlater : ErrorClass.istos ∈ mro := by
        rcases List.mem_cons.mp h with heq | hmem
        · cases heq
        · exact hmem
      exact ih hlater

/-- The response to an `IstosError`. -/
theorem resolve_default {e : Raised} {fields : IstosFields} (h : e.istos = some fields) :
    ExceptionHandlerRegistry.default.resolve e =
      .ok (if e.schemaFirst then
        ⟨.str "validation_error", .str "validation_error", .str e.text, none, e.errors⟩
      else ⟨fields.code, fields.code, fields.message, none, fields.details⟩) := by
  have hmem : ErrorClass.istos ∈ e.mro := e.isSome_istos.mp (by rw [h]; rfl)
  rw [ExceptionHandlerRegistry.resolve, findSome?_default hmem]
  show (if _ then ExceptionHandlerRegistry.fromSchemaValidation else _) e = _
  cases hfirst : e.schemaFirst with
  | true =>
    rw [if_pos (of_decide_eq_true hfirst)]
    rfl
  | false =>
    rw [if_neg (of_decide_eq_false hfirst), ExceptionHandlerRegistry.fromIstosError, h]
    rfl

/-- The response to an `IstosError` with the default registry. -/
def Raised.response (e : Raised) (fields : IstosFields) (correlationId : Option String) :
    ErrorResponse :=
  if e.schemaFirst then
    ⟨.str "validation_error", .str "validation_error", .str e.text, correlationId, e.errors⟩
  else ⟨fields.code, fields.code, fields.message, correlationId, fields.details⟩

theorem envelope_eq {e : Raised} {fields : IstosFields} (h : e.istos = some fields)
    (correlationId : Option String) :
    envelope ExceptionHandlerRegistry.default e correlationId =
      .ok (e.response fields correlationId).toDict := by
  rw [envelope, resolve_default h, Raised.response]
  cases e.schemaFirst <;> rfl

/-- Details that are sent are read again. -/
theorem PyValue.valid_details [Rounding] {v : PyValue} (h : ∀ j ∈ v.written, j.Valid)
    {details : Option Json} (hd : v.details = some details) : ∀ j ∈ details, j.Valid := by
  rintro j hj
  cases hj
  refine h j ?_
  rw [v.written_eq, hd]
  rfl

/-- **What the caller raises** for an error that a handler raised. -/
theorem received_eq [Rounding] {e : Raised} (hvalid : e.Valid) {fields : IstosFields}
    (h : e.istos = some fields) (correlationId : Option String) :
    received e correlationId =
      (e.response fields correlationId).details.details.bind fun details =>
        errorFromPayload (.obj ((e.response fields correlationId).fields details))
          "internal_error" := by
  obtain ⟨hmessage, hcode, d, hd, hjson⟩ := hvalid.istos fields h
  rw [received, envelope_eq h]
  dsimp only
  rw [ErrorResponse.written_toDict]
  cases hdetails : (e.response fields correlationId).details.details with
  | none => rfl
  | some details =>
    have hloads : Json.loads (Json.obj ((e.response fields correlationId).fields details)).dumps =
        some (.obj ((e.response fields correlationId).fields details)) := by
      refine Json.loads_dumps ?_
      unfold Raised.response at hdetails ⊢
      cases hfirst : e.schemaFirst with
      | true =>
        rw [if_pos hfirst] at hdetails
        exact ErrorResponse.valid_fields _ _ trivial trivial trivial
          (PyValue.valid_details hvalid.errors hdetails)
      | false =>
        rw [if_neg (Bool.eq_false_iff.mp hfirst)] at hdetails
        refine ErrorResponse.valid_fields _ _ hcode hcode hmessage
          (PyValue.valid_details (fun j hj => ?_) hdetails)
        rw [hd] at hj
        cases hj
        exact hjson
    simp only [Option.map_some, Option.bind_some, hloads, Option.filter_some,
      ErrorResponse.isErrorPayload_fields, if_true]

/-- The error that the caller raises means the same: code, message and details, the built-in
classes, and whether to retry. -/
structure Rebuilt.Keeps (r : Rebuilt) (e : Raised) (fields : IstosFields) : Prop where
  code : r.fields.code = fields.code
  message : r.fields.message = fields.message
  details : r.fields.details = fields.details
  classes : ∀ cls ∈ e.mro, cls.wireCode ≠ none → cls ∈ r.classes
  retryable : r.isRetryable = e.asError.isRetryable

/-- The code of a raised error says what its class, its status and `retryable` say, and what is
registered for `IstosError` answers for it. -/
structure Raised.Plain (e : Raised) (fields : IstosFields) : Prop where
  /-- another handler comes first only where it says the same -/
  response : e.schemaFirst = true →
    fields.code = .str "validation_error" ∧ fields.message = .str e.text ∧
      e.errors.written = fields.details.written
  hashable : Hashable fields.code = true
  classes : ∀ cls ∈ e.mro, ∀ k, cls.wireCode = some k → fields.code = .str k
  retryable : e.asError.isRetryable = !clientCode fields.code

/-- What is rebuilt under the code, the message and the details of the error itself keeps their
meaning just when the code says what the class and the retries say. -/
theorem Rebuilt.Under.keeps_iff {r : Rebuilt} {e : Raised} {fields : IstosFields} {details : Json}
    (hr : r.Under fields.code fields.message details) (hdetails : fields.details = .json details) :
    r.Keeps e fields ↔ (∀ cls ∈ e.mro, ∀ k, cls.wireCode = some k → fields.code = .str k) ∧
      e.asError.isRetryable = !clientCode fields.code := by
  obtain ⟨hcode, hmessage, hsame, hclasses, hretryable⟩ := hr
  constructor
  · intro hkeeps
    refine ⟨fun cls hcls k hk => ?_, hkeeps.retryable.symm.trans hretryable⟩
    have hmem : cls ∈ r.classes := hkeeps.classes cls hcls (by rw [hk]; exact Option.some_ne_none k)
    rcases (hclasses cls).mp hmem with rfl | ⟨k', hk', heq⟩
    · cases hk
    · rw [hk'] at hk
      cases hk
      exact heq
  · rintro ⟨hplain, hretry⟩
    refine ⟨hcode, hmessage, hsame.trans hdetails.symm, fun cls hcls hwire => ?_,
      hretryable.trans hretry.symm⟩
    obtain ⟨k, hk⟩ := Option.ne_none_iff_exists'.mp hwire
    exact (hclasses cls).mpr (.inr ⟨k, hk, hplain cls hcls k hk⟩)

/-- What was sent for an error whose meaning is kept. -/
theorem Rebuilt.Under.eq_of_keeps {r : Rebuilt} {e : Raised} {fields : IstosFields}
    {code message details : Json} (hr : r.Under code message details) (hkeeps : r.Keeps e fields) :
    fields.code = code ∧ fields.message = message ∧ fields.details = .json details :=
  ⟨hkeeps.code.symm.trans hr.1, hkeeps.message.symm.trans hr.2.1,
    hkeeps.details.symm.trans hr.2.2.1⟩

/-- **An error keeps its meaning across a hop** just when its code says what its class, its status
and its `retryable` say. -/
theorem error_across_hop_iff [Rounding] {e : Raised} (hvalid : e.Valid) {fields : IstosFields}
    (h : e.istos = some fields) (correlationId : Option String) :
    (∃ r, received e correlationId = some r ∧ r.Keeps e fields) ↔ e.Plain fields := by
  rw [received_eq hvalid h]
  cases hfirst : e.schemaFirst with
  | true =>
    -- the code that is sent is `validation_error`, whatever the fields are
    have hresponse : e.response fields correlationId =
        ⟨.str "validation_error", .str "validation_error", .str e.text, correlationId, e.errors⟩ :=
      if_pos hfirst
    rw [hresponse]
    cases hdetails : e.errors.details with
    | none =>
      constructor
      · rintro ⟨r, ⟨⟩, -⟩
      · intro hplain
        obtain ⟨-, -, hwritten⟩ := hplain.response hfirst
        obtain ⟨-, -, j, hj, -⟩ := hvalid.istos fields h
        rw [e.errors.written_eq, hdetails, hj] at hwritten
        cases hwritten
    | some details =>
      obtain ⟨r, hr, hunder⟩ := errorFromPayload_fields
        ⟨.str "validation_error", .str "validation_error", .str e.text, correlationId,
          e.errors⟩ details
        "internal_error" rfl
      rw [Option.bind_some, hr]
      have hwritten : e.errors.written = some (details.getD .null) := by
        rw [e.errors.written_eq, hdetails]
        rfl
      constructor
      · rintro ⟨_, ⟨⟩, hkeeps⟩
        obtain ⟨hcode, hmessage, hsame⟩ := hunder.eq_of_keeps hkeeps
        rw [← hcode, ← hmessage] at hunder
        have hplain := (hunder.keeps_iff hsame).mp hkeeps
        exact ⟨fun _ => ⟨hcode, hmessage, by rw [hwritten, hsame]; rfl⟩, by rw [hcode]; rfl,
          hplain.1, hplain.2⟩
      · intro hplain
        obtain ⟨hcode, hmessage, hsame⟩ := hplain.response hfirst
        obtain ⟨-, -, j, hj, -⟩ := hvalid.istos fields h
        rw [← hcode, ← hmessage] at hunder
        refine ⟨r, rfl, (hunder.keeps_iff ?_).mpr ⟨hplain.classes, hplain.retryable⟩⟩
        rw [hwritten, hj] at hsame
        rw [hj, Option.some.inj hsame]
  | false =>
    -- the fields are sent as they are
    have hresponse : e.response fields correlationId =
        ⟨fields.code, fields.code, fields.message, correlationId, fields.details⟩ :=
      if_neg (Bool.eq_false_iff.mp hfirst)
    obtain ⟨-, -, j, hj, -⟩ := hvalid.istos fields h
    obtain ⟨details, hdetails, hsame⟩ : ∃ d, fields.details.details = some d ∧
        d.getD .null = j := by
      rw [hj]
      cases j <;> exact ⟨_, rfl, rfl⟩
    rw [hresponse]
    dsimp only
    rw [hdetails, Option.bind_some]
    cases hhash : Hashable fields.code with
    | false =>
      -- the table of the error classes cannot be asked, and the caller raises something else
      rw [errorFromPayload_of_not_hashable _ _ _ hhash]
      constructor
      · rintro ⟨_, ⟨⟩, -⟩
      · intro hplain
        have hcontra := hplain.hashable
        rw [hhash] at hcontra
        cases hcontra
    | true =>
      obtain ⟨r, hr, hunder⟩ := errorFromPayload_fields
        ⟨fields.code, fields.code, fields.message, correlationId,
          fields.details⟩ details "internal_error"
        hhash
      rw [hr]
      rw [hsame] at hunder
      constructor
      · rintro ⟨_, ⟨⟩, hkeeps⟩
        have hplain := (hunder.keeps_iff hj).mp hkeeps
        exact ⟨fun hcontra => (by rw [hfirst] at hcontra; cases hcontra), hhash, hplain.1, hplain.2⟩
      · intro hplain
        exact ⟨r, rfl, (hunder.keeps_iff hj).mpr ⟨hplain.classes, hplain.retryable⟩⟩

/-- A `NotFoundError` of a handler. -/
def notFoundRaised : Raised :=
  ⟨[.notFound, .istos, .other "Exception"], "Resource not found", .json .null,
    some ⟨.str "Resource not found", .str "not_found", 404, none, .json .null⟩, by decide⟩

theorem error_across_hop_not_found : let _ := Rounding.verbatim
    (∃ r, received notFoundRaised (some "c1") = some r ∧
      r.Keeps notFoundRaised ⟨.str "Resource not found", .str "not_found", 404, none,
          .json .null⟩) ↔
    notFoundRaised.Plain ⟨.str "Resource not found", .str "not_found", 404, none, .json .null⟩ := by
  intro _
  have hvalid : notFoundRaised.Valid := by
    constructor
    · rintro j ⟨⟩
      trivial
    · rintro fields ⟨⟩
      exact ⟨trivial, trivial, .null, rfl, trivial⟩
  exact error_across_hop_iff hvalid rfl (some "c1")

/-- A `ReplyDecodeError` that a handler let pass. -/
def replyDecodeRaised : Raised :=
  ⟨[.replyDecode, .istos, .other "Exception"], "Reply could not be decoded", .json .null,
    some ⟨.str "Reply could not be decoded", .str "decode_error", 502, some false, .json .null⟩,
      by decide⟩

/-- The caller's side retries an error that says of itself that it is not to be retried. -/
theorem reply_decode_error_retried : let _ := Rounding.verbatim
    ¬ ∃ r, received replyDecodeRaised none = some r ∧
      r.Keeps replyDecodeRaised
        ⟨.str "Reply could not be decoded", .str "decode_error", 502, some false, .json .null⟩ := by
  intro _
  have hvalid : replyDecodeRaised.Valid := by
    constructor
    · rintro j ⟨⟩
      trivial
    · rintro fields ⟨⟩
      exact ⟨trivial, trivial, .null, rfl, trivial⟩
  rintro ⟨r, hr, hkeeps⟩
  rw [received_eq hvalid rfl none] at hr
  obtain ⟨r', hr', hunder⟩ := errorFromPayload_fields
    ⟨.str "decode_error", .str "decode_error", .str "Reply could not be decoded", none,
      .json .null⟩ none
    "internal_error" rfl
  cases hr'.symm.trans hr
  exact absurd (hunder.2.2.2.2.symm.trans hkeeps.retryable) (by decide)

end Istos
