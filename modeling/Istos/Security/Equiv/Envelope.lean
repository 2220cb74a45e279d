import Istos.Codec.Equiv.Strings
import Istos.Security.Authz

/-!
# The attachment of a request

An envelope with a correlation id or a traceparent is written as an object, and one with a token
alone as the bare token.

* `fromAttachment_fields`: an object is read back.
* `attachment_round_trip_iff`: what is written is read back, unless a bare token is itself the text
  of an envelope.
-/

namespace Istos

variable [Rounding]

/-! ### Stripping -/

omit [Rounding] in
/-- A text in braces is stripped of nothing. -/
theorem strip_of_braces {text : String} {mid : List Char}
    (h : text.toList = '{' :: (mid ++ ['}'])) :
    strip text = text.toList := by
  have hopen : isSpace '{' = false := by decide
  have hclose : isSpace '}' = false := by decide
  rw [strip, h, List.dropWhile_cons_of_neg (by simp [hopen])]
  rw [← List.cons_append, List.reverse_append, List.reverse_singleton, List.singleton_append,
    List.dropWhile_cons_of_neg (by simp [hclose]), List.reverse_cons, List.reverse_reverse]

omit [Rounding] in
theorem length_strip_le (text : String) : (strip text).length ≤ text.toList.length := by
  rw [strip, List.length_reverse]
  have houter :=
    (List.dropWhile_suffix (l := (text.toList.dropWhile isSpace).reverse) isSpace).length_le
  have hinner := (List.dropWhile_suffix (l := text.toList) isSpace).length_le
  rw [List.length_reverse] at houter
  omega

omit [Rounding] in
/-- The fields of an object end with a brace. -/
theorem moreFields_ends (fields : List (String × Json)) :
    ∃ ts, Json.moreFields fields = ts ++ [.closeObj] := by
  induction fields with
  | nil => exact ⟨[], rfl⟩
  | cons x fields ih =>
    obtain ⟨k, j⟩ := x
    obtain ⟨ts, hts⟩ := ih
    refine ⟨.comma :: .str k :: .colon :: (j.tokens ++ ts), ?_⟩
    rw [Json.moreFields, hts]
    simp only [List.cons_append, List.append_assoc]

omit [Rounding] in
/-- An object is written in braces. -/
theorem dumpsCompact_braces (fields : List (String × Json)) :
    ∃ mid, (Json.obj fields).dumpsCompact.toList = '{' :: (mid ++ ['}']) := by
  cases fields with
  | nil => exact ⟨[], rfl⟩
  | cons x fields =>
    obtain ⟨k, j⟩ := x
    obtain ⟨ts, hts⟩ := moreFields_ends fields
    refine ⟨(.str k :: .colon :: (j.tokens ++ ts)).flatMap Json.Token.compact, ?_⟩
    rw [Json.dumpsCompact, String.toList_ofList, Json.tokens, hts]
    simp only [List.flatMap_cons, List.flatMap_append, List.flatMap_nil, List.append_nil,
      List.append_assoc]
    rfl

/-! ### The object -/

/-- A text is itself that of an envelope.  As everywhere, the escape of a lone surrogate is taken
for no JSON, and a number of any length for JSON; `json.loads` does neither. -/
def ReadsAsEnvelope (text : String) : Prop :=
  (strip text).head? = some '{' ∧ (strip text).getLast? = some '}' ∧
    ∃ fields, Json.loads (String.ofList (strip text)) = some (.obj fields) ∧
      (["tok", "cid", "tp"].any fun k => (fields.lookup k).isSome) = true

namespace RequestEnvelope

/-- An object with one of the keys is read as an envelope. -/
theorem fromAttachment_of_reads {text : String} {fields : List (String × Json)}
    (hopen : (strip text).head? = some '{') (hclose : (strip text).getLast? = some '}')
    (hloads : Json.loads (String.ofList (strip text)) = some (.obj fields))
    (hany : (["tok", "cid", "tp"].any fun k => (fields.lookup k).isSome) = true) :
    fromAttachment (some (Utf8.encode text)) =
      ⟨(fields.lookup "tok").getD .null, (fields.lookup "cid").getD .null,
        (fields.lookup "tp").getD .null⟩ := by
  rw [fromAttachment, Option.bind_some, Utf8.decode_encode]
  dsimp only
  rw [if_pos ⟨hopen, hclose⟩, hloads]
  exact if_pos hany

/-- Any other text is a token. -/
theorem fromAttachment_of_not_reads {text : String} (h : ¬ ReadsAsEnvelope text) :
    fromAttachment (some (Utf8.encode text)) = ⟨.str text, .null, .null⟩ := by
  rw [fromAttachment, Option.bind_some, Utf8.decode_encode]
  dsimp only
  by_cases hbraces : (strip text).head? = some '{' ∧ (strip text).getLast? = some '}'
  · rw [if_pos hbraces]
    cases hloads : Json.loads (String.ofList (strip text)) with
    | none => rfl
    | some j =>
      cases j with
      | obj fields =>
        refine if_neg fun hany => h ?_
        exact ⟨hbraces.1, hbraces.2, fields, hloads, hany⟩
      | _ => rfl
  · rw [if_neg hbraces]

/-- **An object is read back.** -/
theorem fromAttachment_fields (token correlationId traceparent : Option String)
    (h : ¬ (correlationId = none ∧ traceparent = none)) :
    fromAttachment
        (some (Utf8.encode (Json.obj (fields token correlationId traceparent)).dumpsCompact)) =
      ofStrings token correlationId traceparent := by
  obtain ⟨mid, hmid⟩ := dumpsCompact_braces (fields token correlationId traceparent)
  have hstrip := strip_of_braces hmid
  have hvalid : (Json.obj (fields token correlationId traceparent)).Valid := by
    cases token <;> cases correlationId <;> cases traceparent <;>
      exact ⟨by simp [fields], by simp [fields, Json.ValidFields, Json.Valid]⟩
  have hloads : Json.loads (String.ofList
      (strip (Json.obj (fields token correlationId traceparent)).dumpsCompact)) =
        some (.obj (fields token correlationId traceparent)) := by
    rw [hstrip, String.ofList_toList]
    exact Json.loads_dumpsCompact hvalid
  rw [fromAttachment_of_reads (by rw [hstrip, hmid]; rfl) ?_ hloads ?_]
  · cases token <;> cases correlationId <;> cases traceparent <;> rfl
  · rw [hstrip, hmid, ← List.cons_append, List.getLast?_append]
    rfl
  · cases token <;> cases correlationId <;> cases traceparent <;>
      first | rfl | exact absurd ⟨rfl, rfl⟩ h

/-- A token that is itself the text of an envelope is not read back: the token in it is shorter. -/
theorem fromAttachment_ne_of_reads {text : String} (h : ReadsAsEnvelope text) :
    fromAttachment (some (Utf8.encode text)) ≠ ofStrings (some text) none none := by
  obtain ⟨hopen, hclose, fields, hloads, hany⟩ := h
  rw [fromAttachment_of_reads hopen hclose hloads hany]
  intro heq
  have htoken : (fields.lookup "tok").getD .null = .str text := congrArg RequestEnvelope.token heq
  cases hlookup : fields.lookup "tok" with
  | none =>
    rw [hlookup] at htoken
    cases htoken
  | some j =>
    rw [hlookup] at htoken
    obtain rfl : j = .str text := htoken
    have hmem : ("tok", Json.str text) ∈ fields := by
      rw [List.lookup_eq_some_iff] at hlookup
      obtain ⟨before, after, rfl, -⟩ := hlookup
      exact List.mem_append_right _ List.mem_cons_self
    have hlt := Json.length_lt_of_loads_field hloads hmem
    rw [String.toList_ofList] at hlt
    have hle := length_strip_le text
    omega

end RequestEnvelope

/-- **The attachment of an envelope is read back** just when it is no bare token that is itself the
text of an envelope. -/
theorem attachment_round_trip_iff (token correlationId traceparent : Option String) :
    RequestEnvelope.fromAttachment (RequestEnvelope.toAttachment token correlationId traceparent) =
        .ofStrings token correlationId traceparent ↔
      (correlationId = none → traceparent = none → ∀ text, token = some text →
          ¬ ReadsAsEnvelope text) := by
  -- a token alone is sent as it is, and anything more as a JSON object
  by_cases hbare : correlationId = none ∧ traceparent = none
  · obtain ⟨rfl, rfl⟩ := hbare
    have hattachment : RequestEnvelope.toAttachment token none none = token.map Utf8.encode :=
      if_pos ⟨rfl, rfl⟩
    rw [hattachment]
    cases token with
    | none =>
      constructor
      · rintro - - - text ⟨⟩
      · intro _
        rfl
    | some text =>
      constructor
      · rintro hsame - - _ ⟨⟩ hreads
        exact RequestEnvelope.fromAttachment_ne_of_reads hreads hsame
      · intro hno
        exact RequestEnvelope.fromAttachment_of_not_reads (hno rfl rfl text rfl)
  · have hattachment : RequestEnvelope.toAttachment token correlationId traceparent =
        some (Utf8.encode
          (Json.obj (RequestEnvelope.fields token correlationId traceparent)).dumpsCompact) :=
      if_neg hbare
    rw [hattachment]
    constructor
    · intro _ hcid htp
      exact absurd ⟨hcid, htp⟩ hbare
    · intro _
      exact RequestEnvelope.fromAttachment_fields token correlationId traceparent hbare

omit [Rounding] in
/-- A bare token that is itself an envelope sets another token and a correlation id. -/
theorem token_read_as_envelope : let _ := Rounding.verbatim
    RequestEnvelope.fromAttachment
        (RequestEnvelope.toAttachment (some "\x7b\"tok\":\"admin\",\"cid\":\"c1\"\x7d") none none) ≠
      .ofStrings (some "\x7b\"tok\":\"admin\",\"cid\":\"c1\"\x7d") none none := by
  intro _
  refine RequestEnvelope.fromAttachment_ne_of_reads ?_
  have hfields : "\x7b\"tok\":\"admin\",\"cid\":\"c1\"\x7d" =
      (Json.obj [("tok", .str "admin"), ("cid", .str "c1")]).dumpsCompact := by decide
  obtain ⟨mid, hmid⟩ := dumpsCompact_braces [("tok", .str "admin"), ("cid", .str "c1")]
  have hstrip := strip_of_braces hmid
  rw [hfields]
  refine ⟨by rw [hstrip, hmid]; rfl, ?_, [("tok", .str "admin"), ("cid", .str "c1")], ?_, rfl⟩
  · rw [hstrip, hmid, ← List.cons_append, List.getLast?_append]
    rfl
  · rw [hstrip, String.ofList_toList]
    exact Json.loads_dumpsCompact ⟨by decide, trivial, trivial, trivial⟩

end Istos
