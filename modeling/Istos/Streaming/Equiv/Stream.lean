import Istos.Middleware.Equiv.Stack
import Istos.Primitives.Equiv.Errors
import Istos.Streaming.Equiv.Bridge
import Istos.Streaming.Stream

/-!
# A stream from its generator to its caller

* `onQuery_log`: whatever the authorizer, the dependencies, the middlewares and the generator do, a
  query is answered by the chunks that were yielded, in their order, then by at most one error, and
  then it is dropped, once; and the context of the task is the one that the authorizer has left, or,
  where it refuses, the one that the exception handlers have left.
* `stream_end_to_end`: in every interleaving of its threads, a caller that reads a JSON stream to
  the end is given just the chunks that were yielded, up to the first that reads as an error, and
  ends with that error, with the one that was raised, or normally.
-/

namespace Istos

open MiddlewareStack

variable {F H O P W : Type}

namespace StreamWrapper

variable (s : StreamWrapper F H O P W) (q : StreamQuery)

/-- What one run of `_drive` logs: each chunk is followed by its reply, but for a last one that
cannot be written or sent. -/
inductive Driven : List StreamEvent → Prop
  | ended : Driven []
  | lost {chunk : PyValue} :
      (∀ payload, s.serialize chunk = .ok payload →
        ∃ before x, q.reply before payload = .raises false x) → Driven [.yielded chunk]
  | sent {chunk : PyValue} {payload : Bytes} {events : List StreamEvent} :
      s.serialize chunk = .ok payload → Driven events →
      Driven (.yielded chunk :: .replied payload :: events)

/-! ### One run of the generator -/

/-- **The loop replies chunk by chunk**. -/
theorem driven_driveFrom (before : List StreamEvent) (gen : AsyncGenerator P W) (t : Task P W)
    (now : List StreamEvent) :
    ∃ events, s.Driven q events ∧ (s.driveFrom q before gen t now).2.2 = now ++ events := by
  induction gen generalizing t now with
  | done ending =>
    refine ⟨[], .ended, ?_⟩
    cases ending <;> simp [driveFrom]
  | look next ih => exact ih t t now
  | put t' next ih => exact ih t' now
  | ask chunk next ih =>
    rw [driveFrom]
    cases hpayload : s.serialize chunk with
    | error x =>
      refine ⟨[.yielded chunk], .lost fun payload h => ?_, rfl⟩
      rw [hpayload] at h
      cases h
    | ok payload =>
      dsimp only
      cases hreply : q.reply (replies (before ++ (now ++ [.yielded chunk]))) payload with
      | returns =>
        obtain ⟨events, hevents, hlater⟩ := ih .next t
          (now ++ [.yielded chunk] ++ [.replied payload])
        refine ⟨.yielded chunk :: .replied payload :: events, .sent hpayload hevents, ?_⟩
        simpa [ReplyEnd.sent] using hlater
      | raises sent x =>
        cases sent with
        | false =>
          refine ⟨[.yielded chunk], .lost fun payload' h => ?_, rfl⟩
          obtain rfl := Except.ok.inj (hpayload.symm.trans h)
          exact ⟨_, x, hreply⟩
        | true =>
          exact ⟨[.yielded chunk, .replied payload], .sent hpayload .ended, by simp [ReplyEnd.sent]⟩

theorem driven_drive (kwargs : Kwargs F String O) (scope : Scope) (t : Task P W)
    (before : List StreamEvent) : s.Driven q (s.drive q kwargs scope t before).2.2 := by
  unfold drive
  split_ifs
  · obtain ⟨events, hevents, hsame⟩ := s.driven_driveFrom q before (s.generate kwargs) t []
    rw [hsame]
    exact hevents
  · exact .ended

/-- Runs of the generator, one after the other. -/
def Runs (events : List StreamEvent) : Prop :=
  ∃ runs : List (List StreamEvent), (∀ run ∈ runs, s.Driven q run) ∧ events = runs.flatten

theorem runs_nil : s.Runs q [] := ⟨[], by simp, rfl⟩

/-- Within any middlewares, what happens are runs of the generator. -/
theorem runs_runMiddlewares (params : Params) (ctx : RequestContext P)
    (kwargs : Kwargs F String O) (t : Task P W) :
    s.Runs q (s.runMiddlewares q params ctx kwargs t).2.2 := by
  unfold runMiddlewares
  cases s.middleware with
  | none =>
    exact ⟨[_], List.forall_mem_singleton.mpr (s.driven_drive q kwargs _ t []),
      (List.append_nil _).symm⟩
  | some ms =>
    obtain ⟨segment, hgood, hlog⟩ := did_dispatch (G := s.Driven q) .ended
      (s.driven_drive q kwargs) ms ⟨s.path, "stream", params, t.contexts.length⟩ _ []
    refine ⟨segment.map Event.did, ?_, ?_⟩
    · simpa using hgood
    · refine (congrArg did hlog).trans ?_
      rw [List.nil_append, did, List.flatMap_def]

variable [DecidableEq F]

theorem runs_serve (params : Params) (ctx : RequestContext P) (t : Task P W) :
    s.Runs q (s.serve q params ctx t).2.2 := by
  unfold serve
  split
  · exact s.runs_nil q
  · split
    · exact s.runs_nil q
    · dsimp only
      split
      · exact s.runs_nil q
      · exact s.runs_runMiddlewares q params ctx _ t

theorem runs_attempt [Rounding] (t : Task P W) : s.Runs q (s.attempt q t).events := by
  unfold attempt
  split
  · exact s.runs_nil q
  · exact s.runs_serve q _ _ _

/-! ### The error -/

omit [DecidableEq F] in
/-- A reply is the envelope of an exception. -/
def ErrorReply (payload : Bytes) : Prop :=
  ∃ e correlationId v, envelope s.registry e correlationId = .ok v ∧ s.serialize v = .ok payload

omit [DecidableEq F] in
/-- An exception is answered by at most one reply, and by none where the registry raises. -/
theorem replyError_log (e : Raised) (t : Task P W) (events : List StreamEvent) :
    ∃ error : List Bytes, error.length ≤ 1 ∧ (∀ payload ∈ error, s.ErrorReply payload) ∧
      (s.replyError q e t events).2.2 = events ++ error.map .replied ∧
      ∀ x, (s.replyError q e t events).1 = .error (.exception x) → error = [] := by
  have hnone : events = events ++ ([] : List Bytes).map .replied := (List.append_nil events).symm
  unfold replyError
  dsimp only
  cases hv : envelope s.registry e ((s.resolving e t).peek.map (·.correlationId)) with
  | error x => exact ⟨[], Nat.zero_le 1, by simp, hnone, fun _ _ => rfl⟩
  | ok v =>
    dsimp only
    cases hpayload : s.serialize v with
    | error x => cases x <;> exact ⟨[], Nat.zero_le 1, by simp, hnone, fun _ _ => rfl⟩
    | ok payload =>
      have hone : ∀ p ∈ [payload], s.ErrorReply p :=
        List.forall_mem_singleton.mpr ⟨e, _, v, hv, hpayload⟩
      dsimp only
      cases q.reply (replies events) payload with
      | returns => exact ⟨[payload], le_refl 1, hone, rfl, fun _ hx => by cases hx⟩
      | raises sent x =>
        cases sent with
        | false => cases x <;> exact ⟨[], Nat.zero_le 1, by simp, hnone, fun _ _ => rfl⟩
        | true => cases x <;> exact ⟨[payload], le_refl 1, hone, rfl, fun _ hx => by cases hx⟩

omit [DecidableEq F] in
theorem answer_log (result : Except Thrown Unit) (t : Task P W) (events : List StreamEvent) :
    ∃ error : List Bytes, error.length ≤ 1 ∧ (∀ payload ∈ error, s.ErrorReply payload) ∧
      (s.answer q result t events).2.2 = events ++ error.map .replied ∧
      (result = .ok () → error = []) ∧
      ∀ x, (s.answer q result t events).1 = .error (.exception x) → error = [] := by
  rcases result with (e | -) | -
  · obtain ⟨error, hlength, hreply, hlog, hraises⟩ := s.replyError_log q e t events
    exact ⟨error, hlength, hreply, hlog, (fun h => nomatch h), hraises⟩
  · exact ⟨[], Nat.zero_le 1, by simp, (List.append_nil events).symm, fun _ => rfl, fun _ _ => rfl⟩
  · exact ⟨[], Nat.zero_le 1, by simp, (List.append_nil events).symm, fun _ => rfl, fun _ _ => rfl⟩

omit [DecidableEq F] in
/-- **At most one error is sent**, also where what answers the first one raises. -/
theorem conclude_log (result : Except Failure Unit) (t : Task P W) (events : List StreamEvent) :
    ∃ error : List Bytes, error.length ≤ 1 ∧ (∀ payload ∈ error, s.ErrorReply payload) ∧
      (s.conclude q result t events).2.2 = events ++ error.map .replied ∧
      (result = .ok () → error = []) := by
  rcases result with ⟨x, caught⟩ | -
  · cases caught with
    | false =>
      obtain ⟨error, hlength, hreply, hlog, -⟩ := s.answer_log q (.error x) t events
      exact ⟨error, hlength, hreply, hlog, fun h => nomatch h⟩
    | true =>
      obtain ⟨error, hlength, hreply, hlog, -, hraises⟩ := s.answer_log q (.error x) t events
      have hconclude : s.conclude q (.error ⟨x, true⟩) t events =
        s.answer q (s.answer q (.error x) t events).1 (s.answer q (.error x) t events).2.1
          (s.answer q (.error x) t events).2.2 := rfl
      rw [hconclude]
      rcases hinner : (s.answer q (.error x) t events).1 with (y | -) | -
      · -- the registry raised, and so nothing was sent
        obtain rfl := hraises y hinner
        obtain ⟨error', hlength', hreply', hlog', -⟩ :=
          s.answer_log q (.error (.exception y)) (s.answer q (.error x) t events).2.1
            (s.answer q (.error x) t events).2.2
        refine ⟨error', hlength', hreply', ?_, fun h => nomatch h⟩
        rw [hlog', hlog, List.map_nil, List.append_nil]
      · exact ⟨error, hlength, hreply, hlog, fun h => nomatch h⟩
      · exact ⟨error, hlength, hreply, hlog, fun h => nomatch h⟩
  · exact ⟨[], Nat.zero_le 1, by simp, (List.append_nil events).symm, fun _ => rfl⟩

/-! ### The context variable -/

/-- The authorizer and the exception handlers leave the context variable as it is. -/
structure LeavesContext : Prop where
  authorizer : ∀ a, s.authorizer = some a → ∀ ctx t, (a ctx t).2.current = t.current
  resolving : ∀ e t, (s.resolving e t).current = t.current

variable {s}

omit [DecidableEq F] in
theorem LeavesContext.authorize (h : s.LeavesContext) (t : Task P W) :
    (s.authorize q t).2.current = t.current := by
  unfold StreamWrapper.authorize
  cases ha : s.authorizer with
  | none => rfl
  | some a => exact h.authorizer a ha _ t

omit [DecidableEq F] in
theorem LeavesContext.answer (h : s.LeavesContext) (result : Except Thrown Unit) (t : Task P W)
    (events : List StreamEvent) : (s.answer q result t events).2.1.current = t.current := by
  rcases result with (e | -) | -
  · have htask : (s.replyError q e t events).2.1 = s.resolving e t := by
      unfold replyError
      dsimp only
      split
      · rfl
      · split
        · rfl
        · rfl
        · split
          · rfl
          · rfl
    exact (congrArg Task.current htask).trans (h.resolving e t)
  · rfl
  · rfl

omit [DecidableEq F] in
theorem LeavesContext.conclude (h : s.LeavesContext) (result : Except Failure Unit) (t : Task P W)
    (events : List StreamEvent) : (s.conclude q result t events).2.1.current = t.current := by
  rcases result with ⟨x, caught⟩ | -
  · cases caught with
    | false => exact h.answer q (.error x) t events
    | true => exact (h.answer q _ _ _).trans (h.answer q (.error x) t events)
  · rfl

variable (s)

/-- A query that the authorizer lets in is served in a context that is popped in the end. -/
theorem current_onQuery_of_ok [Rounding] {t : Task P W} {principal : Option P}
    (h : (s.authorize q t).1 = .ok principal) :
    (s.onQuery q t).2.1.current = (s.authorize q t).2.current := by
  have htoken : (s.attempt q t).token = some (s.authorize q t).2.current := by
    unfold attempt
    split
    · rename_i e t' hauthorize
      rw [hauthorize] at h
      cases h
    · rename_i principal' t' hauthorize
      rw [hauthorize]
  unfold onQuery
  dsimp only
  rw [htoken]
  rfl

/-- Where nobody touches it, the context variable is as before. -/
theorem LeavesContext.current_onQuery [Rounding] (h : s.LeavesContext) (t : Task P W) :
    (s.onQuery q t).2.1.current = t.current := by
  rcases hauthorize : (s.authorize q t).1 with e | principal
  · have hattempt : (s.attempt q t).token = none ∧
        (s.attempt q t).task = (s.authorize q t).2 := by
      unfold attempt
      split
      · rename_i e' t' heq
        rw [heq]
        exact ⟨rfl, rfl⟩
      · rename_i principal t' heq
        rw [heq] at hauthorize
        cases hauthorize
    unfold onQuery
    dsimp only
    rw [hattempt.1]
    exact (h.conclude q _ _ _).trans (hattempt.2 ▸ h.authorize q t)
  · exact (s.current_onQuery_of_ok q hauthorize).trans (h.authorize q t)

/-- **What a query is answered**: the chunks, then at most one error, and then it is dropped.  The
context variable is what the authorizer that let the query in has left, and what it was where
neither an authorizer nor an exception handler touches it. -/
theorem onQuery_log [Rounding] (t : Task P W) :
    ∃ events, ∃ error : List Bytes, s.Runs q events ∧ error.length ≤ 1 ∧
      (∀ payload ∈ error, s.ErrorReply payload) ∧
      ((s.attempt q t).result = .ok () → error = []) ∧
      (s.onQuery q t).2.2 = events ++ error.map .replied ++ [.dropped] ∧
      (∀ principal, (s.authorize q t).1 = .ok principal →
        (s.onQuery q t).2.1.current = (s.authorize q t).2.current) ∧
      (s.LeavesContext → (s.onQuery q t).2.1.current = t.current) := by
  obtain ⟨error, hlength, hreply, hlog, hok⟩ :=
    s.conclude_log q (s.attempt q t).result (s.attempt q t).task (s.attempt q t).events
  refine ⟨(s.attempt q t).events, error, s.runs_attempt q t, hlength, hreply, hok, ?_,
    fun principal h => s.current_onQuery_of_ok q h, fun h => h.current_onQuery s q t⟩
  exact congrArg (· ++ [StreamEvent.dropped]) hlog

/-! ### From end to end -/

end StreamWrapper

/-- The chunks that were yielded. -/
def StreamEvent.chunk : StreamEvent → Option PyValue
  | yielded chunk => some chunk
  | _ => none

/-- What `json` writes of the chunks that were yielded. -/
def writtenChunks (events : List StreamEvent) : List Json :=
  (events.filterMap StreamEvent.chunk).filterMap PyValue.written

/-- A reply of JSON. -/
def jsonReply (j : Json) : Bytes := Utf8.encode j.dumps

/-- What a caller that reads to the end is given of values, and how it ends. -/
def callerReads {E : Type} (js : List Json) : List Json × StreamEnding E ChunkFault :=
  (js.takeWhile fun j => !isErrorPayload j,
    match js.find? isErrorPayload with
    | some j => .refused (.refused (errorFromPayload j "stream_error"))
    | none => .returned)

theorem delivered_json [Rounding] {E : Type} {js : List Json} (hvalid : ∀ j ∈ js, j.Valid) :
    delivered (E := E) readChunk none (js.map jsonReply) = callerReads js := by
  induction js with
  | nil => rfl
  | cons j js ih =>
    have hread : readChunk (jsonReply j) =
        if isErrorPayload j then .error (.refused (errorFromPayload j "stream_error"))
          else .ok j := by
      rw [readChunk, jsonReply, Utf8.decode_encode, Option.bind_some,
        Json.loads_dumps (hvalid j List.mem_cons_self)]
    have hlater := ih fun j hj => hvalid j (List.mem_cons_of_mem _ hj)
    rw [List.map_cons, delivered, hread, callerReads]
    by_cases herror : isErrorPayload j = true
    · simp [herror]
    · simp [herror, hlater, callerReads]

/-- A response with the correlation id of the current context. -/
def Task.stamped (t : Task P W) (r : ErrorResponse) : ErrorResponse :=
  { r with correlationId := t.peek.map RequestContext.correlationId }

namespace StreamWrapper

variable (s : StreamWrapper F H O P W) (q : StreamQuery)

/-- The stream is sent as JSON, and nothing is lost on the way. -/
structure Clean : Prop where
  json : s.serialize = jsonSerialize
  replies : ∀ before payload, q.reply before payload = .returns

variable {s q}

/-- What was sent of a run are its chunks. -/
theorem Clean.replies_driven (h : s.Clean q) {events : List StreamEvent}
    (hrun : s.Driven q events) :
    Istos.replies events = (writtenChunks events).map jsonReply := by
  induction hrun with
  | ended => rfl
  | @lost chunk hlost =>
    -- it is lost just where it cannot be written
    cases hwritten : chunk.written with
    | none => simp [Istos.replies, StreamEvent.reply, writtenChunks, StreamEvent.chunk, hwritten]
    | some j =>
      obtain ⟨before, x, hreply⟩ := hlost (jsonReply j) (by
        rw [h.json, jsonSerialize, hwritten]
        rfl)
      rw [h.replies] at hreply
      cases hreply
  | @sent chunk payload events hpayload _ ih =>
    rw [h.json, jsonSerialize] at hpayload
    cases hwritten : chunk.written with
    | none =>
      rw [hwritten] at hpayload
      cases hpayload
    | some j =>
      rw [hwritten] at hpayload
      obtain rfl := Except.ok.inj hpayload
      have hreplies : Istos.replies (.yielded chunk :: .replied (Utf8.encode j.dumps) :: events) =
        Utf8.encode j.dumps :: Istos.replies events := rfl
      have hchunks : writtenChunks (.yielded chunk :: .replied (Utf8.encode j.dumps) :: events) =
          j :: writtenChunks events := List.filterMap_cons_some hwritten
      rw [hreplies, hchunks, List.map_cons, ih, jsonReply]

theorem Clean.replies_runs (h : s.Clean q) {events : List StreamEvent} (hruns : s.Runs q events) :
    Istos.replies events = (writtenChunks events).map jsonReply := by
  obtain ⟨runs, hdriven, rfl⟩ := hruns
  induction runs with
  | nil => rfl
  | cons run runs ih =>
    have hrun := h.replies_driven (hdriven run List.mem_cons_self)
    have hlater := ih fun run hrun => hdriven run (List.mem_cons_of_mem _ hrun)
    simp only [Istos.replies, writtenChunks, List.flatten_cons, List.filterMap_append,
      List.map_append] at hrun hlater ⊢
    rw [hrun, hlater]

/-- The replies of an error. -/
theorem replies_toList (error : Option Json) :
    Istos.replies (error.toList.map fun j => .replied (jsonReply j)) =
      error.toList.map jsonReply := by
  cases error <;> rfl

/-- An error that can be written is sent. -/
theorem Clean.answer_log (h : s.Clean q) (e : Raised) (t : Task P W) (events : List StreamEvent)
    {r : ErrorResponse} (hr : s.registry.resolve e = .ok r) :
    s.answer q (.error (.exception e)) t events =
      (.ok (), s.resolving e t, events ++
        ((s.resolving e t).stamped r).toDict.written.toList.map fun j =>
          .replied (jsonReply j)) := by
  have henvelope : envelope s.registry e ((s.resolving e t).peek.map (·.correlationId)) =
      .ok ((s.resolving e t).stamped r).toDict := by
    rw [envelope, hr]
    rfl
  rw [answer, replyError, henvelope, h.json]
  dsimp only
  rw [jsonSerialize]
  cases ((s.resolving e t).stamped r).toDict.written with
  | none => simp
  | some j =>
    dsimp only
    rw [h.replies]
    rfl

variable (s q)
variable [DecidableEq F] [Rounding]

/-- What was raised in answering the query. -/
def raised (t : Task P W) : Option Raised :=
  match (s.attempt q t).result with
  | .error ⟨.exception e, _⟩ => some e
  | _ => none

/-- What `json` writes of its envelope. -/
def errorJson (t : Task P W) : Option Json :=
  (s.raised q t).bind fun e =>
    match s.registry.resolve e with
    | .ok r => ((s.resolving e (s.attempt q t).task).stamped r).toDict.written
    | .error _ => none

variable {s q}

/-- **The replies to a query**: the chunks, then the error. -/
theorem Clean.replies_onQuery (h : s.Clean q) (t : Task P W)
    (hresolve : ∀ e ∈ s.raised q t, ∃ r, s.registry.resolve e = .ok r) :
    Istos.replies (s.onQuery q t).2.2 =
      (writtenChunks (s.attempt q t).events ++ (s.errorJson q t).toList).map jsonReply := by
  have hruns := h.replies_runs (s.runs_attempt q t)
  have hdropped : Istos.replies (s.onQuery q t).2.2 = Istos.replies
      (s.conclude q (s.attempt q t).result (s.attempt q t).task (s.attempt q t).events).2.2 := by
    show Istos.replies (_ ++ [.dropped]) = _
    rw [Istos.replies, List.filterMap_append]
    exact List.append_nil _
  rw [hdropped, List.map_append, ← hruns]
  unfold errorJson raised at *
  rcases hattempt : (s.attempt q t).result with ⟨x, caught⟩ | -
  · cases x with
    | exception e =>
      rw [hattempt] at hresolve
      obtain ⟨r, hr⟩ := hresolve e rfl
      have hanswer := h.answer_log e (s.attempt q t).task (s.attempt q t).events hr
      -- what is answered where it is raised raises nothing more
      have hconclude : (s.conclude q (.error ⟨.exception e, caught⟩) (s.attempt q t).task
          (s.attempt q t).events).2.2 = (s.answer q (.error (.exception e)) (s.attempt q t).task
            (s.attempt q t).events).2.2 := by
        cases caught with
        | false => rfl
        | true =>
          simp only [conclude, if_true]
          rw [hanswer]
          rfl
      rw [hconclude, hanswer, ← replies_toList]
      simp only [Option.bind_some, hr]
      exact List.filterMap_append
    | exit => cases caught <;> exact (List.append_nil _).symm
  · exact (List.append_nil _).symm

end StreamWrapper

open StreamWrapper

/-- **From the generator to the caller**: in every interleaving of the caller's threads, it is given
a beginning of the chunks, and unless it closes all of them, up to the first that reads as an error,
and then that error, or the one that was raised, or the end. -/
theorem stream_end_to_end [DecidableEq F] [Rounding] {s : StreamWrapper F H O P W}
    {q : StreamQuery} (h : s.Clean q) (t : Task P W)
    (hresolve : ∀ e ∈ s.raised q t, ∃ r, s.registry.resolve e = .ok r)
    (hchunks : ∀ j ∈ writtenChunks (s.attempt q t).events, j.Valid)
    (herror : ∀ j ∈ s.errorJson q t, j.Valid) {E : Type} (as : List (BridgeAction E))
    (b : Bridge Bytes E Json ChunkFault)
    (hrun : Steps.run (Bridge.step bridgeSize readChunk)
      (Bridge.init (replies (s.onQuery q t).2.2) none) as = some b) :
    let js := writtenChunks (s.attempt q t).events ++ (s.errorJson q t).toList
    b.yielded <+: (callerReads (E := E) js).1 ∧
      ∀ e, b.ending = some e → e = .closed ∨ (b.yielded, e) = callerReads js := by
  intro js
  have hsound := Bridge.sound_run (by decide) hrun
  have hdelivered : delivered (E := E) readChunk none (replies (s.onQuery q t).2.2) =
      callerReads js := by
    rw [h.replies_onQuery t hresolve]
    refine delivered_json fun j hj => ?_
    rcases List.mem_append.mp hj with hj | hj
    · exact hchunks j hj
    · exact herror j (Option.mem_toList.mp hj)
  cases hstop : b.stop with
  | false =>
    -- the caller has not left its loop
    refine ⟨hdelivered ▸ (hsound.kept hstop).isPrefix, fun e he => ?_⟩
    rw [hsound.unended hstop] at he
    cases he
  | true =>
    rcases hsound.ended hstop with ⟨hending, hstart⟩ | ⟨hending, hall⟩
    · refine ⟨hdelivered ▸ hstart, fun e he => .inl ?_⟩
      exact (Option.some.inj (hending.symm.trans he)).symm
    · rw [hdelivered] at hending hall
      refine ⟨hall ▸ List.prefix_refl _, fun e he => .inr ?_⟩
      rw [hall, ← Option.some.inj (hending.symm.trans he)]

/-- A stream of two letters. -/
def letters : StreamWrapper Unit Unit Unit Unit Unit where
  signature _ := ⟨[], some [], List.nodup_nil, by simp⟩
  run _ _ := .ok ()
  override f := f
  verb := .stream
  func := ()
  py := ⟨false, fun _ => false, fun _ _ => .ok (), fun _ _ _ => .ok []⟩
  bindable := by simp
  path := "letters"
  serialize := jsonSerialize
  authorizer := none
  registry := .default
  resolving _ t := t
  middleware := none
  kind _ := .plain
  bodies := ⟨fun _ _ _ => .ok (), fun _ _ => .returned, fun _ _ _ => none⟩
  generate _ := .ask (.json (.str "a")) fun _ => .ask (.json (.str "b")) fun _ => .done .returned
  recursionLimit := 9
  uuid _ := 0
  stream := rfl

/-- A query to it, whose replies all go out. -/
def lettersQuery : StreamQuery := ⟨"letters", [], none, fun _ _ => .returns⟩

/-- A run to the end is given both letters. -/
theorem stream_end_to_end_letters : let _ := Rounding.verbatim
    ∃ as, ∃ b : Bridge Bytes String Json ChunkFault,
      Steps.run (Bridge.step bridgeSize readChunk)
        (Bridge.init (replies (letters.onQuery lettersQuery ⟨[], none, ()⟩).2.2) none) as = some b ∧
      b.Done ∧ b.yielded <+: [.str "a", .str "b"] ∧
      ∀ e, b.ending = some e → e = .closed ∨
        (b.yielded, e) = ([.str "a", .str "b"], .returned) := by
  intro _
  have hclean : letters.Clean lettersQuery := ⟨rfl, fun _ _ => rfl⟩
  obtain ⟨as, b, hrun, hdone⟩ := (Bridge.sound_init bridgeSize readChunk
    (replies (letters.onQuery lettersQuery ⟨[], none, ()⟩).2.2) (none : Option String)).exists_done
      (by decide)
  have hread := stream_end_to_end hclean ⟨[], none, ()⟩ (fun e he => nomatch he)
    (by
      have hchunks : writtenChunks (letters.attempt lettersQuery ⟨[], none, ()⟩).events =
        [.str "a", .str "b"] := rfl
      rw [hchunks]
      simp [Json.Valid])
    (fun j hj => nomatch hj) as b hrun
  exact ⟨as, b, hrun, hdone, hread⟩

end Istos
