import Istos.Data.Ending
import Istos.Testing.Equiv.Recording
import Mathlib.Algebra.GroupWithZero.Nat

/-!
# A recording replays as it was

* `replay_diff`: a replay of a recording never runs out of completions and can always be brought to
  its end; there nothing differs but the catalogue, and it differs just when the loop was offered a
  tool that the recorded run never called.

The replay cuts the recorded completions into passes where the recording did, whatever its gate
says, since no pass begins with another one.  A stub is never asked more often than its tool was.
-/

namespace Istos

/-! ### The stubs of a replay -/

namespace Trajectory

variable (traj : Trajectory)

/-- The outcomes of a name, in their order. -/
theorem queued_get? (name : String) :
    (traj.queued.get? name).elim [] Prod.snd = traj.tools.filter fun o => o.name = name := by
  unfold queued
  induction traj.tools using List.reverseRecOn with
  | nil => rfl
  | append_singleton tools o ih =>
    rw [List.foldl_concat, Table.get?_put, List.filter_append]
    by_cases hname : name = o.name
    · subst hname
      rw [if_pos rfl, List.filter_cons_of_pos (by simp), List.filter_nil]
      exact congrArg (· ++ [o]) ih
    · rw [if_neg hname, List.filter_cons_of_neg (by simpa using fun h => hname h.symm),
        List.filter_nil, List.append_nil]
      exact ih

theorem mem_queued_keys {name : String} : name ∈ traj.queued.keys ↔ name ∈ traj.toolNames := by
  rw [Table.mem_keys_iff]
  unfold queued toolNames
  induction traj.tools using List.reverseRecOn with
  | nil => simp
  | append_singleton tools o ih =>
    rw [List.foldl_concat, List.map_append, List.mem_append, ← ih]
    simp only [Table.get?_put]
    by_cases hname : name = o.name
    · simp [hname]
    · simp [hname]

theorem canned_eq (name : String) :
    traj.canned name = (traj.tools.filter fun o => o.name = name).map ToolOutcome.content := by
  rw [canned, queued_get?]

/-- A stub has as many texts as there are calls of its name. -/
theorem length_canned (name : String) : (traj.canned name).length = traj.toolNames.count name := by
  rw [canned_eq, List.length_map, toolNames, List.count_eq_countP, List.countP_map,
    List.countP_eq_length_filter]
  rfl

/-- A recorded name has its stub. -/
theorem byName_replayTools {name : String} (hname : name ∈ traj.toolNames) :
    byName traj.replayTools name = some ⟨name, .flag (traj.requested.contains (some name))⟩ := by
  have hmem : (⟨name, .flag (traj.requested.contains (some name))⟩ : MeshTool) ∈ traj.replayTools :=
    List.mem_map.mpr ⟨name, traj.mem_queued_keys.mpr hname, rfl⟩
  unfold byName
  cases hfind : traj.replayTools.reverse.find? fun t => decide (t.name = name) with
  | none =>
    have hno := List.find?_eq_none.mp hfind _ (List.mem_reverse.mpr hmem)
    simp at hno
  | some tool =>
    have htool := List.mem_reverse.mp (List.mem_of_find?_eq_some hfind)
    obtain ⟨key, -, rfl⟩ := List.mem_map.mp htool
    have hkey : key = name := by simpa using List.find?_some hfind
    rw [hkey]

/-- A replay asks a human about the tools that the recorded human was asked about. -/
theorem gated_replayLoop (maxSteps : ℕ) (maxMessages : Option ℕ) (approvals : Bool) {tc : ToolCall}
    (htc : tc.name ∈ traj.toolNames) :
    (traj.replayLoop maxSteps maxMessages approvals).gated tc
      = decide (some tc.name ∈ traj.requested) := by
  show ((byName traj.replayTools tc.name).any MeshTool.requiresApproval &&
    (approvals || traj.replayTools.any MeshTool.requiresApproval)) = _
  rw [traj.byName_replayTools htc]
  by_cases hrequested : some tc.name ∈ traj.requested
  · have hany : traj.replayTools.any MeshTool.requiresApproval = true := by
      refine List.any_eq_true.mpr ⟨⟨tc.name, .flag (traj.requested.contains (some tc.name))⟩,
        List.mem_map.mpr ⟨tc.name, traj.mem_queued_keys.mpr htc, rfl⟩, ?_⟩
      simp [MeshTool.requiresApproval, hrequested]
    simp [MeshTool.requiresApproval, hrequested, hany]
  · simp [MeshTool.requiresApproval, hrequested]

end Trajectory

/-! ### The texts of a replay -/

theorem isUnrecorded_eq_false {s : String} (c : Char) (cs : List Char) (h : s.toList = c :: cs)
    (hc : c ≠ '_') : isUnrecorded s = false := by
  have hmark : unrecordedMark.toList = '_' :: "_istos_replay_unrecorded__".toList := rfl
  have hne : ('_' == c) = false := beq_eq_false_iff_ne.mpr hc.symm
  unfold isUnrecorded
  rw [h, hmark, List.isPrefixOf_cons_cons, hne, Bool.false_and]

/-- A refusal is not taken for the text of a stub that has nothing left. -/
theorem isUnrecorded_refusal [PyText] {T : Type} {v : Verdict T} {refusal : String}
    (h : v.refusal = some refusal) : isUnrecorded refusal = false := by
  cases v with
  | returned req => cases h
  | denied message =>
    obtain rfl := Option.some.inj h
    refine isUnrecorded_eq_false 'a' ("pproval_denied: ".toList ++ message.toList) ?_ (by decide)
    simp [formatToolError, String.toList_append]
  | timedOut message =>
    obtain rfl := Option.some.inj h
    refine isUnrecorded_eq_false 'a' ("pproval_timeout: ".toList ++ message.toList) ?_ (by decide)
    simp [formatToolError, String.toList_append]
  | notFound id =>
    obtain rfl := Option.some.inj h
    refine isUnrecorded_eq_false 'n' ("ot_found: No approval request ".toList ++
      (PyText.repr id).toList) ?_ (by decide)
    simp [formatToolError, String.toList_append]

theorem isUnrecorded_unknown (text : String) : isUnrecorded ("unknown tool: " ++ text) = false := by
  refine isUnrecorded_eq_false 'u' ("nknown tool: ".toList ++ text.toList) ?_ (by decide)
  simp [String.toList_append]

/-- **No outcome of a replay is marked**, but those of the stubs. -/
theorem Watched.tools_step [PyText] {T : Type} {l : Loop Unit} {before replies : List ModelReply}
    {r : TrajectoryRecorder} {t t' : Turn Unit}
    (h : Watched l before replies (t.outbox.foldl TrajectoryRecorder.observe r) t)
    (htarget : ∀ a name, l.target a name = none) {a : TurnAction T} (hstep : t.step l a = some t')
    (hreply : ∀ reply, a ≠ .reply reply) (hresult : ∀ o, a ≠ .result o) (tools : List MeshTool) :
    ∃ added, (t'.outbox.foldl TrajectoryRecorder.observe
        (RecordSession.watch tools r t a)).tools
      = (t.outbox.foldl TrajectoryRecorder.observe r).tools ++ added ∧
      ∀ o ∈ added, isUnrecorded o.content = false := by
  -- most steps end no call
  have hnothing : ∀ {x y : List ToolOutcome}, x = y → ∃ added, x = y ++ added ∧
      ∀ o ∈ added, isUnrecorded o.content = false :=
    fun heq => ⟨[], by rw [heq, List.append_nil], List.forall_mem_nil _⟩
  have hmove := Turn.moves hstep
  cases hmove with
  | deliver hout =>
    unfold RecordSession.watch
    rw [hout]
    exact hnothing rfl
  | reply hout hphase => exact absurd rfl (hreply _)
  | next hout hphase =>
    rw [hout]
    show ∃ added, ((t.advance l).outbox.foldl TrajectoryRecorder.observe r).tools = _ ∧ _
    cases htodo : t.todo with
    | nil =>
      simp only [Turn.advance, htodo, Turn.endBatch]
      split
      · exact hnothing (by rw [hout])
      · rw [TrajectoryRecorder.observe_last (e := .ceiling (l.stopped l.maxSteps)) rfl]
        exact hnothing rfl
    | cons tc todo =>
      simp only [Turn.advance, htodo, htarget]
      show ∃ added, (r.observe (.called tc)).tools = _ ∧ _
      rw [TrajectoryRecorder.observe_called]
      exact hnothing rfl
  | file hout hphase =>
    rw [hout]
    exact hnothing rfl
  | @verdict tc id v hout hphase =>
    rw [hout] at h ⊢
    have hcurrent : t.current = some tc := by rw [Turn.current, hphase]
    show ∃ added, ((t.decided tc id v).outbox.foldl TrajectoryRecorder.observe r).tools = _ ∧ _
    rcases Turn.decided_cases t tc id v with ⟨req, -, heq⟩ | ⟨refusal, hrefusal, heq⟩
    · rw [heq]
      exact hnothing rfl
    · rw [heq]
      show ∃ added, ((r.observe (.refused tc id refusal)).observe (.returned tc refusal true)).tools
        = _ ∧ _
      have hpending : (r.observe (.refused tc id refusal)).pending.get? tc.id
          = some (tc.id, ⟨tc.name, .obj tc.arguments⟩) := h.pending tc hcurrent
      rw [TrajectoryRecorder.observe_returned hpending]
      refine ⟨_, rfl, fun o ho => ?_⟩
      obtain rfl := List.mem_singleton.mp ho
      exact isUnrecorded_refusal hrefusal
  | @invoke tc arguments request hout hphase =>
    rw [hout] at h ⊢
    have hcurrent : t.current = some tc := by rw [Turn.current, hphase]
    show ∃ added, ((t.invoke l tc arguments request).outbox.foldl TrajectoryRecorder.observe
      r).tools = _ ∧ _
    unfold Turn.invoke
    cases byName (l.tools t.active) tc.name with
    | none =>
      show ∃ added, (r.observe (.returned tc ("unknown tool: " ++ PyText.repr tc.name) true)).tools
        = _ ∧ _
      have hpending : r.pending.get? tc.id = some (tc.id, ⟨tc.name, .obj tc.arguments⟩) :=
        h.pending tc hcurrent
      rw [TrajectoryRecorder.observe_returned hpending]
      refine ⟨_, rfl, fun o ho => ?_⟩
      obtain rfl := List.mem_singleton.mp ho
      exact isUnrecorded_unknown _
    | some tool =>
      rw [hout]
      exact hnothing rfl
  | result hout hphase => exact absurd rfl (hresult _)

/-! ### Replaying -/

/-- What the replay is given: the completions of some passes, and an outcome for each call. -/
structure Trajectory.Holds (traj : Trajectory) (names : List String) (maxSteps : ℕ)
    (maxMessages : Option ℕ) (scripts : List (List ModelReply)) : Prop where
  segments : ∀ R ∈ scripts, IsSegment (AsksOn maxSteps) R
  turns : traj.modelTurns = scripts.flatten.map (ModelTurn.fromReply · names)
  calls : traj.toolNames = (callsOf scripts.flatten).map ToolCall.name
  passes : scripts.length = (passes traj.userTurns).length
  bounded : scripts ≠ [] → maxMessages ≠ some 0
  clean : ∀ o ∈ traj.tools, isUnrecorded o.content = false

namespace ReplaySession

/-- The recorder, when it has seen what waits to be taken. -/
def seen (s : ReplaySession) : TrajectoryRecorder :=
  match s.turn with
  | some t => t.outbox.foldl TrajectoryRecorder.observe s.recorder
  | none => s.recorder

theorem seen_of_turn {s : ReplaySession} {t : Turn Unit} (hturn : s.turn = some t) :
    s.seen = t.outbox.foldl TrajectoryRecorder.observe s.recorder := by
  rw [seen, hturn]

/-- Where no event waits, the recorder has seen everything. -/
theorem seen_of_outbox {s : ReplaySession} {t : Turn Unit} (hturn : s.turn = some t)
    (hout : t.outbox = []) : s.seen = s.recorder := by
  rw [seen_of_turn hturn, hout, List.foldl_nil]

/-- **The invariant** of a replay: it stands within the recorded passes, and its stubs have enough.
-/
structure Keeps (traj : Trajectory) (l : Loop Unit) (scripts : List (List ModelReply))
    (s : ReplaySession) : Prop where
  failure : s.failure = none
  offered : s.offered = List.replicate s.used (traj.replayTools.map MeshTool.name)
  stands : ∃ past rest replies, scripts = past ++ rest ∧
    s.used = (past.flatten ++ replies).length ∧
    match s.turn with
    | none => replies = [] ∧ rest.length = s.todo.length ∧ Kept l past s.recorder
    | some t => rest.length = s.todo.length + 1 ∧ replies <+: rest.flatten ∧
        Watched l past.flatten replies (t.outbox.foldl TrajectoryRecorder.observe s.recorder) t
  stocked : ∀ name, traj.toolNames.count name ≤
    (s.remaining name).length + (s.seen.tools.map ToolOutcome.name).count name
  unmarked : ∀ name, ∀ c ∈ s.remaining name, isUnrecorded c = false
  clean : ∀ o ∈ s.seen.tools, isUnrecorded o.content = false

variable [PyText] {T : Type} {traj : Trajectory} {names : List String} {maxSteps : ℕ}
  {maxMessages : Option ℕ} {approvals : Bool} {scripts : List (List ModelReply)}
  {s s' : ReplaySession}

omit [PyText] in
theorem keeps_init (h : traj.Holds names maxSteps maxMessages scripts) :
    (init traj).Keeps traj (traj.replayLoop maxSteps maxMessages approvals) scripts where
  failure := rfl
  offered := rfl
  stands := ⟨[], scripts, [], rfl, rfl, rfl, h.passes, Kept.empty _⟩
  stocked name := by
    rw [← traj.length_canned name]
    exact Nat.le_add_right _ _
  unmarked name c hc := by
    have hcanned : c ∈ traj.canned name := hc
    rw [traj.canned_eq] at hcanned
    obtain ⟨o, ho, rfl⟩ := List.mem_map.mp hcanned
    exact h.clean o (List.mem_of_mem_filter ho)
  clean o ho := absurd ho List.not_mem_nil

omit [PyText] in
/-- Where a pass is left, the loop can be run. -/
theorem start_isSome (h : traj.Holds names maxSteps maxMessages scripts) (approvals : Bool)
    {past rest : List (List ModelReply)} (hscripts : scripts = past ++ rest) (hrest : rest ≠ [])
    (messages : List Message) :
    ∃ t, (traj.replayLoop maxSteps maxMessages approvals).start () messages = some t := by
  obtain ⟨R, rest, rfl⟩ := List.exists_cons_of_ne_nil hrest
  have hmem : R ∈ scripts := by
    rw [hscripts]
    exact List.mem_append_right past List.mem_cons_self
  obtain ⟨first, reply, -, hasks, -⟩ := h.segments R hmem
  have hpos : ¬ maxSteps < 1 := by
    have := hasks.1
    omega
  have hgate : (!(approvals || traj.replayTools.any MeshTool.requiresApproval) &&
      traj.replayTools.any MeshTool.requiresApproval) = false := by
    cases traj.replayTools.any MeshTool.requiresApproval <;> simp
  refine ⟨⟨(), 0, .completing, [], (), messages, 0, [], []⟩, ?_⟩
  show (if maxSteps < 1 then none else if (!(approvals ||
      traj.replayTools.any MeshTool.requiresApproval) &&
    traj.replayTools.any MeshTool.requiresApproval) = true then none else some _) = some _
  rw [if_neg hpos, hgate, if_neg Bool.false_ne_true]

/-- What a step of the loop is to a replay. -/
theorem turn_cases {l : Loop Unit} {a : TurnAction T} (hfailure : s.failure = none)
    (hstep : s.step traj l (.turn a) = some s') :
    ∃ t t', s.turn = some t ∧ t.step l a = some t' ∧ (∀ reply, a ≠ .reply reply) ∧
      (∀ o, a ≠ .result o) ∧
      s' = { s with turn := some t', recorder := RecordSession.watch [] s.recorder t a } := by
  cases hturn : s.turn with
  | none => cases a <;> simp [step, hfailure, hturn] at hstep
  | some t =>
    cases a with
    | reply reply => simp [step, hfailure, hturn] at hstep
    | result o => simp [step, hfailure, hturn] at hstep
    | deliver =>
      simp only [step, hfailure, hturn] at hstep
      obtain ⟨t', hmoved, rfl⟩ := Option.map_eq_some_iff.mp hstep
      refine ⟨t, t', rfl, hmoved, fun reply h => (nomatch h), fun o h => (nomatch h), ?_⟩
      cases hout : t.outbox <;> simp [RecordSession.watch, hout, hfailure]
    | next | file | verdict | invoke =>
      simp only [step, hfailure, hturn] at hstep
      obtain ⟨t', hmoved, rfl⟩ := Option.map_eq_some_iff.mp hstep
      exact ⟨t, t', rfl, hmoved, fun reply h => (nomatch h), fun o h => (nomatch h),
        by rw [hfailure]; rfl⟩

variable {l : Loop Unit}

omit [PyText] in
/-- The next text is taken up. -/
theorem keeps_next (hs : s.Keeps traj l scripts) (hturn : s.turn = none) {text : String}
    {todo : List String} (htodo : s.todo = text :: todo) {t : Turn Unit}
    (hstart : l.start () (addUser s.messages text) = some t) :
    Keeps traj l scripts
      { s with
        todo := todo
        messages := addUser s.messages text
        recorder := s.recorder.user text
        turn := some t } := by
  obtain ⟨past, rest, replies, hscripts, hused, hstands⟩ := hs.stands
  rw [hturn] at hstands
  obtain ⟨rfl, hlength, hkept⟩ := hstands
  have htools : (s.recorder.user text).tools = s.recorder.tools := by
    unfold TrajectoryRecorder.user
    split <;> rfl
  have hrests : Watched.Rests l past.flatten (s.recorder.user text) := by
    unfold TrajectoryRecorder.user
    split
    · exact hkept.rests
    · exact ⟨hkept.rests.calls, hkept.rests.requests⟩
  have hseen : s.seen.tools = s.recorder.tools := by rw [seen, hturn]
  have hwatched := Watched.start hrests hstart
  obtain ⟨-, -, rfl⟩ := Loop.start_eq_some hstart
  refine ⟨hs.failure, hs.offered, ⟨past, rest, [], hscripts, hused, ?_, List.nil_prefix, hwatched⟩,
    fun name => ?_, hs.unmarked, fun o ho => ?_⟩
  · rw [hlength, htodo, List.length_cons]
  · have hstocked := hs.stocked name
    rw [hseen] at hstocked
    show _ ≤ _ + ((s.recorder.user text).tools.map _).count name
    rwa [htools]
  · refine hs.clean o ?_
    rw [hseen, ← htools]
    exact ho

omit [PyText] in
/-- The recorded model answers: it has another completion. -/
theorem keeps_complete (hl : l = traj.replayLoop maxSteps maxMessages approvals)
    (h : traj.Holds names maxSteps maxMessages scripts) (hs : s.Keeps traj l scripts)
    {t : Turn Unit} (hturn : s.turn = some t) (hout : t.outbox = [])
    (hphase : t.phase = .completing) :
    Keeps traj l scripts (s.complete traj l t) ∧
      ∃ reply, traj.modelTurns[s.used]? = some (.fromReply reply names) ∧
        s.complete traj l t = { s with
          used := s.used + 1
          offered := s.offered ++ [traj.replayTools.map MeshTool.name]
          turn := some (t.complete l reply) } := by
  obtain ⟨past, rest, replies, hscripts, hused, hstands⟩ := hs.stands
  rw [hturn] at hstands
  obtain ⟨hlength, hle, hwatched⟩ := hstands
  rw [hout] at hwatched
  obtain ⟨R, rest, rfl⟩ : ∃ R rest', rest = R :: rest' :=
    List.exists_cons_of_length_eq_add_one hlength
  have hmem : R ∈ scripts := by
    rw [hscripts]
    exact List.mem_append_right past List.mem_cons_self
  have hstands := hwatched.stands
  rw [Turn.Stands, hphase, hl] at hstands
  rw [List.flatten_cons] at hle
  -- the pass is not over, so the recorded one has another completion
  obtain ⟨reply, later, hR⟩ := (h.segments R hmem).exists_next AsksOn.of_isPrefix hstands.1 hle
  have hflat : scripts.flatten = (past.flatten ++ replies) ++ reply :: (later ++ rest.flatten) := by
    rw [hscripts, List.flatten_append, List.flatten_cons, hR]
    simp
  have hget : traj.modelTurns[s.used]? = some (.fromReply reply names) := by
    rw [h.turns, hflat, hused, List.getElem?_map, List.getElem?_append_right le_rfl, Nat.sub_self]
    rfl
  obtain ⟨messages, htrim⟩ : ∃ messages, l.trimmed t.messages = some messages := by
    have hbounded : maxMessages ≠ some 0 := h.bounded (List.ne_nil_of_mem hmem)
    rw [hl]
    cases hmax : maxMessages with
    | none => exact ⟨t.messages, by simp [Loop.trimmed, Trajectory.replayLoop, runAgent]⟩
    | some n =>
      have hpos : ¬ n < 1 := by
        intro hless
        exact hbounded (hmax.trans (congrArg some (Nat.lt_one_iff.mp hless)))
      simp only [Loop.trimmed, Trajectory.replayLoop, runAgent, trimMessages, if_neg hpos]
      split <;> exact ⟨_, rfl⟩
  have hcomplete : s.complete traj l t = { s with
      used := s.used + 1
      offered := s.offered ++ [traj.replayTools.map MeshTool.name]
      turn := some (t.complete l reply) } := by
    unfold complete
    rw [htrim]
    simp only [hget, ModelTurn.toReply_fromReply]
  have hnext := hwatched.complete hphase htrim reply
  have htools : ((t.complete l reply).outbox.foldl TrajectoryRecorder.observe s.recorder).tools
      = s.recorder.tools := by
    simp only [Turn.complete, htrim]
    split
    · rw [TrajectoryRecorder.observe_last (AgentEvent.kind_final _)]
    · rfl
  have hseen : s.seen.tools = s.recorder.tools := by rw [seen_of_outbox hturn hout]
  refine ⟨?_, reply, hget, hcomplete⟩
  rw [hcomplete]
  refine ⟨hs.failure, ?_, ⟨past, R :: rest, replies ++ [reply], hscripts, ?_, hlength, ?_, hnext⟩,
    fun name => ?_, hs.unmarked, fun o ho => ?_⟩
  · show s.offered ++ _ = List.replicate (s.used + 1) _
    rw [hs.offered, List.replicate_succ']
  · show s.used + 1 = _
    rw [hused]
    simp only [List.length_append, List.length_singleton, Nat.add_assoc]
  · rw [List.flatten_cons, hR]
    exact ⟨later ++ rest.flatten, by simp⟩
  · have hstocked := hs.stocked name
    rw [hseen, ← htools] at hstocked
    exact hstocked
  · refine hs.clean o ?_
    rw [hseen, ← htools]
    exact ho

omit [PyText] in
/-- The stub answers: it has another text. -/
theorem keeps_answer (h : traj.Holds names maxSteps maxMessages scripts)
    (hs : s.Keeps traj l scripts) {t : Turn Unit} {tc : ToolCall} (hturn : s.turn = some t)
    (hout : t.outbox = []) (hphase : t.phase = .calling tc) :
    Keeps traj l scripts (s.answer t tc) := by
  obtain ⟨past, rest, replies, hscripts, hused, hstands⟩ := hs.stands
  rw [hturn] at hstands
  obtain ⟨hlength, hle, hwatched⟩ := hstands
  rw [hout] at hwatched
  have hcurrent : t.current = some tc := by rw [Turn.current, hphase]
  obtain ⟨done, hcalls, houtcomes, -⟩ := hwatched.served
  rw [hcurrent, Option.toList_some] at hcalls
  have hseen : s.seen = s.recorder := seen_of_outbox hturn hout
  -- the call was recorded, and it has no outcome yet
  have hless : (s.recorder.tools.map ToolOutcome.name).count tc.name
      < traj.toolNames.count tc.name := by
    obtain ⟨later, hlater⟩ := hle
    have hall : callsOf scripts.flatten = done ++ tc :: (t.todo ++ callsOf later) := by
      rw [hscripts, List.flatten_append, ← hlater, ← List.append_assoc, callsOf_append, hcalls]
      simp
    have hnames : s.recorder.tools.map ToolOutcome.name = done.map ToolCall.name := by
      have hfirst := congrArg (List.map Prod.fst) houtcomes
      rw [TrajectoryRecorder.calls, List.map_map, List.map_map] at hfirst
      exact hfirst
    rw [h.calls, hall, hnames, List.map_append, List.map_cons, List.count_append,
      List.count_cons_self]
    omega
  have hstocked := hs.stocked
  rw [hseen] at hstocked
  obtain ⟨content, left, hleft⟩ : ∃ content left, s.remaining tc.name = content :: left := by
    refine List.exists_cons_of_ne_nil fun hnil => ?_
    have hnow := hstocked tc.name
    rw [hnil, List.length_nil] at hnow
    omega
  have htools : ((t.finished tc (.value (.str content))).outbox.foldl TrajectoryRecorder.observe
      s.recorder).tools
        = s.recorder.tools ++ [⟨tc.name, .obj tc.arguments, content, false, some tc.id⟩] := by
    show (s.recorder.observe (.returned tc content false)).tools = _
    have hpending : s.recorder.pending.get? tc.id = some (tc.id, ⟨tc.name, .obj tc.arguments⟩) :=
      hwatched.pending tc hcurrent
    rw [TrajectoryRecorder.observe_returned hpending]
  unfold answer
  rw [hleft]
  refine ⟨hs.failure, hs.offered, ⟨past, rest, replies, hscripts, hused, hlength, hle,
    hwatched.finished hphase _⟩, fun name => ?_, fun name c hc => ?_, fun o ho => ?_⟩
  · show _ ≤ (Function.update s.remaining tc.name left name).length +
      (((t.finished tc (.value (.str content))).outbox.foldl TrajectoryRecorder.observe
        s.recorder).tools.map ToolOutcome.name).count name
    have hnow := hstocked name
    rw [htools, List.map_append, List.count_append]
    by_cases hname : name = tc.name
    · subst hname
      rw [hleft, List.length_cons] at hnow
      rw [Function.update_self]
      simp only [List.map_cons, List.map_nil, List.count_singleton_self]
      omega
    · rw [Function.update_of_ne hname]
      omega
  · have hc' : c ∈ Function.update s.remaining tc.name left name := hc
    by_cases hname : name = tc.name
    · subst hname
      rw [Function.update_self] at hc'
      exact hs.unmarked tc.name c (hleft ▸ List.mem_cons_of_mem content hc')
    · rw [Function.update_of_ne hname] at hc'
      exact hs.unmarked name c hc'
  · have ho' : o ∈ ((t.finished tc (.value (.str content))).outbox.foldl TrajectoryRecorder.observe
        s.recorder).tools := ho
    rw [htools] at ho'
    rcases List.mem_append.mp ho' with hold | hnew
    · exact hs.clean o (hseen ▸ hold)
    · rw [List.mem_singleton.mp hnew]
      exact hs.unmarked tc.name content (hleft ▸ List.mem_cons_self)

/-- The loop goes on by itself, or by the gate. -/
theorem keeps_turn (hl : l = traj.replayLoop maxSteps maxMessages approvals)
    (hs : s.Keeps traj l scripts) {a : TurnAction T} (hstep : s.step traj l (.turn a) = some s') :
    Keeps traj l scripts s' := by
  obtain ⟨t, t', hturn, hmoved, hreply, hresult, rfl⟩ := turn_cases hs.failure hstep
  obtain ⟨past, rest, replies, hscripts, hused, hstands⟩ := hs.stands
  rw [hturn] at hstands
  obtain ⟨hlength, hle, hwatched⟩ := hstands
  have htarget : ∀ a name, l.target a name = none := by
    rw [hl]
    exact fun a name => rfl
  have hseen : s.seen.tools = (t.outbox.foldl TrajectoryRecorder.observe s.recorder).tools := by
    rw [seen_of_turn hturn]
  obtain ⟨added, htools, hadded⟩ := hwatched.tools_step htarget hmoved hreply hresult []
  refine ⟨hs.failure, hs.offered, ⟨past, rest, replies, hscripts, hused, hlength, hle,
    hwatched.step htarget hmoved hreply []⟩, fun name => ?_, hs.unmarked, fun o ho => ?_⟩
  · have hstocked := hs.stocked name
    rw [hseen] at hstocked
    refine hstocked.trans (Nat.add_le_add_left ?_ _)
    show _ ≤ ((t'.outbox.foldl TrajectoryRecorder.observe
      (RecordSession.watch [] s.recorder t a)).tools.map ToolOutcome.name).count name
    rw [htools, List.map_append, List.count_append]
    exact Nat.le_add_right _ _
  · have ho' : o ∈ (t'.outbox.foldl TrajectoryRecorder.observe
        (RecordSession.watch [] s.recorder t a)).tools := ho
    rw [htools, ← hseen] at ho'
    rcases List.mem_append.mp ho' with hold | hnew
    · exact hs.clean o hold
    · exact hadded o hnew

omit [PyText] in
/-- A pass ends where the recorded one has ended. -/
theorem keeps_finish (hl : l = traj.replayLoop maxSteps maxMessages approvals)
    (h : traj.Holds names maxSteps maxMessages scripts) (hs : s.Keeps traj l scripts)
    {t : Turn Unit} (hturn : s.turn = some t) (hout : t.outbox = []) (hended : t.phase = .ended) :
    Keeps traj l scripts { s with turn := none, messages := t.messages } := by
  obtain ⟨past, rest, replies, hscripts, hused, hstands⟩ := hs.stands
  rw [hturn] at hstands
  obtain ⟨hlength, hle, hwatched⟩ := hstands
  rw [hout] at hwatched
  obtain ⟨R, rest, rfl⟩ : ∃ R rest', rest = R :: rest' :=
    List.exists_cons_of_length_eq_add_one hlength
  have hmem : R ∈ scripts := by
    rw [hscripts]
    exact List.mem_append_right past List.mem_cons_self
  obtain ⟨hsegment, hkept⟩ := hwatched.kept hended
  rw [List.flatten_cons] at hle
  have hsame : replies = R := by
    rw [hl] at hsegment
    exact (h.segments R hmem).eq_of_isPrefix AsksOn.of_isPrefix hsegment hle
  subst hsame
  have hseen : s.seen = s.recorder := seen_of_outbox hturn hout
  refine ⟨hs.failure, hs.offered, ⟨past ++ [replies], rest, [], ?_, ?_, rfl, ?_, hkept⟩,
    fun name => ?_, hs.unmarked, fun o ho => ?_⟩
  · rw [hscripts, List.append_assoc, List.singleton_append]
  · rw [List.flatten_append, List.flatten_singleton, List.append_nil]
    exact hused
  · exact Nat.succ.inj hlength
  · have hnow := hs.stocked name
    rw [hseen] at hnow
    exact hnow
  · exact hs.clean o (hseen ▸ ho)

/-- **A step of a replay** keeps the invariant: the replay never fails. -/
theorem keeps_step (hl : l = traj.replayLoop maxSteps maxMessages approvals)
    (h : traj.Holds names maxSteps maxMessages scripts) {a : ReplayAction T}
    (hstep : s.step traj l a = some s') (hs : s.Keeps traj l scripts) :
    s'.Keeps traj l scripts := by
  cases a with
  | next =>
    simp only [step, hs.failure] at hstep
    split at hstep
    · next text todo hnone hturn htodo =>
      obtain rfl := Option.some.inj hstep
      obtain ⟨past, rest, replies, hscripts, -, hstands⟩ := hs.stands
      rw [hturn] at hstands
      have hrest : rest ≠ [] := by
        refine List.ne_nil_of_length_eq_add_one (n := todo.length) ?_
        rw [hstands.2.1, htodo, List.length_cons]
      obtain ⟨t, hstart⟩ :=
        start_isSome h approvals hscripts hrest (addUser s.messages text)
      rw [← hl] at hstart
      have hnext := keeps_next hs hturn htodo hstart
      rw [hs.failure] at hnext
      simp only [hstart]
      exact hnext
    · cases hstep
  | complete =>
    simp only [step, hs.failure] at hstep
    split at hstep
    · next t hnone hturn =>
      split at hstep
      · next hout hphase =>
        obtain rfl := Option.some.inj hstep
        exact (keeps_complete hl h hs hturn hout hphase).1
      · cases hstep
    · cases hstep
  | canned =>
    simp only [step, hs.failure] at hstep
    split at hstep
    · next t hnone hturn =>
      split at hstep
      · next tc hout hphase =>
        obtain rfl := Option.some.inj hstep
        exact keeps_answer h hs hturn hout hphase
      · cases hstep
    · cases hstep
  | turn b => exact keeps_turn hl hs hstep
  | finish =>
    simp only [step, hs.failure] at hstep
    split at hstep
    · next t hnone hturn =>
      split at hstep
      · next hout hended =>
        obtain rfl := Option.some.inj hstep
        have hnext := keeps_finish hl h hs hturn hout hended
        rwa [hs.failure] at hnext
      · cases hstep
    · cases hstep

/-! ### The end of a replay -/

end ReplaySession

/-- What is still to be done before the next completion. -/
def TurnPhase.weight : TurnPhase → ℕ
  | .completing | .ended | .raised => 0
  | .dispatching => 3
  | .calling _ => 5
  | .ready _ _ _ => 6
  | .waiting _ _ => 8
  | .filing _ _ => 10

/-- What is left of the work of a turn, but for the completions. -/
def Turn.work (t : Turn Unit) : ℕ := t.outbox.length + t.phase.weight + 16 * t.todo.length

/-- A batch goes on. -/
theorem Turn.work_advance {l : Loop Unit} (htarget : ∀ a name, l.target a name = none)
    {t : Turn Unit} (hout : t.outbox = []) (hphase : t.phase = .dispatching) :
    (t.advance l).work < t.work := by
  cases htodo : t.todo with
  | nil =>
    simp only [advance, htodo, endBatch]
    split <;> simp [work, hout, hphase, htodo, TurnPhase.weight]
  | cons tc todo =>
    simp only [advance, htodo, htarget]
    rcases Turn.dispatch_cases l ({ t with todo := todo, served := t.served + 1 } : Turn Unit) tc
      with ⟨tool, -, -, -, heq⟩ | ⟨-, heq⟩
    · rw [heq]
      simp only [work, hout, hphase, htodo, TurnPhase.weight, List.length_cons, List.length_nil]
      omega
    · rw [heq]
      simp only [work, hout, hphase, htodo, TurnPhase.weight, List.length_cons, List.length_nil]
      omega

/-- A completion brings its calls. -/
theorem Turn.work_complete (l : Loop Unit) {t : Turn Unit} (hout : t.outbox = [])
    (htodo : t.todo = []) (reply : ModelReply) :
    (t.complete l reply).work ≤ 16 * reply.toolCalls.length + 3 := by
  unfold complete
  split
  · simp [work, hout, htodo, TurnPhase.weight]
  · cases hcalls : reply.toolCalls with
    | nil => simp [work, TurnPhase.weight]
    | cons tc calls =>
      simp [work, TurnPhase.weight]
      omega

namespace ReplaySession

variable [PyText] {T : Type} {traj : Trajectory} {names : List String} {maxSteps : ℕ}
  {maxMessages : Option ℕ} {approvals : Bool} {scripts : List (List ModelReply)}
  {s : ReplaySession} {l : Loop Unit}

/-- What is left of the work of a replay. -/
def work (traj : Trajectory) (s : ReplaySession) : ℕ :=
  s.todo.length * 4 +
    ((traj.modelTurns.drop s.used).map fun turn => 16 * turn.toolCalls.length + 4).sum +
    s.turn.elim 0 fun t => t.work + 1

/-- **A replay goes on** until it is over. -/
theorem exists_less (hl : l = traj.replayLoop maxSteps maxMessages approvals)
    (h : traj.Holds names maxSteps maxMessages scripts) (hs : s.Keeps traj l scripts)
    (hdone : ¬ s.Done) :
    ∃ (a : ReplayAction T) (s' : ReplaySession), s.step traj l a = some s' ∧
      s'.work traj < s.work traj := by
  have htarget : ∀ a name, l.target a name = none := by
    rw [hl]
    exact fun a name => rfl
  have hfailure := hs.failure
  obtain ⟨past, rest, replies, hscripts, hused, hstands⟩ := hs.stands
  cases hturn : s.turn with
  | none =>
    rw [hturn] at hstands
    cases htodo : s.todo with
    | nil => exact absurd (.inr ⟨hturn, htodo⟩) hdone
    | cons text todo =>
      have hrest : rest ≠ [] := by
        refine List.ne_nil_of_length_eq_add_one (n := todo.length) ?_
        rw [hstands.2.1, htodo, List.length_cons]
      obtain ⟨t, hstart⟩ :=
        start_isSome h approvals hscripts hrest (addUser s.messages text)
      rw [← hl] at hstart
      refine ⟨.next, _, by simp only [step, hfailure, hturn, htodo]; rfl, ?_⟩
      simp only [hstart]
      obtain ⟨-, -, rfl⟩ := Loop.start_eq_some hstart
      simp only [work, hturn, htodo, Option.elim, Turn.work, TurnPhase.weight, List.length_cons,
        List.length_nil]
      omega
  | some t =>
    rw [hturn] at hstands
    obtain ⟨-, -, hwatched⟩ := hstands
    have hstands := hwatched.stands
    -- a step of the turn that leaves the completions alone
    have hgo : ∀ (a : TurnAction T) (t' : Turn Unit) (r : TrajectoryRecorder),
        s.step traj l (.turn a) = some { s with turn := some t', recorder := r } →
        t'.work < t.work → ∃ (a : ReplayAction T) (s' : ReplaySession),
          s.step traj l a = some s' ∧ s'.work traj < s.work traj := by
      intro a t' r hstep hless
      refine ⟨.turn a, _, hstep, ?_⟩
      simp only [work, hturn, Option.elim]
      omega
    cases hout : t.outbox with
    | cons e outbox =>
      refine hgo .deliver { t with outbox := outbox } (s.recorder.observe e) ?_ ?_
      · simp [step, hfailure, hturn, Turn.step, hout]
      · simp only [Turn.work, hout, List.length_cons]
        omega
    | nil =>
      cases hphase : t.phase with
      | raised =>
        rw [Turn.Stands, hphase] at hstands
        exact hstands.elim
      | completing =>
        rw [Turn.Stands, hphase] at hstands
        obtain ⟨-, reply, hget, hcomplete⟩ := keeps_complete hl h hs hturn hout hphase
        refine ⟨.complete, s.complete traj l t, by simp [step, hfailure, hturn, hout, hphase], ?_⟩
        obtain ⟨hlt, hval⟩ := List.getElem?_eq_some_iff.mp hget
        have hdrop : traj.modelTurns.drop s.used
            = .fromReply reply names :: traj.modelTurns.drop (s.used + 1) := by
          rw [List.drop_eq_getElem_cons hlt, hval]
        have hnext := Turn.work_complete l hout hstands.2 reply
        rw [hcomplete]
        simp only [work, hdrop, hturn, Option.elim, List.map_cons, List.sum_cons,
          ModelTurn.fromReply]
        omega
      | dispatching =>
        refine hgo .next (t.advance l) s.recorder ?_ (Turn.work_advance htarget hout hphase)
        simp [step, hfailure, hturn, Turn.step, hout, hphase]
      | filing tc tool =>
        refine hgo (.file "") (t.file tc tool "") s.recorder ?_ ?_
        · simp [step, hfailure, hturn, Turn.step, hout, hphase]
        · simp only [Turn.work, Turn.file, hout, hphase, TurnPhase.weight, List.length_cons,
            List.length_nil]
          omega
      | waiting tc id =>
        have hdecided : (t.decided tc id (.denied "" : Verdict T)).work < t.work := by
          rcases Turn.decided_cases t tc id (.denied "" : Verdict T) with
            ⟨req, -, heq⟩ | ⟨refusal, -, heq⟩
          · rw [heq]
            simp [Turn.work, hout, hphase, TurnPhase.weight]
          · rw [heq]
            simp [Turn.work, Turn.answer, hout, hphase, TurnPhase.weight]
        refine hgo (.verdict (.denied "")) (t.decided tc id (.denied "" : Verdict T)) s.recorder ?_
          hdecided
        simp [step, hfailure, hturn, Turn.step, hout, hphase]
      | ready tc arguments request =>
        have hinvoked : (t.invoke l tc arguments request).work < t.work := by
          unfold Turn.invoke
          cases byName (l.tools t.active) tc.name with
          | none => simp [Turn.work, Turn.answer, hout, hphase, TurnPhase.weight]
          | some tool => simp [Turn.work, hout, hphase, TurnPhase.weight]
        refine hgo .invoke (t.invoke l tc arguments request) s.recorder ?_ hinvoked
        simp [step, hfailure, hturn, Turn.step, hout, hphase]
      | calling tc =>
        refine ⟨.canned, s.answer t tc, by simp [step, hfailure, hturn, hout, hphase], ?_⟩
        have hfinished : ∀ o, (t.finished tc o).work < t.work := by
          intro o
          simp [Turn.work, Turn.finished, Turn.answer, hout, hphase, TurnPhase.weight]
        unfold answer
        cases s.remaining tc.name with
        | nil =>
          have hless := hfinished (.value (.str (unrecordedMark ++ ": " ++ tc.name)))
          simp only [work, hturn, Option.elim]
          omega
        | cons content left =>
          have hless := hfinished (.value (.str content))
          simp only [work, hturn, Option.elim]
          omega
      | ended =>
        refine ⟨.finish, { s with turn := none, messages := t.messages }, ?_, ?_⟩
        · simp [step, hfailure, hturn, hout, hphase]
        · simp only [work, hturn, Option.elim]
          omega

omit [PyText] in
/-- **The end of a replay**: it has gone through every recorded pass. -/
theorem keeps_done (hs : s.Keeps traj l scripts) (hdone : s.Done) :
    Kept l scripts s.recorder ∧ s.used = scripts.flatten.length ∧
      ∀ o ∈ s.recorder.tools, isUnrecorded o.content = false := by
  rcases hdone with hfailure | ⟨hturn, htodo⟩
  · rw [hs.failure] at hfailure
    cases hfailure
  · obtain ⟨past, rest, replies, hscripts, hused, hstands⟩ := hs.stands
    rw [hturn] at hstands
    obtain ⟨rfl, hlength, hkept⟩ := hstands
    rw [htodo, List.length_nil, List.length_eq_zero_iff] at hlength
    rw [hlength, List.append_nil] at hscripts
    have hseen : s.seen = s.recorder := by rw [seen, hturn]
    subst hscripts
    rw [List.append_nil] at hused
    exact ⟨hkept, hused, hseen ▸ hs.clean⟩

end ReplaySession

/-! ### What differs -/

section Diff

variable [PyText] {expected actual : Trajectory}

theorem diffNames_eq_nil (h : expected.toolNames = actual.toolNames) :
    diffNames expected actual = [] := if_pos h

omit [PyText] in
/-- Items that stand beside each other in lists that a function takes to one list. -/
theorem eq_of_mem_zip {α β : Type*} (f : α → β) {xs ys : List α} (h : xs.map f = ys.map f) {x y : α}
    (hmem : (x, y) ∈ xs.zip ys) : f x = f y := by
  induction xs generalizing ys with
  | nil => cases hmem
  | cons x' xs ih =>
    cases ys with
    | nil => cases hmem
    | cons y' ys =>
      obtain ⟨hhead, htail⟩ := List.cons.inj h
      rcases List.mem_cons.mp hmem with heq | hmem
      · obtain ⟨rfl, rfl⟩ := Prod.mk.inj heq
        exact hhead
      · exact ih htail hmem

theorem diffArguments_eq_nil [PyEq]
    (h : (expected.tools.map fun o => (o.name, o.arguments))
      = actual.tools.map fun o => (o.name, o.arguments)) : diffArguments expected actual = [] := by
  unfold diffArguments
  rw [List.flatMap_eq_nil_iff]
  rintro ⟨⟨want, got⟩, i⟩ hmem
  have hzip : (want, got) ∈ expected.tools.zip actual.tools := List.fst_mem_of_mem_zipIdx hmem
  have hsame := eq_of_mem_zip (fun o : ToolOutcome => (o.name, o.arguments)) h hzip
  have harguments : PyEq.eq want.arguments got.arguments = true := by
    rw [(Prod.mk.inj hsame).2]
    exact PyEq.eq_self got.arguments
  simp [harguments]

omit [PyText] in
theorem diffUnrecorded_eq_nil (h : ∀ o ∈ actual.tools, isUnrecorded o.content = false) :
    diffUnrecorded actual = [] := by
  rw [diffUnrecorded, List.map_eq_nil_iff, List.filter_eq_nil_iff]
  intro o ho
  rw [h o ho]
  exact Bool.false_ne_true

theorem diffMessage_eq_nil (compareText : Bool) (h : expected.finalMessage = actual.finalMessage) :
    diffMessage compareText expected actual = [] := by
  simp [diffMessage, h]

omit [PyText] in
theorem diffApprovals_eq_nil (h : expected.requested = actual.requested) :
    diffApprovals expected actual = [] := if_pos (congrArg List.length h)

/-- The catalogue differs where a tool that was offered has no stub. -/
theorem diffOffered_eq_nil_iff {replies : List ModelReply} {names stubs : List String}
    (hturns : expected.modelTurns = replies.map (ModelTurn.fromReply · names))
    (hne : replies ≠ []) :
    diffOffered expected (List.replicate replies.length stubs) = [] ↔
      ∀ name ∈ names, name ∈ stubs := by
  have hmissing : (names.filter fun name => decide (name ∉ stubs)) = [] ↔
      ∀ name ∈ names, name ∈ stubs := by
    rw [List.filter_eq_nil_iff]
    simp
  -- every turn was offered the same, and so is every turn of the replay
  have hall : ∀ x ∈ (expected.modelTurns.zip (List.replicate replies.length stubs)).zipIdx,
      (x.1.1.toolsOffered.filter fun name => decide (name ∉ x.1.2))
        = names.filter fun name => decide (name ∉ stubs) := by
    rintro ⟨⟨turn, offered⟩, i⟩ hmem
    obtain ⟨hturn, hoffered⟩ := List.of_mem_zip (List.fst_mem_of_mem_zipIdx hmem)
    rw [hturns] at hturn
    obtain ⟨reply, -, rfl⟩ := List.mem_map.mp hturn
    obtain rfl := (List.mem_replicate.mp hoffered).2
    rfl
  unfold diffOffered
  rw [List.flatMap_eq_nil_iff, ← hmissing]
  constructor
  · intro h
    obtain ⟨reply, replies, rfl⟩ := List.exists_cons_of_ne_nil hne
    have hfirst := h ((.fromReply reply names, stubs), 0) (by
      rw [hturns, List.map_cons, List.length_cons, List.replicate_succ, List.zip_cons_cons,
        List.zipIdx_cons]
      exact List.mem_cons_self)
    by_contra hsome
    have hfalse : (names.filter fun name => decide (name ∉ stubs)).isEmpty = false := by
      rw [Bool.eq_false_iff, Ne, List.isEmpty_iff]
      exact hsome
    simp only [ModelTurn.fromReply, hfalse, Bool.false_eq_true, if_false] at hfirst
    cases hfirst
  · intro h x hx
    simp only [hall x hx, h, List.isEmpty_nil, if_true]

end Diff

/-! ### A recording replays as it was -/

section

variable [PyText] {T : Type} {tools : List MeshTool} {maxSteps : ℕ} {maxMessages : Option ℕ}
  {approvals : Bool} {system : Option String} {texts : List String} {messages : List Message}
  {as : List (RecordAction T)} {s : RecordSession}

omit [PyText] in
/-- The loop is run once at least. -/
theorem passes_ne_nil (texts : List String) : passes texts ≠ [] := by
  cases texts with
  | nil => exact List.cons_ne_nil "" []
  | cons text texts => exact List.cons_ne_nil text texts

omit [PyText] in
/-- The recorded texts are as many passes as the texts were. -/
theorem length_passes_filter (h : texts.length ≤ 1 ∨ "" ∉ texts) :
    (passes ((passes texts).filter fun text => text ≠ "")).length = (passes texts).length := by
  have hfew : ∀ text : String,
      (passes ((passes [text]).filter fun text => text ≠ "")).length = 1 := by
    intro text
    by_cases htext : text = ""
    · rw [htext]
      rfl
    · simp [passes, htext]
  match texts, h with
  | [], _ => rfl
  | [text], _ => exact hfew text
  | text :: text' :: texts, h =>
    have hno : "" ∉ text :: text' :: texts := h.resolve_left (by simp)
    have hall : ((text :: text' :: texts).filter fun text => decide (text ≠ ""))
        = text :: text' :: texts := by
      rw [List.filter_eq_self]
      intro x hx
      rw [decide_eq_true_eq]
      rintro rfl
      exact hno hx
    show (passes ((text :: text' :: texts).filter fun text => decide (text ≠ ""))).length = _
    rw [hall]

/-- What a recording gives its replay. -/
theorem RecordSession.holds
    (hrun : Steps.run (RecordSession.step tools (runAgent tools maxSteps maxMessages approvals))
      (.init system texts messages) as = some s) (hdone : s.Done)
    (htexts : texts.length ≤ 1 ∨ "" ∉ texts)
    (hclean : ∀ o ∈ s.recorder.tools, isUnrecorded o.content = false) :
    ∃ scripts,
      (s.recorder.build system).Holds (tools.map MeshTool.name) maxSteps maxMessages scripts ∧
      Kept (runAgent tools maxSteps maxMessages approvals) scripts s.recorder := by
  obtain ⟨scripts, hsegments, hlength, husers, hturns, hkept⟩ :=
    RecordSession.keeps_of_done (fun _ _ => rfl) hrun hdone
  refine ⟨scripts, ⟨hsegments, hturns, ?_, ?_, hkept.bounded, hclean⟩, hkept⟩
  · have hfirst := congrArg (List.map Prod.fst) hkept.rests.calls
    rw [TrajectoryRecorder.calls, List.map_map, List.map_map] at hfirst
    exact hfirst
  · show _ = (passes s.recorder.users).length
    rw [husers, length_passes_filter htexts, hlength]

omit [PyText] in
/-- The requests of a replay are those of the recording. -/
theorem requests_replayLoop {traj : Trajectory} {names : List String}
    {scripts : List (List ModelReply)} {l : Loop Unit}
    (h : traj.Holds names maxSteps maxMessages scripts)
    (hrequested : traj.requested = l.requests (callsOf scripts.flatten)) :
    (traj.replayLoop maxSteps maxMessages approvals).requests (callsOf scripts.flatten)
      = traj.requested := by
  rw [hrequested]
  unfold Loop.requests
  congr 1
  refine List.filter_congr fun tc htc => ?_
  have hname : tc.name ∈ traj.toolNames := by
    rw [h.calls]
    exact List.mem_map_of_mem htc
  rw [traj.gated_replayLoop maxSteps maxMessages approvals hname, hrequested, Loop.requests]
  by_cases hgated : l.gated tc = true
  · rw [hgated, decide_eq_true_eq]
    exact List.mem_map.mpr ⟨tc, List.mem_filter.mpr ⟨htc, hgated⟩, rfl⟩
  · rw [Bool.not_eq_true] at hgated
    rw [hgated, decide_eq_false_iff_not]
    intro hmem
    obtain ⟨tc', htc', heq⟩ := List.mem_map.mp hmem
    have hsame : l.gated tc' = l.gated tc := by rw [Loop.gated, Loop.gated, Option.some.inj heq]
    have htrue := (List.mem_filter.mp htc').2
    rw [hsame, hgated] at htrue
    cases htrue

/-- **A recording replays as it was.**  A replay of it can always be brought to its end, whatever
its gate answers.  At the end nothing differs but the catalogue: there is no difference just when
every tool that the loop was offered has been called. -/
theorem replay_diff [PyEq] {T' : Type}
    (hrun : Steps.run (RecordSession.step tools (runAgent tools maxSteps maxMessages approvals))
      (.init system texts messages) as = some s) (hdone : s.Done)
    (htexts : texts.length ≤ 1 ∨ "" ∉ texts)
    (hclean : ∀ o ∈ s.recorder.tools, isUnrecorded o.content = false) (approvals' : Bool)
    {traj : Trajectory} (htraj : s.recorder.build system = traj) {bs : List (ReplayAction T')}
    {r : ReplaySession}
    (hreplay : Steps.run (ReplaySession.step traj (traj.replayLoop maxSteps maxMessages approvals'))
      (.init traj) bs = some r) :
    (∃ (cs : List (ReplayAction T')) (r' : ReplaySession),
      Steps.run (ReplaySession.step traj (traj.replayLoop maxSteps maxMessages approvals')) r cs
        = some r' ∧ r'.Done) ∧
    (r.Done → ∀ compareText,
      r.diff traj compareText = diffOffered traj r.offered ∧
      (r.diff traj compareText = [] ↔ ∀ tool ∈ tools, tool.name ∈ traj.toolNames)) := by
  obtain ⟨scripts, hholds, hkept⟩ := RecordSession.holds hrun hdone htexts hclean
  rw [htraj] at hholds
  have hpreserved : ∀ (s : ReplaySession) (a : ReplayAction T') (s' : ReplaySession),
      s.step traj (traj.replayLoop maxSteps maxMessages approvals') a = some s' →
      s.Keeps traj (traj.replayLoop maxSteps maxMessages approvals') scripts →
      s'.Keeps traj (traj.replayLoop maxSteps maxMessages approvals') scripts :=
    fun s a s' hstep hs => ReplaySession.keeps_step rfl hholds hstep hs
  have hlive : ∀ s : ReplaySession,
      s.Keeps traj (traj.replayLoop maxSteps maxMessages approvals') scripts → ¬ s.Done →
      ∃ (a : ReplayAction T') (s' : ReplaySession),
        s.step traj (traj.replayLoop maxSteps maxMessages approvals') a = some s' ∧
          s'.work traj < s.work traj :=
    fun s hs hdone => ReplaySession.exists_less rfl hholds hs hdone
  have hkeeps := Steps.run_invariant_true hpreserved hreplay (ReplaySession.keeps_init hholds)
  constructor
  · exact Steps.exists_end hpreserved hlive r hkeeps
  · intro hend compareText
    obtain ⟨hkept', hused, hclean'⟩ := ReplaySession.keeps_done hkeeps hend
    -- each part that is compared comes from the scripts alone
    have hcalls : s.recorder.calls = r.recorder.calls :=
      hkept.rests.calls.trans hkept'.rests.calls.symm
    have hrequested : traj.requested
        = (runAgent tools maxSteps maxMessages approvals).requests (callsOf scripts.flatten) :=
      htraj ▸ hkept.rests.requests
    have hnames : traj.toolNames = (r.replayed traj).toolNames := by
      have hfirst := congrArg (List.map Prod.fst) hcalls
      rw [TrajectoryRecorder.calls, TrajectoryRecorder.calls, List.map_map, List.map_map] at hfirst
      rw [← htraj]
      exact hfirst
    have hrequests : traj.requested = (r.replayed traj).requested :=
      (hkept'.rests.requests.trans (requests_replayLoop hholds hrequested)).symm
    have hsaid : traj.finalMessage = (r.replayed traj).finalMessage :=
      htraj ▸ hkept.said.trans hkept'.said.symm
    have hdiff : r.diff traj compareText = diffOffered traj r.offered := by
      unfold ReplaySession.diff trajectoryDiff
      rw [hkeeps.failure, diffNames_eq_nil hnames, diffArguments_eq_nil (htraj ▸ hcalls),
        diffUnrecorded_eq_nil hclean', diffMessage_eq_nil compareText hsaid,
        diffApprovals_eq_nil hrequests]
      simp
    refine ⟨hdiff, ?_⟩
    -- there is a pass, and in it a completion
    have hne : scripts.flatten ≠ [] := by
      have hpos : scripts ≠ [] := by
        intro hnil
        have hlength := hholds.passes
        rw [hnil] at hlength
        exact passes_ne_nil traj.userTurns (List.eq_nil_of_length_eq_zero hlength.symm)
      obtain ⟨R, rest, rfl⟩ := List.exists_cons_of_ne_nil hpos
      have hR := (hholds.segments R List.mem_cons_self).ne_nil
      simp [hR]
    rw [hdiff, hkeeps.offered, hused, diffOffered_eq_nil_iff hholds.turns hne]
    have hstubs : traj.replayTools.map MeshTool.name = traj.queued.keys := by
      rw [Trajectory.replayTools, List.map_map]
      exact List.map_id _
    rw [hstubs]
    simp only [List.mem_map, forall_exists_index, and_imp, forall_apply_eq_imp_iff₂,
      traj.mem_queued_keys]

/-- One text, a tool that is called once, and a human who is asked and agrees. -/
def addRecording : List (RecordAction ℕ) :=
  [.next, .turn (.reply ⟨none, [⟨"c1", "add", []⟩]⟩), .turn .next, .turn .deliver,
    .turn (.file "r1"), .turn .deliver,
    .turn (.verdict (.returned ⟨"r1", "add", .obj [], .approved, 0, none, 0, none⟩)),
    .turn .deliver, .turn .invoke, .turn (.result (.value (.str "3"))), .turn .deliver, .turn .next,
    .turn (.reply ⟨some "It is 3.", []⟩), .turn .deliver, .turn .deliver, .finish]

/-- A replay of it in which the human refuses. -/
def addReplay : List (ReplayAction ℕ) :=
  [.next, .complete, .turn .next, .turn .deliver, .turn (.file "r2"), .turn .deliver,
    .turn (.verdict (.denied "no")), .turn .deliver, .turn .deliver, .turn .next, .complete,
    .turn .deliver, .turn .deliver, .finish]

/-- What `addRecording` records. -/
def addRecorded : RecordSession :=
  let _ := PyText.plain
  (Steps.run (RecordSession.step [⟨"add", .flag true⟩] (runAgent [⟨"add", .flag true⟩] 8 none true))
    (.init none ["1 + 2?"] []) addRecording).getD (.init none [] [])

/-- What `addReplay` makes of it. -/
def addReplayed : ReplaySession :=
  let _ := PyText.plain
  (Steps.run (ReplaySession.step (addRecorded.recorder.build none)
    ((addRecorded.recorder.build none).replayLoop 8 none false))
    (.init (addRecorded.recorder.build none)) addReplay).getD
      (.init (addRecorded.recorder.build none))

omit [PyText] in
theorem replay_diff_add : let _ := PyText.plain; let _ := PyEq.plain
    addReplayed.diff (addRecorded.recorder.build none) true = [] := by
  let _ := PyText.plain
  let _ := PyEq.plain
  have hrun : Steps.run (RecordSession.step [⟨"add", .flag true⟩]
      (runAgent [⟨"add", .flag true⟩] 8 none true)) (.init none ["1 + 2?"] []) addRecording
        = some addRecorded := rfl
  have hreplay : Steps.run (ReplaySession.step (addRecorded.recorder.build none)
      ((addRecorded.recorder.build none).replayLoop 8 none false))
      (.init (addRecorded.recorder.build none)) addReplay = some addReplayed := rfl
  have hdiff := (replay_diff hrun ⟨rfl, rfl⟩ (.inl (by decide)) (by decide) false rfl hreplay).2
    (.inr ⟨rfl, rfl⟩) true
  exact hdiff.2.mpr (by decide)

end

end Istos
