import Istos.Queue.DeadLetters
import Istos.Queue.Equiv.Board

/-!
# Replayed dead letters and workflows

The list of dead letters leaves out what a job carries of its workflow, and `enqueue` sends none, so
the job that comes of a dead letter has no continuation (`replayed_wf`).  Its delivery ends with an
ack and nothing else; that of the dead-lettered job would have advanced the workflow.  The two are
the same only for the last step of a chain (`replay_advances_iff`).
-/

namespace Istos

variable {T β : Type}

/-! ### What is read of a reply -/

section Replies

variable [Rounding]

theorem valid_optJson (s : Option String) : (optJson s).Valid := by
  cases s <;> trivial

theorem got_of_valid {j : Json} (h : j.Valid) (hno : isErrorPayload j = false) :
    queueGet j = .reply j := by
  rw [queueGet, Json.loads_dumps h]
  simp only [hno, Bool.false_eq_true, if_false]

/-- The worker reads what the owner hands out. -/
theorem resume_claiming {T β : Type} [Zero T] (w : Worker β) (r : JobRecord T) :
    (w.resume .claiming (queueGet r.reply) : Next T)
      = .enter (.working (ClaimReply.ofRecord r)) := by
  have hvalid : r.reply.Valid := by
    refine ⟨?_, trivial, trivial, trivial, valid_optJson _, trivial, valid_optJson _,
      valid_optJson _, valid_optJson _, trivial⟩
    show ["job_id", "attempt", "max_attempts", "last_error", "data", "wf", "correlation_id",
      "traceparent"].Nodup
    decide
  have hread : ClaimReply.ofJson r.reply = some (ClaimReply.ofRecord r) := by
    obtain ⟨id, data, state, attempts, maxAttempts, enqueuedAt, leaseUntil, notBefore, priority,
      seq, lastError, result, completedAt, wf, correlationId, traceparent⟩ := r
    cases lastError <;> cases wf <;> cases correlationId <;> cases traceparent <;> rfl
  rw [got_of_valid hvalid rfl]
  rw [Worker.resume, hread]
  rfl

omit [Rounding] in
/-- The client reads of a dead letter what the owner lists, and decodes the data. -/
theorem DeadLetter.ofJson_deadReply (ser : Serializer β) (r : JobRecord T) :
    DeadLetter.ofJson ser r.deadReply =
      (ser.deserialize r.data).map fun data => ⟨r.id, r.attempts, r.lastError, data⟩ := by
  have herror : getText r.deadReply "last_error" = some r.lastError := by
    obtain ⟨id, data, state, attempts, maxAttempts, enqueuedAt, leaseUntil, notBefore, priority,
      seq, lastError, result, completedAt, wf, correlationId, traceparent⟩ := r
    cases lastError <;> rfl
  have hdata : getText r.deadReply "data" = some (some (Base64.b64encode r.data)) := rfl
  have hid : getText r.deadReply "job_id" = some (some r.id) := rfl
  have hattempts : getInt r.deadReply "attempts" 0 = some r.attempts := rfl
  simp only [DeadLetter.ofJson, herror, hdata, hid, hattempts, Option.bind_eq_bind,
      Option.bind_some,
    Base64.b64decode_b64encode]
  cases ser.deserialize r.data <;> rfl

theorem valid_deadReply (dead : List (JobRecord T)) : (deadReply dead).Valid := by
  have hall : Json.ValidElements (dead.map JobRecord.deadReply) := by
    induction dead with
    | nil => trivial
    | cons r dead ih =>
      refine ⟨⟨?_, trivial, trivial, valid_optJson _, trivial, trivial⟩, ih⟩
      show ["job_id", "attempts", "last_error", "data"].Nodup
      decide
  exact ⟨List.nodup_singleton _, hall, trivial⟩

theorem readDeadLetters_deadReply (ser : Serializer β) (dead : List (JobRecord T)) :
    readDeadLetters ser (queueGet (deadReply dead)) = dead.mapM fun r =>
      (ser.deserialize r.data).map fun data => ⟨r.id, r.attempts, r.lastError, data⟩ := by
  rw [got_of_valid (valid_deadReply dead) rfl]
  show (dead.map JobRecord.deadReply).mapM (DeadLetter.ofJson ser) = _
  rw [List.mapM_map]
  exact congrArg (fun g => dead.mapM g) (funext fun r => DeadLetter.ofJson_deadReply ser r)

end Replies

/-! ### The job that comes of a dead letter -/

theorem mem_of_mem_rstripSlash {s : String} {c : Char} (h : c ∈ (rstripSlash s).toList) :
    c ∈ s.toList := by
  rw [rstripSlash, String.toList_ofList, List.mem_reverse] at h
  exact List.mem_reverse.mp ((List.dropWhile_suffix _).subset h)

/-- It carries no continuation. -/
theorem replay_add [Rounding] [LinearOrder T] [Zero T] {z : Zenoh} (hz : z.NoParameters)
    {f : FloatText T} {ser : Serializer β} {role : QueueRole T} (hqueue : '?' ∉ role.queue.toList)
    {s : QueueStore T} {jobId : String} {x : Readings T} {op : Op T}
    (h : replay z f ser role s jobId x = some op) :
    ∃ job : NewJob T, op = .add job x.jobId x.t₁ x.t₂ x.t₃ ∧ job.wf = none := by
  simp only [replay, Option.bind_eq_bind, Option.bind_eq_some_iff] at h
  obtain ⟨letters, -, letter, -, call, hcall, ⟨key, params⟩, hread, hop⟩ := h
  obtain ⟨payload, -, rfl⟩ := Option.map_eq_some_iff.mp hcall
  have hselector : (QueueCall.enqueue role.queue payload 0 0 none).selector f
      = Verb.enqueue.key (rstripSlash role.queue) := by
    have hparams : (QueueCall.enqueue role.queue payload (0 : T) 0 none).params f = [] := by
      simp [QueueCall.params]
    rw [QueueCall.selector, hparams]
    rfl
  have hbare : '?' ∉ (Verb.enqueue.key (rstripSlash role.queue)).toList := by
    rw [Verb.key, String.toList_append, String.toList_append, List.mem_append, List.mem_append]
    rintro ((hm | hm) | hm)
    · exact hqueue (mem_of_mem_rstripSlash hm)
    · revert hm
      decide
    · revert hm
      decide
  rw [hselector, Zenoh.read, Option.map_eq_some_iff] at hread
  obtain ⟨⟨key', raw⟩, hparse, heq⟩ := hread
  obtain rfl := hz _ key' raw hbare hparse
  obtain ⟨rfl, rfl⟩ := Prod.mk.inj heq
  obtain rfl := Option.some.inj hop
  exact ⟨_, rfl, rfl⟩

/-- The job of a claim has the continuation with which it was added. -/
theorem claimed_wf [LinearOrder T] [Zero T] [Add T] {c : QueueConfig T} {s : QueueStore T}
    {job : NewJob T} {id : String} {t₁ t₂ t₃ : T} {ops : List (Op T)} (hfresh : id ∉ addedIds ops)
    {now lease : T} {r' : JobRecord T}
    (hclaim :
      (((s.perform c (.add job id t₁ t₂ t₃)).store.run c ops).claim now lease).answer = some r')
    (hid : r'.id = id) : r'.wf = job.wf := by
  -- the job as it was when the claim looked for it
  have hwoken : ∃ q, ((s.perform c (.add job id t₁ t₂ t₃)).store.run c ops).job id = some q ∧
      r'.wf = q.wf := by
    generalize (s.perform c (.add job id t₁ t₂ t₃)).store.run c ops = s' at hclaim
    have hlapses : Board.Lapses now s'.job (s'.wake now).1.job := lapses_of_job (woken s' now).job
    rcases claim_cases s' now lease with ⟨h, -⟩ | ⟨pre, k, rest, p, -, -, hp, -, h⟩
    · rw [h] at hclaim
      cases hclaim
    · rw [h] at hclaim
      obtain rfl := Option.some.inj hclaim
      have hpid : p.id = k.id := QueueStore.id_of_job hp
      have hk : k.id = id := hpid.symm.trans hid
      rw [hk] at hp
      obtain ⟨q, hq, rfl | ⟨-, rfl⟩⟩ := aged_of_lapses hlapses hp
      · exact ⟨_, hq, rfl⟩
      · exact ⟨q, hq, (q.sameJob_lapse now).wf⟩
  obtain ⟨q, hq, hwf⟩ := hwoken
  obtain ⟨r, hr, hsame⟩ := sameJob_of_run hfresh hq
  have hadd : (s.perform c (.add job id t₁ t₂ t₃)).store.job = Function.update s.job id
      (some (job.record id (s.seq + 1) (startTime t₁ job.delay) t₂)) :=
    (job_offerReady _ _ _).trans (get?_put_eq_update s.jobs rfl)
  rw [hadd, Function.update_self] at hr
  rw [hwf, hsame.wf, ← Option.some.inj hr]
  rfl

/-! ### What the deliveries lead to -/

section

variable [Rounding] [Zero T] (w : Worker β)

theorem decodeWf_ne_empty {packed : String} {j : Json} (h : decodeWf packed = some j) :
    packed ≠ "" := by
  rintro rfl
  have hempty : decodeWf "" = none := rfl
  rw [hempty] at h
  cases h

/-- A job without a continuation leads to nothing. -/
theorem followOn_none {d : ClaimReply} (hd : d.wf = none) (result : Bytes) :
    (w.advance d result : Next T).followOn = none := by
  rw [Worker.advance, hd]
  rfl

/-- A job with queues to go leads to the next. -/
theorem followOn_chain {d : ClaimReply} {queue : String} {rest : List String}
    (hd : d.wf = chainWf (queue :: rest)) (result : Bytes) :
    (w.advance d result : Next T).followOn = some (.enqueue queue result 0 0 (chainWf rest)) := by
  obtain ⟨packed, hpacked, hdecode⟩ := chainWf_cons queue rest
  rw [Worker.advance, hd, hpacked]
  simp only [if_neg (decodeWf_ne_empty hdecode), hdecode]
  rfl

/-- A member of a chord leads to its report. -/
theorem followOn_chord {d : ClaimReply} {id : String} {index size : ℤ} {callback : Callback}
    (hd : d.wf = some (chordWf id index size callback)) (result : Bytes) :
    (w.advance d result : Next T).followOn
      = some (.chordReport w.queue id index size (Base64.b64encode result)) := by
  have hdecode := decodeWf_encodeWf (valid_chord id index size callback)
  rw [Worker.advance, hd]
  simp only [chordWf, if_neg (decodeWf_ne_empty hdecode), hdecode]
  rfl

end

/-- **Replaying a dead letter** as documented advances its workflow as the dead-lettered job would
have just when the workflow is a chain of which nothing is left. -/
theorem replay_advances_iff [Rounding] [LinearOrder T] [Zero T] [Add T] {z : Zenoh}
    (hz : z.NoParameters) (f : FloatText T) (ser : Serializer β) (role : QueueRole T)
    (hqueue : '?' ∉ role.queue.toList) {s s' : QueueStore T} {r r' : JobRecord T}
    {k : Continuation} (hk : r.wf = k.wf) {x : Readings T} {op : Op T}
    (hreplay : replay z f ser role s r.id x = some op) {ops : List (Op T)}
    (hfresh : x.jobId ∉ addedIds ops) {now : T}
    (hclaim : (((s'.perform role.config op).store.run role.config ops).claim now role.lease).answer
      = some r') (hid : r'.id = x.jobId) (w : Worker β) (result : Bytes) :
    (w.advance (ClaimReply.ofRecord r') result : Next T).followOn
      = (w.advance (ClaimReply.ofRecord r) result : Next T).followOn ↔ k = .chain [] := by
  obtain ⟨job, rfl, hjob⟩ := replay_add hz hqueue hreplay
  -- `dead_letters` has left the continuation out, so the new job has none
  have hwf : (ClaimReply.ofRecord r').wf = none := (claimed_wf hfresh hclaim hid).trans hjob
  rw [followOn_none w hwf]
  cases k with
  | chain rest =>
    cases rest with
    | nil => exact iff_of_true (followOn_none w (hk.trans chainWf_nil) result).symm rfl
    | cons queue rest =>
      rw [followOn_chain w hk]
      exact iff_of_false (Option.some_ne_none _).symm (by simp)
  | chord id index size callback =>
    rw [followOn_chord w hk]
    exact iff_of_false (Option.some_ne_none _).symm (by simp)

/-! ### A dead letter and its replay -/

section

/-- The owner of a queue whose jobs are tried once. -/
def triedOnce : QueueRole ℤ := ⟨"jobs", 10, 1, .defaults⟩

/-- A serializer that leaves the bytes alone. -/
def rawBytes : Serializer Bytes :=
  ⟨some, some, fun results input => (results.filterMap id).flatten ++ input⟩

/-- Times as integers. -/
def wholeSeconds : FloatText ℤ := ⟨intText, fun s => Decimal.number s.toList⟩

/-- A store whose one job, with the given continuation, is dead. -/
def buriedJob (wf : Option String) : QueueStore ℤ :=
  QueueStore.init.run .defaults [.add ⟨[], 1, 0, 0, wf, none, none⟩ "a" 0 0 0, .claim 0 10,
    .nack "a" none 0 (some 1) 1 1]

/-- The job, dead. -/
def buried (wf : Option String) : JobRecord ℤ :=
  ⟨"a", [], .dead, 1, 1, 0, 10, 0, 0, 1, none, none, 1, wf, none, none⟩

/-- What the owner draws and reads for the replay. -/
def replayReadings : Readings ℤ := ⟨"b", 2, 2, 2, 0, none, none⟩

/-- The job of the replay, claimed. -/
def replayed : JobRecord ℤ :=
  ⟨"b", [], .leased, 1, 1, 2, 13, 0, 0, 2, none, none, 0, none, none, none⟩

theorem buriedJob_rows (wf : Option String) : (buriedJob wf).jobs.rows = [buried wf] := by
  rfl

theorem buriedJob_deadLetters (wf : Option String) : (buriedJob wf).deadLetters = [buried wf] := by
  rw [QueueStore.deadLetters, buriedJob_rows]
  simp [buried]

theorem buriedJob_replay [Rounding] (wf : Option String) :
    replay Zenoh.literal wholeSeconds rawBytes triedOnce (buriedJob wf) "a" replayReadings
      = some (.add ⟨[], 1, 0, 0, none, none, none⟩ "b" 2 2 2) := by
  have hread : Zenoh.literal.read
      ((QueueCall.enqueue "jobs" [] 0 0 none : QueueCall ℤ).selector wholeSeconds)
        = some ("jobs/enqueue", []) := by
    show Zenoh.literal.read (buildSelector "jobs/enqueue" []) = _
    exact Zenoh.literal_splits.read (by decide) List.nodup_nil
  rw [replay, buriedJob_deadLetters, readDeadLetters_deadReply]
  have hletters : ([buried wf].mapM fun r => (rawBytes.deserialize r.data).map fun data =>
      (⟨r.id, r.attempts, r.lastError, data⟩ : DeadLetter Bytes)) = some [⟨"a", 1, none, []⟩] := rfl
  have hcall : (enqueueCall rawBytes triedOnce.queue [] : Option (QueueCall ℤ))
      = some (.enqueue "jobs" [] 0 0 none) := rfl
  simp only [hletters, Option.bind_eq_bind, Option.bind_some, List.find?_cons_of_pos, decide_true,
    hcall, hread]
  rfl

theorem buriedJob_claim (wf : Option String) :
    (((((buriedJob wf).perform triedOnce.config (.add ⟨[], 1, 0, 0, none, none,
      none⟩ "b" 2 2 2)).store.run
      triedOnce.config []).claim 3 triedOnce.lease).answer) = some replayed := by
  rfl

theorem literal_noParameters : Zenoh.literal.NoParameters := by
  intro selector key params hno h
  have hcut : Zenoh.cut '?' selector.toList = (selector.toList, none) := Zenoh.cut_of_notMem hno
  simp only [Zenoh.literal, hcut] at h
  exact (Prod.mk.inj (Option.some.inj h)).2.symm

/-- The last step of a chain may be replayed. -/
theorem replay_advances_last :
    let _ := Rounding.verbatim
    let w : Worker Bytes := ⟨"jobs", rawBytes⟩
    ((w.advance (ClaimReply.ofRecord replayed) [1] : Next ℤ).followOn
      = (w.advance (ClaimReply.ofRecord (buried none)) [1] : Next ℤ).followOn ↔
    Continuation.chain [] = Continuation.chain []) := by
  intro _ w
  have hwf : (buried none).wf = (Continuation.chain []).wf := rfl
  exact replay_advances_iff literal_noParameters wholeSeconds rawBytes triedOnce (by decide) hwf
    (buriedJob_replay none) (List.not_mem_nil) (buriedJob_claim none) rfl w [1]

/-- A member of a chord is replayed in vain: it would have been reported, and is not. -/
theorem replay_strands_chord :
    let _ := Rounding.verbatim
    let k : Continuation := .chord "c" 0 1 ⟨"reduce", []⟩
    let w : Worker Bytes := ⟨"jobs", rawBytes⟩
    buried k.wf ∈ (buriedJob k.wf).deadLetters ∧
      replay Zenoh.literal wholeSeconds rawBytes triedOnce (buriedJob k.wf) "a" replayReadings
        = some (.add ⟨[], 1, 0, 0, none, none, none⟩ "b" 2 2 2) ∧
      ((((buriedJob k.wf).perform triedOnce.config (.add ⟨[], 1, 0, 0, none, none, none⟩ "b" 2 2
        2)).store.run triedOnce.config []).claim 3 triedOnce.lease).answer = some replayed ∧
      (w.advance (ClaimReply.ofRecord (buried k.wf)) [1] : Next ℤ).followOn
        = some (.chordReport "jobs" "c" 0 1 (Base64.b64encode [1])) ∧
      (w.advance (ClaimReply.ofRecord replayed) [1] : Next ℤ).followOn
        ≠ (w.advance (ClaimReply.ofRecord (buried k.wf)) [1] : Next ℤ).followOn := by
  intro _ k w
  have hdead : buried k.wf ∈ (buriedJob k.wf).deadLetters := by
    rw [buriedJob_deadLetters]
    exact List.mem_singleton.mpr rfl
  have hreport : (w.advance (ClaimReply.ofRecord (buried k.wf)) [1] : Next ℤ).followOn
      = some (.chordReport "jobs" "c" 0 1 (Base64.b64encode [1])) := followOn_chord w rfl [1]
  have hnone : (w.advance (ClaimReply.ofRecord replayed) [1] : Next ℤ).followOn = none :=
    followOn_none w rfl [1]
  refine ⟨hdead, buriedJob_replay k.wf, buriedJob_claim k.wf, hreport, ?_⟩
  rw [hnone, hreport]
  exact (Option.some_ne_none _).symm

end

end Istos
