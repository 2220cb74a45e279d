import Istos.Queue.Equiv.Fence
import Istos.Queue.Equiv.Storage
import Istos.Queue.Worker

/-!
# The attempt budget

Three places decide between another try and the dead letters: `nack`, and the loop over expired
leases in `claim` and in `sweep`.  `JobRecord.budget` is the number of claims that can still return
a job; no call raises it, and every claim lowers it (`Move.budget`).  A restart does not touch it,
since the recovered job table is the one that was lost (`Node.tracked`).  `attempt_budget` puts this
together for an owner that is restarted at will.
-/

namespace Istos

variable {T : Type} [LinearOrder T] [Zero T] [Add T] {c : QueueConfig T}

/-! ### What is left of the budget -/

/-- How many more claims can return a job. -/
def JobRecord.budget (r : JobRecord T) : ℕ :=
  match r.state with
  | .ready => max (r.maxAttempts - r.attempts).toNat 1
  | .leased => (r.maxAttempts - r.attempts).toNat
  | .dead => 0
  | .done => 0

/-- How many more claims can return what is under an id. -/
def budgetOf (r? : Option (JobRecord T)) : ℕ := (r?.map JobRecord.budget).getD 0

omit [LinearOrder T] [Add T] in
theorem budget_lapse_le {now : T} {r : JobRecord T} (h : r.state = .leased) :
    (r.lapse now).budget ≤ r.budget := by
  unfold JobRecord.lapse
  by_cases hd : r.maxAttempts ≤ r.attempts
  · rw [if_pos hd]
    exact Nat.zero_le _
  · rw [if_neg hd]
    simp only [JobRecord.budget, h]
    omega

omit [Add T] in
theorem JobRecord.Aged.budget_le {now : T} {r r' : JobRecord T} (h : r.Aged now r') :
    r'.budget ≤ r.budget := by
  rcases h with rfl | ⟨hx, rfl⟩
  · exact le_refl _
  · exact budget_lapse_le (JobRecord.expired_iff.mp hx).1

omit [LinearOrder T] [Zero T] [Add T] in
theorem budget_lease {t : T} {r : JobRecord T} (h : r.state = .ready) :
    (r.lease t).budget < r.budget := by
  simp only [JobRecord.budget, JobRecord.lease, h]
  omega

/-- **Budget**: no call raises the budget of a job that is there, and a claim lowers it. -/
theorem Move.budget {id : String} {ev : Event T} {r? r?' : Option (JobRecord T)}
    (h : Move c id ev r? r?') (hadd : ev.effect id ≠ some .added) :
    budgetOf r?' ≤ budgetOf r? ∧
      ∀ q, ev.effect id = some (.claimed q) → budgetOf r?' < budgetOf r? := by
  have other : ∀ {e : Effect T}, ev.effect id = some e → (∀ q, e ≠ .claimed q) →
      ∀ {p : Prop} q, ev.effect id = some (.claimed q) → p := by
    intro e he hne p q hq
    rw [he, Option.some.injEq] at hq
    exact absurd hq (hne q)
  cases h with
  | stay _ quiet => exact ⟨le_refl _, fun q hq => by rw [quiet] at hq; cases hq⟩
  | lapsed quiet clock expired =>
    refine ⟨budget_lapse_le (JobRecord.expired_iff.mp expired).1, fun q hq => ?_⟩
    rw [quiet] at hq
    cases hq
  | added _ seq add => exact absurd (Event.effect_add add) hadd
  | @claimed _ t _ _ clock aged claimable effect =>
    have hlt := (budget_lease (t := t) (JobRecord.claimable_iff.mp claimable).1).trans_le
      aged.budget_le
    exact ⟨hlt.le, fun _ _ => hlt⟩
  | completed res t held effect => exact ⟨Nat.zero_le _, other effect (by simp)⟩
  | forgotten held effect => exact ⟨Nat.zero_le _, other effect (by simp)⟩
  | buried error t held last effect => exact ⟨Nat.zero_le _, other effect (by simp)⟩
  | @requeued r error t held more effect =>
    refine ⟨?_, other effect (by simp)⟩
    change (r.requeue error t).budget ≤ r.budget
    simp only [JobRecord.budget, JobRecord.requeue, held.leased]
    omega
  | purged sweep aged old =>
    obtain ⟨op, answer⟩ := ev
    obtain rfl : op = .sweep _ := sweep
    exact ⟨Nat.zero_le _, fun q hq => by cases hq⟩

/-- A run claims a job at most as often as its budget says. -/
theorem Board.Run.claims_le_budget {b b' : Board T} {hist : List (Event T)}
    (h : Board.Run c b hist b') {id : String} (hid : id ∉ added hist) :
    (Istos.claims id hist).length + budgetOf (b' id) ≤ budgetOf (b id) := by
  induction h with
  | nil b => simp [Istos.claims]
  | @cons b b' b'' ev evs hs hrun ih =>
    obtain ⟨hle, hlt⟩ := (hs id).budget (effect_ne_added hid)
    rw [added_cons, List.mem_append, not_or] at hid
    have hrest := ih hid.2
    rw [claims_cons, List.length_append]
    cases he : ev.effect id with
    | none =>
      have hnil : Istos.claims id [ev] = [] := claims_eq_nil (by simpa using he)
      rw [hnil, List.length_nil]
      omega
    | some e =>
      cases e with
      | claimed q =>
        have hone : (Istos.claims id [ev]).length = 1 := by simp [Istos.claims, he]
        have := hlt q he
        omega
      | _ =>
        have hnil : Istos.claims id [ev] = [] := by simp [Istos.claims, he]
        rw [hnil, List.length_nil]
        omega

/-- What an add leaves behind. -/
theorem Move.of_add {id : String} {ev : Event T} {r? r?' : Option (JobRecord T)} {job : NewJob T}
    {t₁ t₂ t₃ : T} (h : Move c id ev r? r?') (hadd : ev.1 = .add job id t₁ t₂ t₃) :
    ∃ seq, r?' = some (job.record id seq (startTime t₁ job.delay) t₂) := by
  have heff := Event.effect_add hadd
  cases h with
  | added _ seq add =>
    rw [hadd] at add
    injection add with h₁ _ h₂ h₃
    subst h₁ h₂ h₃
    exact ⟨seq, rfl⟩
  | purged sweep aged old =>
    rw [hadd] at sweep
    cases sweep
  | _ => simp_all

/-- A job is claimed at most `max_attempts` times, and once if that is not positive. -/
theorem Board.Run.claims_le {b : Board T} {hist : List (Event T)}
    (h : Board.Run c (fun _ => none) hist b) (hf : (added hist).Nodup) {id : String}
    {job : NewJob T} {t₁ t₂ t₃ : T} {answer : Answer T}
    (hadd : (.add job id t₁ t₂ t₃, answer) ∈ hist) :
    (Istos.claims id hist).length ≤ max job.maxAttempts.toNat 1 := by
  obtain ⟨pre, post, rfl⟩ := List.append_of_mem hadd
  have hfresh : Fresh (fun _ => none) (pre ++ (.add job id t₁ t₂ t₃, answer) :: post) :=
    ⟨hf, fun _ _ => rfl⟩
  obtain ⟨b₁, hpre, hrest⟩ := h.append_inv
  have hf₁ := hfresh.run hpre
  have hmem : id ∈ added ((.add job id t₁ t₂ t₃, answer) :: post) := by
    rw [added_cons]
    exact List.mem_append_left _ (by simp [Op.addedId?])
  have hpost : id ∉ added post := by
    have hnodup := hf₁.1
    rw [added_cons] at hnodup
    exact fun hin => (List.nodup_append.mp hnodup).2.2 id (by simp [Op.addedId?]) id hin rfl
  have hnone : id ∉ added pre := by
    intro hin
    have hsplit : added (pre ++ (.add job id t₁ t₂ t₃, answer) :: post)
        = added pre ++ added ((.add job id t₁ t₂ t₃, answer) :: post) := by
      simp [added, addedIds]
    rw [hsplit] at hf
    exact (List.nodup_append.mp hf).2.2 id hin id hmem rfl
  have hbefore : Istos.claims id pre = [] := claims_eq_nil (hpre.closed closed_none hnone).1
  cases hrest with
  | @cons _ b₂ _ _ _ hs hrun =>
    have hafter := hrun.claims_le_budget hpost
    have hsplit : Istos.claims id (pre ++ (.add job id t₁ t₂ t₃, answer) :: post)
        = Istos.claims id pre ++ Istos.claims id ((.add job id t₁ t₂ t₃, answer) :: post) :=
      List.filterMap_append
    have hadded : Istos.claims id [(.add job id t₁ t₂ t₃, answer)] = [] := by
      simp [Istos.claims, Event.effect]
    rw [hsplit, hbefore, claims_cons, hadded, List.nil_append, List.nil_append]
    refine (Nat.le_add_right _ _).trans (hafter.trans ?_)
    obtain ⟨seq, hseq⟩ := (hs id).of_add rfl
    rw [hseq]
    change max (job.maxAttempts - 0).toNat 1 ≤ max job.maxAttempts.toNat 1
    rw [sub_zero]

/-! ### The last claim -/

/-- A leased record is what the last claim of the job returned. -/
theorem Move.leased {id : String} {ev : Event T} {r? : Option (JobRecord T)} {q : JobRecord T}
    (h : Move c id ev r? (some q)) (hq : q.state = .leased) :
    ev.effect id = some (.claimed q) ∨ ev.effect id = none ∧ r? = some q := by
  cases h with
  | stay _ quiet => exact Or.inr ⟨quiet, rfl⟩
  | claimed clock aged claimable effect => exact Or.inl effect
  | lapsed quiet clock expired =>
    rw [JobRecord.state_lapse] at hq
    split at hq <;> cases hq
  | added _ seq add => cases hq
  | completed res t held effect => cases hq
  | buried error t held last effect => cases hq
  | requeued error t held more effect => cases hq

theorem Board.Run.last_claim {b b' : Board T} {hist : List (Event T)} (h : Board.Run c b hist b')
    {id : String} {past : List (JobRecord T)}
    (start : ∀ q, b id = some q → q.state = .leased → past.getLast? = some q) {q : JobRecord T}
    (hq : b' id = some q) (hstate : q.state = .leased) :
    (past ++ Istos.claims id hist).getLast? = some q := by
  induction h generalizing past with
  | nil b =>
    rw [Istos.claims, List.filterMap_nil, List.append_nil]
    exact start q hq hstate
  | @cons b b' b'' ev evs hs hrun ih =>
    rw [claims_cons, ← List.append_assoc]
    refine ih (fun p hp hpstate => ?_) hq
    have hmove := hs id
    rw [hp] at hmove
    rcases hmove.leased hpstate with heff | ⟨heff, hb⟩
    · have hone : Istos.claims id [ev] = [p] := by simp [Istos.claims, heff]
      rw [hone, List.getLast?_append, List.getLast?_singleton, Option.some_or]
    · have hnil : Istos.claims id [ev] = [] := claims_eq_nil (by simpa using heff)
      rw [hnil, List.append_nil]
      exact start p hb hpstate

/-- An accepted nack finds the record of the last claim, under its token, and buries the job when
that was the last attempt. -/
theorem Move.nacked {id : String} {ev : Event T} {r? r?' : Option (JobRecord T)} {d : Disposition}
    (h : Move c id ev r? r?') (hd : ev.effect id = some (.nacked d)) :
    ∃ r, r? = some r ∧ r.HeldBy ev.1 ∧ (d = .dead ↔ r.maxAttempts ≤ r.attempts) := by
  cases h with
  | @buried r error t held last effect =>
    rw [effect, Option.some.injEq, Effect.nacked.injEq] at hd
    exact ⟨r, rfl, held, iff_of_true hd.symm last⟩
  | @requeued r error t held more effect =>
    rw [effect, Option.some.injEq, Effect.nacked.injEq] at hd
    refine ⟨r, rfl, held, iff_of_false (fun hdead => ?_) (not_le.mpr more)⟩
    rw [hdead] at hd
    cases hd
  | added _ seq add =>
    rw [Event.effect_add add] at hd
    cases hd
  | purged sweep aged old =>
    obtain ⟨op, answer⟩ := ev
    obtain rfl : op = .sweep _ := sweep
    cases hd
  | _ => simp_all

/-- A nack of the holder is answered: `dead` when the context of the claim says that this is the
last attempt, and `requeued` otherwise. -/
theorem perform_nack_of_holder (c : QueueConfig T) (queue : String) {s : QueueStore T} {id : String}
    {r : JobRecord T} (hr : s.job id = some r) {attempt : Option ℤ}
    (hold : r.holdsLease attempt = true) (error : Option String) (delay t₁ t₂ : T) :
    (s.perform c (.nack id error delay attempt t₁ t₂)).answer
      = .nacked (some
        (if ((ClaimReply.ofRecord r).context queue).isLastAttempt then .dead else .requeued)) := by
  have hlast : ((ClaimReply.ofRecord r).context queue).isLastAttempt = true ↔
      r.maxAttempts ≤ r.attempts := decide_eq_true_iff
  simp only [QueueStore.perform]
  rcases nack_cases s id error delay attempt t₁ t₂ with
    ⟨hrefused, -⟩ | ⟨q, hq, -, hends⟩
  · rw [hrefused r hr] at hold
    cases hold
  · obtain rfl := Option.some.inj (hr.symm.trans hq)
    rcases hends with ⟨hle, hnack⟩ | ⟨hlt, hnack⟩
    · rw [hnack, if_pos (hlast.mpr hle)]
    · rw [hnack, if_neg (mt hlast.mp (not_le.mpr hlt))]

/-! ### Restarts -/

/-- The call of an action, if it is one. -/
def NodeAction.op? : NodeAction T → Option (Op T)
  | .call op => some op
  | .restart _ => none

theorem Board.Run.append {b b' b'' : Board T} {hist hist' : List (Event T)}
    (h : Board.Run c b hist b') (h' : Board.Run c b' hist' b'') :
    Board.Run c b (hist ++ hist') b'' := by
  induction h with
  | nil b => exact h'
  | cons hs hrun ih => exact .cons hs (ih h')

/-- **A restart is invisible** in the job table: an owner whose storage mirrors its store goes
through the same steps as one that is never restarted. -/
theorem Node.run_board (c : QueueConfig T) {n : Node T} (h : Mirrors n.storage n.store)
    (actions : List (NodeAction T)) :
    Mirrors (n.run c actions).storage (n.run c actions).store ∧
      ∃ hist, (n.run c actions).log = n.log ++ hist ∧
        hist.map Prod.fst = actions.filterMap NodeAction.op? ∧
        Board.Run c n.store.job hist (n.run c actions).store.job := by
  induction actions generalizing n with
  | nil => exact ⟨h, [], (List.append_nil _).symm, rfl, .nil _⟩
  | cons action actions ih =>
    cases action with
    | call op =>
      obtain ⟨hm, hist, hlog, hops, hrun⟩ := ih (n := n.step c (.call op)) (perform_mirrors c h op)
      refine ⟨hm, (op, (n.store.perform c op).answer) :: hist, ?_, ?_, ?_⟩
      · rw [Node.run, List.foldl_cons, ← Node.run, hlog]
        exact List.append_assoc _ _ _
      · rw [List.map_cons, hops]
        rfl
      · exact .cons (perform_step c n.store op) hrun
    | restart clock =>
      obtain ⟨hjob, hm'⟩ := load_fresh_mirrors c h clock
      obtain ⟨hm, hist, hlog, hops, hrun⟩ := ih (n := n.step c (.restart clock)) hm'
      refine ⟨hm, hist, hlog, hops, ?_⟩
      have hstart : (n.step c (.restart clock)).store.job = n.store.job := hjob
      exact hstart ▸ hrun

/-- A job leaves the table by an accepted ack, or by a sweep after its TTL. -/
theorem Move.gone {id : String} {ev : Event T} {r : JobRecord T} (h : Move c id ev (some r) none) :
    ev.effect id = some .acked ∨
      ∃ now r', ev.1 = .sweep now ∧ r.Aged now r' ∧ (r'.stale c now ∨ r'.buried c now) := by
  cases h with
  | forgotten held effect => exact Or.inl effect
  | @purged now _ r' sweep aged old => exact Or.inr ⟨now, r', sweep, aged, old⟩

/-- **The attempt budget**, for an owner that is restarted between calls:

* a job is returned by at most `max_attempts` claims;
* a nack of the holder of the last claim, or without a token while that holds the job, is answered
  `dead` when the context built from that claim says that it is the last attempt, and `requeued`
  otherwise; and no other nack is accepted;
* a dead job is not claimed, acked or nacked again;
* a job leaves the table by an accepted ack, or by a sweep that finds it completed or dead past its
  TTL. -/
theorem attempt_budget (c : QueueConfig T) (queue : String) (actions : List (NodeAction T))
    (fresh : (addedIds (actions.filterMap NodeAction.op?)).Nodup) :
    (∀ job id t₁ t₂ t₃ answer,
      (.add job id t₁ t₂ t₃, answer) ∈ (Node.init.run c actions).log → 1 ≤ job.maxAttempts →
        ((claims id (Node.init.run c actions).log).length : ℤ) ≤ job.maxAttempts) ∧
    (∀ pre id error delay attempt t₁ t₂ d post,
      (Node.init.run c actions).log
          = pre ++ (.nack id error delay attempt t₁ t₂, .nacked (some d)) :: post →
        ∃ r, (claims id pre).getLast? = some r ∧ (∀ k, attempt = some k → r.attempts = k) ∧
          (d = .dead ↔ ((ClaimReply.ofRecord r).context queue).isLastAttempt = true)) ∧
    (∀ id r error delay attempt t₁ t₂,
      (Node.init.run c actions).store.job id = some r → r.state = .leased →
      (∀ k, attempt = some k → r.attempts = k) →
        (claims id (Node.init.run c actions).log).getLast? = some r ∧
        ((Node.init.run c actions).store.perform c (.nack id error delay attempt t₁ t₂)).answer
          = .nacked (some
            (if ((ClaimReply.ofRecord r).context queue).isLastAttempt then .dead else .requeued))) ∧
    (∀ before after id r, actions = before ++ after →
      (Node.init.run c before).store.job id = some r → r.state = .dead →
        ∃ hist, (Node.init.run c actions).log = (Node.init.run c before).log ++ hist ∧
          ∀ ev ∈ hist, ev.effect id = none) ∧
    ∀ before action after id r, actions = before ++ action :: after →
      (Node.init.run c before).store.job id = some r →
      ((Node.init.run c before).step c action).store.job id = none →
        ∃ op, action = .call op ∧
          (Event.effect id (op, ((Node.init.run c before).store.perform c op).answer)
              = some .acked ∨
            ∃ now r', op = .sweep now ∧ r.Aged now r' ∧ (r'.stale c now ∨ r'.buried c now)) := by
  obtain ⟨-, hist, hlog, hops, hrun⟩ := Node.run_board c (n := Node.init) mirrors_init actions
  have hlog' : (Node.init.run c actions).log = hist := hlog
  have hnodup : (added hist).Nodup := by
    rw [added, hops]
    exact fresh
  rw [hlog']
  -- a leased record is the answer to the last claim of its job
  have hlast : ∀ {pre b id r}, Board.Run c (Node.init : Node T).store.job pre b → b id = some r →
      r.state = .leased → (claims id pre).getLast? = some r := by
    intro pre b id r hpre hr hleased
    have hnone : ∀ q : JobRecord T, none = some q → q.state = .leased → [].getLast? = some q := by
      intro q hq
      cases hq
    exact hpre.last_claim hnone hr hleased
  refine ⟨?_, ?_, ?_, ?_, ?_⟩
  · intro job id t₁ t₂ t₃ answer hadd hpos
    have hle := Board.Run.claims_le hrun hnodup hadd
    omega
  -- a nack that was accepted came from the holder of the lease
  · rintro pre id error delay attempt t₁ t₂ d post hsplit
    rw [hsplit] at hrun
    obtain ⟨b₁, hpre, hrest⟩ := hrun.append_inv
    cases hrest with
    | cons hs hpost =>
      obtain ⟨r, hr, held, hd⟩ := (hs id).nacked (if_pos rfl)
      exact ⟨r, hlast hpre hr held.leased, held.token, hd.trans decide_eq_true_iff.symm⟩
  -- and the holder's nack is not refused
  · intro id r error delay attempt t₁ t₂ hr hleased htoken
    exact ⟨hlast hrun hr hleased,
      perform_nack_of_holder c queue hr (JobRecord.holdsLease_iff.mpr ⟨hleased, htoken⟩) ..⟩
  -- a dead record is left alone, by restarts too
  · rintro before after id r rfl hr hdead
    have hm := (Node.run_board c (n := Node.init) mirrors_init before).1
    obtain ⟨-, hist', hlog₁, hops₁, hrun₁⟩ := Node.run_board c hm after
    obtain ⟨-, hist₀, hlog₀, hops₀, hrun₀⟩ := Node.run_board c (n := Node.init) mirrors_init before
    have hboth : Node.init.run c (before ++ after) = (Node.init.run c before).run c after :=
      List.foldl_append
    have hhist : hist = hist₀ ++ hist' := by
      rw [← hlog', hboth, hlog₁, hlog₀]
      rfl
    refine ⟨hist', by rw [← hlog', hboth, hlog₁], ?_⟩
    have hfresh : Fresh (fun _ => none) (hist₀ ++ hist') :=
      ⟨hhist ▸ hnodup, fun _ _ => rfl⟩
    have hid : id ∉ added hist' := (hfresh.run hrun₀).not_mem hr
    refine (hrun₁.closed (fun q hq => Or.inr ?_) hid).1
    rw [hr] at hq
    exact Option.some.inj hq ▸ hdead
  -- only an ack and a sweep remove a record: a restart loads what was stored
  · rintro before action after id r - hr hnone
    have hm := (Node.run_board c (n := Node.init) mirrors_init before).1
    cases action with
    | restart clock =>
      obtain ⟨hjob, -⟩ := load_fresh_mirrors c hm clock
      have hsome : ((Node.init.run c before).step c (.restart clock)).store.job id = some r := by
        rw [← hr, ← hjob]
        rfl
      rw [hnone] at hsome
      cases hsome
    | call op =>
      have hmove := perform_step c (Node.init.run c before).store op id
      have hnone' : ((Node.init.run c before).store.perform c op).store.job id = none := hnone
      rw [hr, hnone'] at hmove
      exact ⟨op, rfl, hmove.gone⟩

/-- A job with two attempts: its first lease runs out while the owner restarts, and the nack of its
second claim buries it. -/
def lastAttempt : List (NodeAction ℤ) :=
  [.call (.add ⟨[], 2, 0, 0, none, none, none⟩ "a" 0 0 0), .call (.claim 0 10),
    .restart fun _ => 20, .call (.claim 20 10), .call (.nack "a" none 0 (some 2) 21 21),
    .call (.claim 40 10)]

theorem attempt_budget_lastAttempt :
    ((claims "a" (Node.init.run .defaults lastAttempt).log).length : ℤ) ≤ 2 :=
  (attempt_budget .defaults "jobs" lastAttempt (by decide)).1 ⟨[], 2, 0, 0, none, none, none⟩ "a"
    0 0 0 (.added "a") (by decide) (by decide)

end Istos
