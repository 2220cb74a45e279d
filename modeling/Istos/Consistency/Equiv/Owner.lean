import Istos.Consistency.Equiv.Nodes
import Istos.Consistency.Equiv.Stored
import Istos.Consistency.Tenants

/-!
# Who owns a claim

A record has no owner: whoever releases or completes a key ends the claim that holds it.
`claim_ownership` says exactly when this does no harm: over every run of an in-memory ledger, of a
Redis server and of a database, a claim ends only by the lapse of its lease or by its own caller
just when no caller releases or completes a key while another one has a live lease on it.
-/

namespace Istos

open Lease

namespace LedgerOp

variable {T : Type}

/-- The call releases or completes a key. -/
def Ends (key : String) : LedgerOp T → Prop
  | release k => k = key
  | mark k _ => k = key
  | _ => False

end LedgerOp

/-! ### One record under a call -/

section

variable {C T S : Type} [DecidableEq C] [LinearOrder S] {key : String} {now : S}
  {lapse : T → WithTop S} {stored : Value → Value} {keeps : Bool}

/-- A call that neither claims nor ends a key. -/
theorem afterCall_of_other {op : LedgerOp T} (hclaim : ∀ l, op ≠ .claim key l)
    (hends : ¬ op.Ends key)
    (st : Status S Value) : afterCall key now lapse stored keeps op st = st := by
  cases op with
  | claim k l =>
    have hk : ¬ k = key := by
      rintro rfl
      exact hclaim l rfl
    rw [afterCall, if_neg hk]
  | release k =>
    have hk : ¬ k = key := hends
    rw [afterCall, if_neg hk]
  | mark k v =>
    have hk : ¬ k = key := hends
    rw [afterCall, if_neg hk]
  | _ => rfl

omit [LinearOrder S] in
theorem standingAfter_of_other {op : LedgerOp T} (hclaim : ∀ l, op ≠ .claim key l)
    (hends : ¬ op.Ends key) (c : C) (answer : LedgerAnswer) (standing : List (C × WithTop S)) :
    standingAfter key c op answer lapse standing = standing := by
  cases op with
  | claim k l =>
    have hk : ¬ k = key := by
      rintro rfl
      exact hclaim l rfl
    cases answer with
    | claim d =>
      obtain ⟨state, result⟩ := d
      cases state with
      | claimed => exact if_neg hk
      | _ => rfl
    | _ => rfl
  | release k =>
    have hk : ¬ k = key := hends
    cases answer with
    | unit => exact if_neg hk
    | _ => rfl
  | mark k v =>
    have hk : ¬ k = key := hends
    cases answer with
    | unit => exact if_neg hk
    | _ => rfl
  | _ => rfl

/-- **A claim** takes nothing from anybody. -/
theorem owned_claim {st : Status S Value} {standing : List (C × WithTop S)}
    (h : Lease.Owned st now standing) (c : C) (l : T) :
    Lease.Owned (afterCall key now lapse stored keeps (.claim key l) st) now
      (standingAfter key c (.claim key l) (.claim (claimAnswer now st)) lapse standing) := by
  rw [afterCall, if_pos rfl]
  by_cases hgrants : st.grants now = true
  · have hanswer : claimAnswer now st = { state := .claimed } := by
      cases st with
      | free => rfl
      | held u => exact claimAnswer_of_le (of_decide_eq_true hgrants)
      | done v => cases hgrants
    rw [Status.claim_of_grants hgrants, hanswer]
    show Lease.Owned _ now (if key = key then _ else _)
    rw [if_pos rfl]
    exact h.grant hgrants c (lapse l)
  · have hrefuses := Bool.eq_false_iff.mpr hgrants
    have hsame : standingAfter key c (.claim key l) (.claim (claimAnswer now st)) lapse standing
        = standing := by
      cases st with
      | free => cases hrefuses
      | held u =>
        rw [claimAnswer_of_lt (not_le.mp (of_decide_eq_false hrefuses))]
        rfl
      | done v => rfl
    rw [Status.claim_of_refuses hrefuses, hsame]
    exact h

/-- **A release or a completion** is harmless just when nobody else has a live lease. -/
theorem owned_ends_iff {st : Status S Value} {standing : List (C × WithTop S)}
    (h : Lease.Owned st now standing) {op : LedgerOp T} (hop : op.Ends key) (c : C) :
    Lease.Owned (afterCall key now lapse stored keeps op st) now
      (standingAfter key c op .unit lapse standing) ↔ ¬ Lease.Disturbs c now standing := by
  have hstanding : standingAfter key c op .unit lapse standing = leave c standing := by
    cases op with
    | release k => exact if_pos hop
    | mark k v => exact if_pos hop
    | _ => exact absurd hop id
  rw [hstanding]
  apply h.leave_iff c
  rintro u rfl hlive u'
  cases op with
  | release k =>
    have hk : k = key := hop
    rw [afterCall, if_pos hk, Status.grants_held_of_lt hlive, Bool.and_false,
      if_neg Bool.false_ne_true]
    exact Status.free_ne_held
  | mark k v =>
    have hk : k = key := hop
    rw [afterCall, if_pos hk]
    exact Status.done_ne_held
  | _ => exact absurd hop id

end

/-! ### The in-memory ledger -/

namespace InMemoryStorage

variable {C T : Type} [DecidableEq C] [LinearOrder T] [Zero T] [Add T]

/-- **A held claim belongs to its caller.** -/
def Owned (m : Tenants (InMemoryStorage T) C T) : Prop :=
  ∀ key, Lease.Owned (m.store.status key) m.clock (m.standing key)

/-- The call releases or completes a key on which another caller has a live lease. -/
def Disturbs (m : Tenants (InMemoryStorage T) C T) (a : Tenancy C T) : Prop :=
  ∃ key, a.op.Ends key ∧ Lease.Disturbs a.caller a.readings.monotonic (m.standing key)

theorem owned_tenancy_iff (m : Tenants (InMemoryStorage T) C T) (a : Tenancy C T)
    (m' : Tenants (InMemoryStorage T) C T) (hstep : tenancy m a = some m') (h : Owned m) :
    Owned m' ↔ ¬ Disturbs m a := by
  obtain ⟨c, op, x⟩ := a
  rw [tenancy] at hstep
  split at hstep
  · rename_i hclock
    obtain rfl := Option.some.inj hstep
    have hbefore : ∀ key, Lease.Owned (m.store.status key) x.monotonic (m.standing key) :=
      fun key => (h key).later hclock.1
    have hends : ∀ key, op.Ends key →
        (Lease.Owned ((m.store.perform op x).1.status key) (later op x)
          (standingAfter key c op (m.store.perform op x).2
            (fun l => ((x.monotonic' + l : T) : WithTop T)) (m.standing key))
          ↔ ¬ Lease.Disturbs c x.monotonic (m.standing key)) := by
      intro key hop
      have hanswer : (m.store.perform op x).2 = .unit ∧ later op x = x.monotonic := by
        cases op with
        | release k => exact ⟨rfl, rfl⟩
        | mark k v => exact ⟨rfl, rfl⟩
        | _ => exact absurd hop id
      rw [status_perform, hanswer.1, hanswer.2]
      exact owned_ends_iff (hbefore key) hop c
    constructor
    · rintro hafter ⟨key, hop, hdisturbs⟩
      exact (hends key hop).mp (hafter key) hdisturbs
    · intro hno key
      by_cases hop : op.Ends key
      · exact (hends key hop).mpr fun hdisturbs => hno ⟨key, hop, hdisturbs⟩
      · have hlater : x.monotonic ≤ later op x := by
          cases op with
          | claim k l => exact hclock.2
          | _ => exact le_rfl
        show Lease.Owned ((m.store.perform op x).1.status key) (later op x) (standingAfter ..)
        rw [status_perform]
        by_cases hclaim : ∃ l, op = .claim key l
        · obtain ⟨l, rfl⟩ := hclaim
          rw [claim_answer]
          exact (owned_claim (hbefore key) c l).later hlater
        · have hother : ∀ l, op ≠ .claim key l := fun l heq => hclaim ⟨l, heq⟩
          rw [afterCall_of_other hother hop, standingAfter_of_other hother hop]
          exact (hbefore key).later hlater
  · cases hstep

end InMemoryStorage

/-! ### The Redis server -/

namespace RedisStorage

variable {C T : Type} [DecidableEq C] [Rounding] {c : RedisConfig T}

/-- A key has one record. -/
theorem Has.unique {db : RedisDb} {key : String} {st st' : Status ℤ Value} (h : Has c db key st)
    (h' : Has c db key st') : st = st' := by
  cases st with
  | free =>
    cases st' with
    | free => rfl
    | held u =>
      obtain ⟨t, -, hcell⟩ := h'
      cases hcell.symm.trans h
    | done v =>
      obtain ⟨body, -, hcell⟩ := h'
      cases hcell.symm.trans h
  | held u =>
    obtain ⟨t, rfl, hcell⟩ := h
    cases st' with
    | free => cases hcell.symm.trans h'
    | held u' =>
      obtain ⟨t', rfl, hcell'⟩ := h'
      cases hcell.symm.trans hcell'
      rfl
    | done v =>
      obtain ⟨body, -, hcell'⟩ := h'
      cases hcell.symm.trans hcell'
  | done v =>
    obtain ⟨body, rfl, hcell⟩ := h
    cases st' with
    | free => cases hcell.symm.trans h'
    | held u' =>
      obtain ⟨t', -, hcell'⟩ := h'
      cases hcell.symm.trans hcell'
    | done v' =>
      obtain ⟨body', rfl, hcell'⟩ := h'
      cases hcell.symm.trans hcell'
      rfl

/-- A call that is refused changes no grant. -/
theorem standing_of_not_accepts {db : RedisDb} {op : LedgerOp T} (x : Clock T)
    (hop : ¬ Accepts c op) (h : ∀ key, ∃ st, Has c db key st) (key : String) (d : C)
    (lapse : T → WithTop ℤ) (standing : List (C × WithTop ℤ)) :
    standingAfter key d op (perform c db op x).2 lapse standing = standing := by
  cases op with
  | claim k l =>
    obtain ⟨st, hst⟩ := h k
    by_cases hgrants : st.grants x.server = true
    · have hraised : (perform c db (.claim k l) x).2 = .raised := by
        show ((claimProcessed c db x.server k l).2.map LedgerAnswer.claim).getD .raised = _
        unfold claimProcessed RedisDb.claimLua
        rcases hst.get c x.server with ⟨-, hget⟩ | ⟨u, rfl, hlt, -⟩ | ⟨body, rfl, -⟩
        · rw [hget]
          simp only [if_pos (not_lt.mp hop)]
          rfl
        · rw [Status.grants_held_of_lt hlt] at hgrants
          cases hgrants
        · cases hgrants
      rw [hraised]
      rfl
    · rw [claim_answer c hst x fun hg => absurd hg hgrants]
      have hrefuses := Bool.eq_false_iff.mpr hgrants
      cases st with
      | free => cases hrefuses
      | held u =>
        rw [claimAnswer_of_lt (not_le.mp (of_decide_eq_false hrefuses))]
        rfl
      | done v => rfl
  | mark k v =>
    cases v with
    | json j => exact absurd trivial hop
    | bytes data => rfl
  | _ => exact absurd trivial hop

/-- **A held claim belongs to its caller.** -/
def Owned (c : RedisConfig T) (m : Tenants RedisDb C ℤ) : Prop :=
  ∀ key, ∃ st, Has c m.store key st ∧ Lease.Owned st m.clock (m.standing key)

/-- The call releases or completes a key on which another caller has a live lease.  A result that is
not JSON is refused. -/
def Disturbs (c : RedisConfig T) (m : Tenants RedisDb C ℤ) (a : Tenancy C T) : Prop :=
  Accepts c a.op ∧ ∃ key, a.op.Ends key ∧
    Lease.Disturbs a.caller a.readings.server (m.standing key)

theorem owned_tenancy_iff (m : Tenants RedisDb C ℤ) (a : Tenancy C T) (m' : Tenants RedisDb C ℤ)
    (hstep : tenancy c m a = some m') (h : Owned c m) : Owned c m' ↔ ¬ Disturbs c m a := by
  obtain ⟨d, op, x⟩ := a
  rw [tenancy] at hstep
  split at hstep
  · rename_i hclock
    obtain rfl := Option.some.inj hstep
    by_cases haccepts : Accepts c op
    · have hends : ∀ key, op.Ends key → ∀ st, Has c m.store key st →
          Lease.Owned st m.clock (m.standing key) →
          (Lease.Owned
            (afterCall key x.server
              (fun l => ((x.server + c.millis l + 1 : ℤ) : WithTop ℤ)) resultBack true op st)
            x.server
            (standingAfter key d op (perform c m.store op x).2
              (fun l => ((x.server + c.millis l + 1 : ℤ) : WithTop ℤ)) (m.standing key))
            ↔ ¬ Lease.Disturbs d x.server (m.standing key)) := by
        intro key hop st hst howned
        have hanswer : (perform c m.store op x).2 = .unit := by
          cases op with
          | release k => rfl
          | mark k v =>
            cases v with
            | json j => rfl
            | bytes data => exact absurd haccepts id
          | _ => exact absurd hop id
        rw [hanswer]
        exact owned_ends_iff (howned.later hclock) hop d
      constructor
      · rintro hafter ⟨-, key, hop, hdisturbs⟩
        obtain ⟨st, hst, howned⟩ := h key
        obtain ⟨st', hst', howned'⟩ := hafter key
        have hperform := has_perform c hst x haccepts
        rw [hst'.unique hperform] at howned'
        exact (hends key hop st hst howned).mp howned' hdisturbs
      · intro hno key
        obtain ⟨st, hst, howned⟩ := h key
        refine ⟨_, has_perform c hst x haccepts, ?_⟩
        by_cases hop : op.Ends key
        · exact (hends key hop st hst howned).mpr fun hdisturbs =>
            hno ⟨haccepts, key, hop, hdisturbs⟩
        · show Lease.Owned _ x.server (standingAfter ..)
          by_cases hclaim : ∃ l, op = .claim key l
          · obtain ⟨l, rfl⟩ := hclaim
            rw [claim_answer c hst x fun _ => haccepts]
            exact owned_claim (howned.later hclock) d l
          · have hother : ∀ l, op ≠ .claim key l := fun l heq => hclaim ⟨l, heq⟩
            rw [afterCall_of_other hother hop, standingAfter_of_other hother hop]
            exact howned.later hclock
    · refine iff_of_true (fun key => ?_) fun hdisturbs => haccepts hdisturbs.1
      obtain ⟨st, hst, howned⟩ := h key
      refine ⟨st, ?_, ?_⟩
      · show Has c (perform c m.store op x).1 key st
        rw [perform_of_not_accepts c x haccepts]
        exact hst
      · show Lease.Owned st x.server (standingAfter ..)
        rw [standing_of_not_accepts x haccepts fun k => (h k).imp fun st hst => hst.1]
        exact howned.later hclock
  · cases hstep

end RedisStorage

/-! ### All three -/

namespace InMemoryStorage

/-- An empty ledger that nobody has called. -/
def tenants (C T : Type) (clock : T) : Tenants (InMemoryStorage T) C T := ⟨init, clock, fun _ => []⟩

end InMemoryStorage

namespace RedisStorage

/-- An empty server that nobody has called. -/
def tenants (C : Type) (clock : ℤ) : Tenants RedisDb C ℤ := ⟨.init, clock, fun _ => []⟩

end RedisStorage

/-- **A claim ends only by the lapse of its own lease, or by its own caller's release or
completion**, in a ledger in memory, on a Redis server and in a database, just when no release and
no completion comes while another caller has a live lease on the key. -/
theorem claim_ownership {C T : Type} [DecidableEq C] [LinearOrder T] [Zero T] [Add T] [Rounding]
    (c : RedisConfig T) :
    (∀ (clock : T) (as : List (Tenancy C T)) (m : Tenants (InMemoryStorage T) C T),
      Steps.run InMemoryStorage.tenancy (InMemoryStorage.tenants C T clock) as = some m →
      ((∀ pre, pre <+: as → ∀ m', Steps.run InMemoryStorage.tenancy
          (InMemoryStorage.tenants C T clock) pre = some m' → InMemoryStorage.Owned m') ↔
        Steps.Along InMemoryStorage.tenancy (fun m a => ¬ InMemoryStorage.Disturbs m a)
          (InMemoryStorage.tenants C T clock) as)) ∧
    (∀ (clock : ℤ) (as : List (Tenancy C T)) (m : Tenants RedisDb C ℤ),
      Steps.run (RedisStorage.tenancy c) (RedisStorage.tenants C clock) as = some m →
      ((∀ pre, pre <+: as → ∀ m', Steps.run (RedisStorage.tenancy c)
          (RedisStorage.tenants C clock) pre = some m' → RedisStorage.Owned c m') ↔
        Steps.Along (RedisStorage.tenancy c) (fun m a => ¬ RedisStorage.Disturbs c m a)
          (RedisStorage.tenants C clock) as)) ∧
    ∀ (clock : T) (as : List (NodesAction C T)) (m : Nodes C T),
      Steps.run Nodes.step (Nodes.init clock) as = some m →
      ((∀ pre, pre <+: as → ∀ m', Steps.run Nodes.step (Nodes.init clock) pre = some m' →
          m'.Owned) ↔
        Steps.Along Nodes.step (fun m a => ¬ m.Disturbs a) (Nodes.init clock) as) := by
  refine ⟨fun clock as m hrun => ?_, fun clock as m hrun => ?_, fun clock as m hrun => ?_⟩
  · apply Steps.forall_prefix_iff InMemoryStorage.owned_tenancy_iff hrun
    exact fun key => owned_nil _ _
  · apply Steps.forall_prefix_iff RedisStorage.owned_tenancy_iff hrun
    exact fun key => ⟨.free, rfl, owned_nil _ _⟩
  -- ownership is not preserved by itself: the nodes have to be sound as well
  · have hsound : ∀ (pre : List (NodesAction C T)) (m' : Nodes C T),
        Steps.run Nodes.step (Nodes.init clock) pre = some m' → m'.Sound :=
      fun pre m' hpre => Nodes.sound_run (Nodes.sound_init clock) hpre
    have hexact := Steps.forall_prefix_iff Nodes.sound_owned_step_iff hrun
      ⟨Nodes.sound_init clock, Nodes.owned_init clock⟩
    rw [← hexact]
    constructor
    · exact fun h pre hpre m' hm' => ⟨hsound pre m' hm', h pre hpre m' hm'⟩
    · exact fun h pre hpre m' hm' => (h pre hpre m' hm').2

/-! ### A caller whose lease lapsed -/

/-- A claim lasts ten seconds, the key is taken over, and the first caller releases it: a third one
is granted it, with the second one's lease live. -/
def lateRelease : List (Tenancy ℕ ℤ) :=
  [⟨0, .claim "k" 10, ⟨.nan, 0, 0, 0, 0, 0⟩⟩, ⟨1, .claim "k" 10, ⟨.nan, 0, 0, 10, 10, 10001⟩⟩,
    ⟨0, .release "k", ⟨.nan, 0, 0, 11, 11, 11000⟩⟩,
    ⟨2, .claim "k" 10, ⟨.nan, 0, 0, 12, 12, 12000⟩⟩]

/-- The same, statement by statement. -/
def lateDeletion : List (NodesAction ℕ ℤ) :=
  [.claim 0 "k" 10, .proceed 0, .proceed 0, .tick 10, .claim 1 "k" 10, .proceed 1, .proceed 1,
    .proceed 1, .proceed 1, .tick 11, .release 0 "k", .proceed 0, .tick 12, .claim 2 "k" 10,
    .proceed 2, .proceed 2]

/-- The first caller alone: its own release disturbs nobody. -/
theorem claim_ownership_alone :
    let _ := Rounding.verbatim
    ∃ m, Steps.run InMemoryStorage.tenancy (InMemoryStorage.tenants ℕ ℤ 0) (lateRelease.take 2) =
      some m ∧
      InMemoryStorage.Owned m := by
  intro _
  have hrun : ∃ m, Steps.run InMemoryStorage.tenancy (InMemoryStorage.tenants ℕ ℤ 0)
      (lateRelease.take 2) = some m := ⟨_, rfl⟩
  obtain ⟨m, hrun⟩ := hrun
  have hexact := (claim_ownership (C := ℕ) (T := ℤ) ⟨"istos:",
    (1000 * ·)⟩).1 0 (lateRelease.take 2) m hrun
  refine ⟨m, hrun, hexact.mpr ?_ _ (List.prefix_refl _) m hrun⟩
  refine ⟨?_, ?_, trivial⟩
  · rintro ⟨key, hends, -⟩
    exact hends
  · rintro ⟨key, hends, -⟩
    exact hends

/-- A grant under a live lease that another one came after. -/
theorem not_owned {C T V : Type} [LinearOrder T] {st : Status T V} {now : T}
    {standing : List (C × WithTop T)} {p q : C × WithTop T} (hp : p ∈ standing)
    (hlive : (now : WithTop T) < p.2) (hhead : standing.head? = some q) (hne : p ≠ q) :
    ¬ Lease.Owned st now standing :=
  fun h => hne (Option.some.inj ((h p hp hlive).2.symm.trans hhead))

/-- **A caller whose lease lapsed frees the claim of the next one**, and a third is granted the key.
-/
theorem third_caller_granted :
    let _ := Rounding.verbatim
    let c : RedisConfig ℤ := ⟨"istos:", (1000 * ·)⟩
    (∃ m, Steps.run InMemoryStorage.tenancy (InMemoryStorage.tenants ℕ ℤ 0) lateRelease = some m ∧
      m.clock = 12 ∧ m.standing "k" = [(2, ((22 : ℤ) : WithTop ℤ)), (1, ((20 : ℤ) : WithTop ℤ))] ∧
      ¬ InMemoryStorage.Owned m) ∧
    (∃ m, Steps.run (RedisStorage.tenancy c) (RedisStorage.tenants ℕ 0) lateRelease = some m ∧
      m.clock = 12000 ∧
      m.standing "k" = [(2, ((22001 : ℤ) : WithTop ℤ)), (1, ((20002 : ℤ) : WithTop ℤ))] ∧
      ¬ RedisStorage.Owned c m) ∧
    ∃ m, Steps.run Nodes.step (Nodes.init 0) lateDeletion = some m ∧
      m.clock = 12 ∧ m.standing "k" = [(2, ((22 : ℤ) : WithTop ℤ)), (1, ((20 : ℤ) : WithTop ℤ))] ∧
      ¬ m.Owned := by
  intro _ c
  refine ⟨⟨_, rfl, rfl, rfl, fun h => ?_⟩, ⟨_, rfl, rfl, rfl, fun h => ?_⟩,
    ⟨_, rfl, rfl, rfl, fun h => ?_⟩⟩
  · apply not_owned (p := (1, ((20 : ℤ) : WithTop ℤ)))
      (List.mem_cons_of_mem _ List.mem_cons_self) ?_ rfl (by decide) (h "k")
    exact WithTop.coe_lt_coe.mpr (show (12 : ℤ) < 20 by decide)
  · obtain ⟨st, -, howned⟩ := h "k"
    apply not_owned (p := (1, ((20002 : ℤ) : WithTop ℤ)))
      (List.mem_cons_of_mem _ List.mem_cons_self) ?_
      rfl (by decide) howned
    exact WithTop.coe_lt_coe.mpr (show (12000 : ℤ) < 20002 by decide)
  · apply not_owned (p := (1, ((20 : ℤ) : WithTop ℤ)))
      (List.mem_cons_of_mem _ List.mem_cons_self) ?_ rfl (by decide) (h "k")
    exact WithTop.coe_lt_coe.mpr (show (12 : ℤ) < 20 by decide)

end Istos
