import Istos.Consistency.Equiv.Ledger
import Mathlib.Data.List.Induction

/-!
# When the backends agree

All three backends simulate `Ledger`, so they agree as long as they skip the same calls of `log`.
The rules differ, so this is a condition on the calls (`Backend.LoggedOnce`).

* `backends_agree`: the three backends answer every call alike just when each idempotency key is
  logged once before it is completed, or not at all.
-/

namespace Istos

open Lease

variable {T : Type}

/-! ### Which keys are logged, and which are done -/

namespace LedgerOp

/-- The call logs an entry with this idempotency key. -/
def LogsWith (k : String) : LedgerOp T → Prop
  | log _ _ i => i = some k
  | _ => False

end LedgerOp

/-- A completion makes a key done, and nothing else does. -/
theorem Mode.after_done_iff [Rounding] {key : String} {op : LedgerOp T} (hop : op.Objects)
    (m : Mode) : (∃ v, m.after key op = .done v) ↔ (∃ v, m = .done v) ∨ op.Marks key := by
  cases op with
  | claim k l =>
    have hno : ¬ (LedgerOp.claim k l).Marks key := id
    rw [or_iff_left hno]
    cases m with
    | free =>
      rw [Mode.after]
      split
      · simp
      · rfl
    | _ => rfl
  | release k =>
    have hno : ¬ (LedgerOp.release (T := T) k).Marks key := id
    rw [or_iff_left hno]
    cases m with
    | held =>
      rw [Mode.after]
      split
      · simp
      · rfl
    | _ => rfl
  | mark k w =>
    obtain ⟨fields, rfl, -⟩ := Value.IsObject.eq hop
    show _ ↔ _ ∨ k = key
    cases m with
    | done v => exact ⟨Or.inl, fun _ => ⟨v, rfl⟩⟩
    | free =>
      show (∃ v, (if k = key then Mode.done (.obj fields) else .free) = .done v) ↔ _
      by_cases hk : k = key
      · simp [hk]
      · simp [hk]
    | held =>
      show (∃ v, (if k = key then Mode.done (.obj fields) else .held) = .done v) ↔ _
      by_cases hk : k = key
      · simp [hk]
      · simp [hk]
  | _ =>
    cases m <;> exact (or_iff_left (show ¬ False from id)).symm

namespace Ledger

/-- A call that logs an idempotency key puts it into a log, unless it is there. -/
theorem logged_after [Rounding] {L : Ledger} {op : LedgerOp T} (hop : op.Objects) {skips : Bool}
    {k : String} (hskips : op.LogsWith k → skips = true → L.Logged (some k)) :
    (L.after skips op).Logged (some k) ↔ L.Logged (some k) ∨ op.LogsWith k := by
  cases op with
  | log key v i =>
    obtain ⟨fields, rfl, -⟩ := Value.IsObject.eq hop
    cases skips with
    | true =>
      have hsame : ∀ key', (L.after true (.log (T := T) key (.json (.obj fields)) i)).log key'
          = L.log key' := fun key' => if_neg fun h => absurd h.2 Bool.true_eq_false_eq_False
      unfold Logged
      simp only [hsame]
      exact ⟨Or.inl, fun h => h.elim id fun h => hskips h rfl⟩
    | false =>
      have hlog : ∀ key', (L.after false (.log (T := T) key (.json (.obj fields)) i)).log key'
          = if key = key' ∧ false = false then L.log key' ++ [(.obj fields, i)] else L.log key' :=
        fun _ => rfl
      constructor
      · rintro ⟨k', key', hk', e, he, hi⟩
        obtain rfl := Option.some.inj hk'
        rw [hlog] at he
        split at he
        · rcases List.mem_append.mp he with he | he
          · exact Or.inl ⟨k, key', rfl, e, he, hi⟩
          · obtain rfl := List.mem_singleton.mp he
            exact Or.inr hi
        · exact Or.inl ⟨k, key', rfl, e, he, hi⟩
      · rintro (⟨k', key', hk', e, he, hi⟩ | hi)
        · obtain rfl := Option.some.inj hk'
          refine ⟨k, key', rfl, e, ?_, hi⟩
          rw [hlog]
          split
          · exact List.mem_append_left _ he
          · exact he
        · refine ⟨k, key, rfl, (.obj fields, i), ?_, hi⟩
          rw [hlog, if_pos ⟨rfl, rfl⟩]
          exact List.mem_append_right _ (List.mem_singleton.mpr rfl)
  | _ => exact (or_iff_left (show ¬ False from id)).symm

/-- The ledger has the keys that a sequence of calls logged, and those that it completed. -/
structure Records (L : Ledger) (calls : List (LedgerOp T × Clock T)) : Prop where
  logged : ∀ k, L.Logged (some k) ↔ ∃ call ∈ calls, call.1.LogsWith k
  finished : ∀ k, (∃ v, L.mode k = .done v) ↔ ∃ call ∈ calls, call.1.Marks k

theorem records_nil : Ledger.init.Records (T := T) [] where
  logged := by
    intro k
    constructor
    · rintro ⟨k', key, -, e, he, -⟩
      cases he
    · rintro ⟨call, hcall, -⟩
      cases hcall
  finished := by
    intro k
    constructor
    · rintro ⟨v, hv⟩
      cases hv
    · rintro ⟨call, hcall, -⟩
      cases hcall

theorem Records.after [Rounding] {L : Ledger} {calls : List (LedgerOp T × Clock T)}
    (h : L.Records calls) {call : LedgerOp T × Clock T} (hop : call.1.Objects) {skips : Bool}
    (hskips : ∀ k, call.1.LogsWith k → skips = true → L.Logged (some k)) :
    (L.after skips call.1).Records (calls ++ [call]) where
  logged k := by
    rw [logged_after hop (hskips k), h.logged]
    simp only [List.mem_append, List.mem_singleton, or_and_right, exists_or, exists_eq_left]
  finished k := by
    show (∃ v, (L.mode k).after k call.1 = .done v) ↔ _
    rw [Mode.after_done_iff hop, h.finished]
    simp only [List.mem_append, List.mem_singleton, or_and_right, exists_or, exists_eq_left]

end Ledger

/-! ### Agreement -/

namespace Backend

variable [LinearOrder T] [Zero T] [Add T] [Rounding] (c : RedisConfig T)

/-- A call that may come after `calls`: its values are JSON objects, and no lease lapses, neither
one that was granted nor, as one of no millisecond does in Redis, the one that it asks for. -/
structure Next (calls : List (LedgerOp T × Clock T)) (call : LedgerOp T × Clock T) : Prop where
  objects : call.1.Objects
  stamped : call.2.stamp.Repr
  leased : RedisStorage.Accepts c call.1
  unlapsed : ∀ b, Unlapsed c b (b.run c (Backend.init T b) calls) call.2

/-- A sequence of calls with JSON objects in which no lease lapses. -/
def Orderly (calls : List (LedgerOp T × Clock T)) : Prop :=
  ∀ pre call, pre ++ [call] <+: calls → Next c pre call

/-- At every moment of the sequence the backends answer any next call alike. -/
def Agree (calls : List (LedgerOp T × Clock T)) : Prop :=
  ∀ pre, pre <+: calls → ∀ call, Next c pre call → ∀ b : Backend,
    (b.perform c (b.run c (Backend.init T b) pre) call.1 call.2).2.observe
      = (Backend.inMemory.perform c (Backend.inMemory.run c (Backend.init T .inMemory) pre)
          call.1 call.2).2.observe

/-- A call of `log` with an idempotency key comes after a completion of this key just when it comes
after another call of `log` with it; the empty key is never complete. -/
def LoggedOnce (calls : List (LedgerOp T × Clock T)) : Prop :=
  ∀ pre key v k x, pre ++ [(.log key v (some k), x)] <+: calls →
    ((∃ call ∈ pre, call.1.LogsWith k) ↔ k ≠ "" ∧ ∃ call ∈ pre, call.1.Marks k)

variable {c}

theorem Orderly.of_prefix {calls calls' : List (LedgerOp T × Clock T)} (h : Orderly c calls)
    (hpre : calls' <+: calls) : Orderly c calls' :=
  fun pre call hcall => h pre call (hcall.trans hpre)

omit [LinearOrder T] [Zero T] [Add T] [Rounding] in
/-- The rules of the backends agree on a call that keeps the law. -/
theorem skips_iff_logged {L : Ledger} {calls : List (LedgerOp T × Clock T)} (h : L.Records calls)
    {i : Option String}
    (hi : ∀ k, i = some k → ((∃ call ∈ calls, call.1.LogsWith k) ↔
      k ≠ "" ∧ ∃ call ∈ calls, call.1.Marks k)) (b : Backend) :
    Skips L i b ↔ L.Logged i := by
  have hfinished : L.Finished i ↔ L.Logged i := by
    cases i with
    | none =>
      constructor
      · rintro ⟨k, v, hk, -⟩
        cases hk
      · rintro ⟨k, key, hk, -⟩
        cases hk
    | some k =>
      rw [h.logged, hi k rfl, ← h.finished]
      constructor
      · rintro ⟨k', v, hk', hne, hmode⟩
        obtain rfl := Option.some.inj hk'
        exact ⟨hne, v, hmode⟩
      · rintro ⟨hne, v, hmode⟩
        exact ⟨k, v, rfl, hne, hmode⟩
  cases b with
  | sql => rfl
  | _ => exact hfinished

omit [LinearOrder T] [Zero T] [Add T] [Rounding] in
/-- A rule as a bit. -/
theorem exists_skips (P : Option String → Prop) (op : LedgerOp T) :
    ∃ skips : Bool, ∀ k v i, op = .log k v i → (skips = true ↔ P i) := by
  classical
  cases op with
  | log k v i =>
    refine ⟨decide (P i), ?_⟩
    rintro k' v' i' heq
    obtain ⟨rfl, rfl, rfl⟩ := LedgerOp.log.inj heq
    exact decide_eq_true_iff
  | _ => exact ⟨false, nofun⟩

/-- **The three backends as one ledger**, while each idempotency key is logged once. -/
theorem exists_ledger {calls : List (LedgerOp T × Clock T)} (h : Orderly c calls)
    (hlog : LoggedOnce calls) :
    ∃ L : Ledger, L.Records calls ∧ ∀ b, Represents c L b (b.run c (Backend.init T b) calls) := by
  induction calls using List.reverseRecOn with
  | nil => exact ⟨Ledger.init, Ledger.records_nil, represents_init⟩
  | append_singleton calls call ih =>
    have hprefix : calls <+: calls ++ [call] := List.prefix_append calls [call]
    obtain ⟨L, hrecords, hrepresents⟩ := ih (h.of_prefix hprefix)
      fun pre key v k x hcall => hlog pre key v k x (hcall.trans hprefix)
    have hnext := h calls call (List.prefix_refl _)
    obtain ⟨skips, hrule⟩ := exists_skips L.Logged call.1
    refine ⟨L.after skips call.1, hrecords.after hnext.objects ?_, fun b => ?_⟩
    · intro k hk hskips
      obtain ⟨op, x⟩ := call
      cases op with
      | log key v i =>
        obtain rfl : i = some k := hk
        exact (hrule key v _ rfl).mp hskips
      | _ => exact absurd hk id
    · rw [run_append]
      apply represents_perform (hrepresents b) hnext.objects hnext.leased hnext.stamped
        (hnext.unlapsed b)
      intro key v i heq
      rw [hrule key v i heq, skips_iff_logged hrecords]
      -- the law, at this call
      rintro k rfl
      have hcall : (LedgerOp.log key v (some k), call.2) = call := Prod.ext heq.symm rfl
      apply hlog calls key v k call.2
      exact hcall ▸ List.prefix_refl _

omit [LinearOrder T] [Zero T] [Add T] [Rounding] in
theorem loggedOnce_append {calls : List (LedgerOp T × Clock T)} (call : LedgerOp T × Clock T)
    (h : LoggedOnce calls)
    (hcall : ∀ key v k, call.1 = .log key v (some k) →
      ((∃ call ∈ calls, call.1.LogsWith k) ↔ k ≠ "" ∧ ∃ call ∈ calls, call.1.Marks k)) :
    LoggedOnce (calls ++ [call]) := by
  intro pre key v k x hpre
  rcases List.prefix_concat_iff.mp hpre with heq | hpre
  · obtain ⟨rfl, rfl⟩ := List.append_inj' heq rfl |>.imp id List.singleton_inj.mp
    exact hcall key v k rfl
  · exact h pre key v k x hpre

/-- A call of `log` changes no lease. -/
theorem unlapsed_log {b : Backend} {s : b.State T} {x : Clock T} (h : Unlapsed c b s x)
    (key : String) (v : Value) (i : Option String) (y : Clock T) :
    Unlapsed c b (b.perform c s (.log key v i) y).1 x := by
  cases b with
  | inMemory =>
    intro k u hheld
    apply h k u
    rw [← hheld]
    exact (InMemoryStorage.status_log s key v i y.stamp k).symm
  | redis =>
    intro k u hheld
    apply h k u
    refine hheld.congr c (RedisStorage.cell_perform c ?_).symm
    exact fun heq => RedisStorage.logKey_ne_idempKey c key k (Option.some.inj heq)
  | sql =>
    intro k u hheld
    apply h k u
    rw [← hheld]
    exact (SqlStorage.status_log s key v i y.stamp k).symm

/-- **The law is needed**: where it fails, the next `get_log` tells the in-memory backend and SQL
apart. -/
theorem iff_of_agree {calls : List (LedgerOp T × Clock T)} {L : Ledger} (hrecords : L.Records calls)
    (hrepresents : ∀ b, Represents c L b (b.run c (Backend.init T b) calls)) {key : String}
    {v : Value} {k : String} {x : Clock T} (hnext : Next c calls (.log key v (some k), x))
    (hagree : Agree c (calls ++ [(.log key v (some k), x)])) :
    (∃ call ∈ calls, call.1.LogsWith k) ↔ k ≠ "" ∧ ∃ call ∈ calls, call.1.Marks k := by
  have hfinished : L.Finished (some k) ↔ k ≠ "" ∧ ∃ call ∈ calls, call.1.Marks k := by
    rw [← hrecords.finished]
    constructor
    · rintro ⟨k', v, hk', hne, hmode⟩
      obtain rfl := Option.some.inj hk'
      exact ⟨hne, v, hmode⟩
    · rintro ⟨hne, v, hmode⟩
      exact ⟨k, v, rfl, hne, hmode⟩
  rw [← hrecords.logged, ← hfinished]
  obtain ⟨fields, rfl, -⟩ := Value.IsObject.eq hnext.objects
  -- what a backend holds afterwards, and what it shows of its log
  have hafter : ∀ (b : Backend) (skips : Bool), (skips = true ↔ Skips L (some k) b) →
      ((b.perform c
          (b.run c (Backend.init T b) (calls ++ [(.log key (.json (.obj fields)) (some k), x)]))
          (.getLog key ((L.log key).length + 1)) x).2.observe
        = .entries ((newest
            ((L.after skips (.log (T := T) key (.json (.obj fields)) (some k))).log key)
            ((L.log key).length + 1)).map fun e => (.json e.1, e.2))) := by
    intro b skips hskips
    rw [run_append]
    apply getLog_answer
    refine (represents_perform (hrepresents b) hnext.objects hnext.leased hnext.stamped
      (hnext.unlapsed b) ?_).log key
    intro k' v' i heq
    obtain ⟨rfl, rfl, rfl⟩ := LedgerOp.log.inj heq
    exact hskips
  -- the entry shows, unless it was skipped
  have hlength : ∀ skips : Bool,
      (newest ((L.after skips (.log (T := T) key (.json (.obj fields)) (some k))).log key)
        ((L.log key).length + 1)).length = (L.log key).length + if skips then 0 else 1 := by
    intro skips
    rw [newest, if_neg (by omega), List.length_take, List.length_reverse]
    show min _ (if key = key ∧ skips = false then L.log key ++ [(.obj fields, some k)]
      else L.log key).length = _
    cases skips with
    | true =>
      rw [if_neg (fun h => absurd h.2 Bool.true_eq_false_eq_False), if_pos rfl]
      omega
    | false =>
      rw [if_pos ⟨rfl, rfl⟩, if_neg Bool.false_ne_true, List.length_append, List.length_singleton]
      omega
  have hprobe : Next c (calls ++ [(.log key (.json (.obj fields)) (some k), x)])
      (.getLog key ((L.log key).length + 1), x) :=
    ⟨trivial, hnext.stamped, trivial, fun b => by
      rw [run_append]
      exact unlapsed_log (hnext.unlapsed b) key _ _ x⟩
  have hsame := hagree _ (List.prefix_refl _) _ hprobe .sql
  classical
  have hsql := hafter .sql (decide (L.Logged (some k))) decide_eq_true_iff
  have hmem := hafter .inMemory (decide (L.Finished (some k))) decide_eq_true_iff
  rw [hsql, hmem] at hsame
  have hcount := congrArg List.length (Observation.entries.inj hsame)
  rw [List.length_map, List.length_map, hlength, hlength] at hcount
  by_cases hlogged : L.Logged (some k)
  · by_cases hfin : L.Finished (some k)
    · exact iff_of_true hlogged hfin
    · rw [decide_eq_true hlogged, decide_eq_false hfin, if_pos rfl,
        if_neg Bool.false_ne_true] at hcount
      omega
  · by_cases hfin : L.Finished (some k)
    · rw [decide_eq_false hlogged, decide_eq_true hfin, if_pos rfl,
        if_neg Bool.false_ne_true] at hcount
      omega
    · exact iff_of_false hlogged hfin

theorem loggedOnce_of_agree {calls : List (LedgerOp T × Clock T)} (h : Orderly c calls)
    (hagree : Agree c calls) : LoggedOnce calls := by
  induction calls using List.reverseRecOn with
  | nil =>
    intro pre key v k x hpre
    exact absurd (List.prefix_nil.mp hpre)
      (List.append_ne_nil_of_right_ne_nil _ (List.cons_ne_nil _ _))
  | append_singleton calls call ih =>
    have hprefix : calls <+: calls ++ [call] := List.prefix_append calls [call]
    have hold := ih (h.of_prefix hprefix) fun pre hpre => hagree pre (hpre.trans hprefix)
    obtain ⟨L, hrecords, hrepresents⟩ := exists_ledger (h.of_prefix hprefix) hold
    apply loggedOnce_append call hold
    obtain ⟨op, x⟩ := call
    rintro key v k rfl
    exact iff_of_agree hrecords hrepresents (h calls _ (List.prefix_refl _)) hagree

end Backend

/-- **The backends agree on the ledger** just when every idempotency key is logged once before it is
completed, or not at all. -/
theorem backends_agree [LinearOrder T] [Zero T] [Add T] [Rounding] {c : RedisConfig T}
    {calls : List (LedgerOp T × Clock T)} (h : Backend.Orderly c calls) :
    Backend.Agree c calls ↔ Backend.LoggedOnce calls := by
  constructor
  · exact Backend.loggedOnce_of_agree h
  · intro hlog pre hpre call hnext b
    obtain ⟨L, -, hrepresents⟩ := Backend.exists_ledger (h.of_prefix hpre)
      fun pre' key v k x hcall => hlog pre' key v k x (hcall.trans hpre)
    rw [Backend.observe_perform (hrepresents b) hnext.objects hnext.leased (hnext.unlapsed b),
      Backend.observe_perform (hrepresents .inMemory) hnext.objects hnext.leased
        (hnext.unlapsed .inMemory)]

/-! ### Sequences without claims -/

namespace Backend

variable [LinearOrder T] [Zero T] [Add T] [Rounding] (c : RedisConfig T)

/-- No record is held. -/
def Unheld : (b : Backend) → b.State T → Prop
  | inMemory, s => ∀ key u, InMemoryStorage.status s key ≠ .held u
  | redis, s => ∀ key, ∃ st, RedisStorage.Has c s key st ∧ ∀ u, st ≠ .held u
  | sql, s => ∀ key u, SqlDb.status s key ≠ .held u

omit [LinearOrder T] [Zero T] [Add T] [Rounding] in
theorem afterCall_ne_held {S : Type} [LinearOrder S] {key : String} {now : S}
    {lapse : T → WithTop S} {stored : Value → Value} {keeps : Bool} {op : LedgerOp T}
    (hop : ∀ k l, op ≠ .claim k l) {st : Status S Value} (hst : ∀ u, st ≠ .held u) :
    ∀ u, afterCall key now lapse stored keeps op st ≠ .held u := by
  intro u
  cases st with
  | held u' => exact absurd rfl (hst u')
  | done v =>
    rw [afterCall_done]
    exact Status.done_ne_held
  | free =>
    cases op with
    | claim k l => exact absurd rfl (hop k l)
    | release k =>
      have hfree : (if keeps && (Status.free : Status S Value).grants now then
          (Status.free : Status S Value) else Status.free.release) = .free := ite_self _
      rw [afterCall, hfree, ite_self]
      exact Status.free_ne_held
    | mark k v =>
      rw [afterCall]
      split
      · exact Status.done_ne_held
      · exact Status.free_ne_held
    | _ => exact Status.free_ne_held

theorem unheld_perform {b : Backend} {s : b.State T} {op : LedgerOp T}
    (hop : ∀ k l, op ≠ .claim k l) (x : Clock T) (h : Unheld c b s) :
    Unheld c b (b.perform c s op x).1 := by
  cases b with
  | inMemory =>
    intro key
    show ∀ u, InMemoryStorage.status (InMemoryStorage.perform s op x).1 key ≠ .held u
    rw [InMemoryStorage.status_perform]
    exact afterCall_ne_held hop (h key)
  | redis =>
    intro key
    obtain ⟨st, hst, hheld⟩ := h key
    by_cases haccepts : RedisStorage.Accepts c op
    · exact ⟨_, RedisStorage.has_perform c hst x haccepts, afterCall_ne_held hop hheld⟩
    · refine ⟨st, ?_, hheld⟩
      show RedisStorage.Has c (RedisStorage.perform c s op x).1 key st
      rw [RedisStorage.perform_of_not_accepts c x haccepts]
      exact hst
  | sql =>
    intro key
    show ∀ u, SqlDb.status (SqlStorage.perform s op x).1 key ≠ .held u
    rw [SqlStorage.status_perform]
    exact afterCall_ne_held hop (h key)

omit [LinearOrder T] [Zero T] [Add T] in
theorem unheld_init (b : Backend) : Unheld c b (Backend.init T b) := by
  cases b with
  | redis => exact fun key => ⟨.free, rfl, fun u => Status.free_ne_held⟩
  | _ => exact fun key u => Status.free_ne_held

omit [Zero T] [Add T] in
theorem Unheld.unlapsed {b : Backend} {s : b.State T} (h : Unheld c b s) (x : Clock T) :
    Unlapsed c b s x := by
  cases b with
  | redis =>
    intro key u hheld
    obtain ⟨t, -, hcell⟩ := hheld
    obtain ⟨st, hst, hne⟩ := h key
    cases st with
    | free => cases hcell.symm.trans hst
    | held u' => exact absurd rfl (hne u')
    | done v =>
      obtain ⟨body, -, hdone⟩ := hst
      cases hcell.symm.trans hdone
  | _ => exact fun key u hheld => absurd hheld (h key u)

/-- Without claims no lease lapses. -/
theorem orderly_of_no_claim {calls : List (LedgerOp T × Clock T)}
    (h : ∀ call ∈ calls, call.1.Objects ∧ call.2.stamp.Repr ∧ RedisStorage.Accepts c call.1 ∧
      ∀ k l, call.1 ≠ .claim k l) : Orderly c calls := by
  intro pre call hpre
  have hcall := h call (hpre.subset (List.mem_append_right _ (List.mem_singleton.mpr rfl)))
  refine ⟨hcall.1, hcall.2.1, hcall.2.2.1, fun b => ?_⟩
  apply Unheld.unlapsed
  have hunheld : ∀ s op x, (∀ k l, op ≠ .claim k l) → Unheld c b s →
      Unheld c b (b.perform c s op x).1 := fun s op x hop => unheld_perform c hop x
  apply run_invariant c hunheld ?_ (unheld_init c b)
  intro call' hmem
  exact (h call' (hpre.subset (List.mem_append_left _ hmem))).2.2.2

end Backend

namespace Backend

/-- A handler in the mode `at_least_once` that is called twice with the same arguments: each call
puts what it has to say and logs it under one idempotency key. -/
def twice : List (LedgerOp ℤ × Clock ℤ) :=
  let x : Clock ℤ := ⟨.finite ⟨false, 0, ['.', '5'], rfl⟩, 0, 0, 0, 0, 0⟩
  [(.put "k" (.json (.obj [])), x), (.log "k" (.json (.obj [])) (some "i"), x),
    (.put "k" (.json (.obj [])), x), (.log "k" (.json (.obj [])) (some "i"), x)]

theorem orderly_twice :
    let _ := Rounding.verbatim
    Orderly ⟨"istos:", (1000 * ·)⟩ twice := by
  intro _
  apply orderly_of_no_claim
  intro call hcall
  have hvalid : (Json.obj []).Valid := ⟨List.nodup_nil, trivial⟩
  simp only [twice, List.mem_cons, List.not_mem_nil, or_false] at hcall
  rcases hcall with rfl | rfl | rfl | rfl
  · exact ⟨hvalid, rfl, trivial, by rintro k l heq; cases heq⟩
  · exact ⟨hvalid, rfl, trivial, by rintro k l heq; cases heq⟩
  · exact ⟨hvalid, rfl, trivial, by rintro k l heq; cases heq⟩
  · exact ⟨hvalid, rfl, trivial, by rintro k l heq; cases heq⟩

theorem loggedOnce_twice : LoggedOnce (twice.take 3) := by
  rintro pre key v k x ⟨post, heq⟩
  -- the one call of `log` is the second, after a `put`
  rcases pre with _ | ⟨p₀, _ | ⟨p₁, pre⟩⟩
  · cases congrArg (fun calls => calls.head?.map Prod.fst) heq
  · obtain rfl := Option.some.inj (congrArg List.head? heq)
    simp [LedgerOp.LogsWith, LedgerOp.Marks]
  · cases pre with
    | nil => cases congrArg (fun calls => calls[2]?.map Prod.fst) heq
    | cons p₂ pre =>
      have hlength := congrArg List.length heq
      simp [twice] at hlength

end Backend

/-- Up to the second call of the handler the backends agree. -/
theorem backends_agree_once :
    let _ := Rounding.verbatim
    Backend.Agree ⟨"istos:", (1000 * ·)⟩ (Backend.twice.take 3) :=
  let _ := Rounding.verbatim
  (backends_agree (Backend.orderly_twice.of_prefix (List.take_prefix 3 Backend.twice))).mpr
    Backend.loggedOnce_twice

/-- The log of the handler that is called twice has both calls in memory and one of them in SQL. -/
theorem second_call_missing :
    let _ := Rounding.verbatim
    let c : RedisConfig ℤ := ⟨"istos:", (1000 * ·)⟩
    let x : Clock ℤ := ⟨.finite ⟨false, 0, ['.', '5'], rfl⟩, 0, 0, 0, 0, 0⟩
    Backend.Orderly c Backend.twice ∧
    (Backend.inMemory.perform c (Backend.inMemory.run c (Backend.init ℤ .inMemory) Backend.twice)
        (.getLog "k" 10) x).2.observe
      = .entries [(.json (.obj []), some "i"), (.json (.obj []), some "i")] ∧
    (Backend.sql.perform c (Backend.sql.run c (Backend.init ℤ .sql) Backend.twice)
        (.getLog "k" 10) x).2.observe = .entries [(.json (.obj []), some "i")] ∧
    ¬ Backend.Agree c Backend.twice := by
  intro _ c x
  refine ⟨Backend.orderly_twice, rfl, rfl, fun h => ?_⟩
  have hlogged := Backend.loggedOnce_of_agree Backend.orderly_twice h (Backend.twice.take 3) "k"
    (.json (.obj [])) "i" x (List.prefix_refl _)
  have hfirst : ∃ call ∈ Backend.twice.take 3, call.1.LogsWith "i" :=
    ⟨(.log "k" (.json (.obj [])) (some "i"), x), by simp [Backend.twice, x], rfl⟩
  obtain ⟨-, call, hcall, hmarks⟩ := hlogged.mp hfirst
  simp only [Backend.twice, List.take, List.mem_cons, List.not_mem_nil, or_false] at hcall
  rcases hcall with rfl | rfl | rfl
  · exact hmarks
  · exact hmarks
  · exact hmarks

end Istos
