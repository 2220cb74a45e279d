import Istos.Codec.Equiv.Detect
import Istos.Consistency.Backend
import Istos.Data.Lease
import Mathlib.Data.Int.ConditionallyCompleteOrder

/-!
# The records of the three backends

Whatever a backend stores under an idempotency key, it is a record that is free, held under a lease
or done with a result.  `InMemoryStorage.status` and `SqlDb.status` read it so, and for Redis
`RedisStorage.Has` says which record a key has.  `afterCall` is what a call does to such a record,
and `claimAnswer` what a claim answers.

* `InMemoryStorage.status_perform`, `SqlStorage.status_perform`, `RedisStorage.has_perform`: every
  call of a backend does to the record of a key what `afterCall` says.
* `InMemoryStorage.claim_answer`, `SqlStorage.claim_answer`, `RedisStorage.claim_answer`.
-/

namespace Istos

open Lease

/-! ### A record under the calls of a ledger -/

section

variable {T S : Type} [LinearOrder S]

/-- What a claim at `now` answers. -/
def claimAnswer (now : S) : Status S Value → Claim
  | .free => { state := .claimed }
  | .held u => if u ≤ now then { state := .claimed } else { state := .inFlight }
  | .done v => ⟨.done, v⟩

theorem claimAnswer_of_le {now : S} {u : WithTop S} (h : u ≤ now) :
    claimAnswer now (.held u) = { state := .claimed } :=
  if_pos h

theorem claimAnswer_of_lt {now : S} {u : WithTop S} (h : (now : WithTop S) < u) :
    claimAnswer now (.held u) = { state := .inFlight } :=
  if_neg (not_le.mpr h)

/-- The record of `key` after a call at `now`.  A claim under the lease `l` is granted until
`lapse l`, and `stored v` is what reading `v` back gives.  Where `keeps` is set, a release finds no
record whose lease has lapsed. -/
def afterCall (key : String) (now : S) (lapse : T → WithTop S) (stored : Value → Value)
    (keeps : Bool) (op : LedgerOp T) (st : Status S Value) : Status S Value :=
  match op with
  | .claim k l => if k = key then st.claim now (lapse l) else st
  | .release k => if k = key then (if keeps && st.grants now then st else st.release) else st
  | .mark k v => if k = key then st.mark (stored v) else st
  | _ => st

/-- A claim that is granted changes the record of its key. -/
theorem ite_claim_of_grants {f : String → Status S Value} {k k' : String} {st : Status S Value}
    {now : S} {u : WithTop S} (hst : f k = st) (h : st.grants now = true) :
    (if k = k' then (f k').claim now u else f k') = if k = k' then .held u else f k' := by
  by_cases hk : k = k'
  · subst hk
    rw [if_pos rfl, if_pos rfl, hst, Status.claim_of_grants h]
  · rw [if_neg hk, if_neg hk]

/-- A claim that is refused changes nothing. -/
theorem ite_claim_of_refuses {f : String → Status S Value} {k k' : String} {st : Status S Value}
    {now : S} {u : WithTop S} (hst : f k = st) (h : st.grants now = false) :
    (if k = k' then (f k').claim now u else f k') = f k' := by
  by_cases hk : k = k'
  · subst hk
    rw [if_pos rfl, hst, Status.claim_of_refuses h]
  · rw [if_neg hk]

end

namespace InMemoryStorage

variable {T : Type}

/-- The record of a key. -/
def status (s : InMemoryStorage T) (key : String) : Status T Value :=
  match s.rec? key with
  | none => .free
  | some r => if r.done then .done r.result else .held r.leaseUntil

theorem status_of_none {s : InMemoryStorage T} {k : String} (h : s.rec? k = none) :
    s.status k = .free := by
  rw [status, h]

theorem status_of_some {s : InMemoryStorage T} {k : String} {r : Rec T} (h : s.rec? k = some r) :
    s.status k = if r.done then .done r.result else .held r.leaseUntil := by
  rw [status, h]

theorem rec?_setRec (s : InMemoryStorage T) (k : String) (r : Rec T) (k' : String) :
    (s.setRec k r).rec? k' = if k' = k then some r else s.rec? k' := by
  rw [rec?, setRec, Table.get?_put]
  split
  · rfl
  · rfl

theorem status_setRec (s : InMemoryStorage T) (k : String) (r : Rec T) (k' : String) :
    (s.setRec k r).status k'
      = if k' = k then (if r.done then .done r.result else .held r.leaseUntil)
        else s.status k' := by
  by_cases hk : k' = k
  · have hrec : (s.setRec k r).rec? k' = some r := by rw [rec?_setRec, if_pos hk]
    rw [if_pos hk, status_of_some hrec]
  · have hrec : (s.setRec k r).rec? k' = s.rec? k' := by rw [rec?_setRec, if_neg hk]
    rw [if_neg hk, status, hrec, status]

theorem status_log (s : InMemoryStorage T) (key : String) (value : Value)
    (idempotencyKey : Option String) (timestamp : PyFloat) (k : String) :
    (s.log key value idempotencyKey timestamp).status k = s.status k := by
  unfold log
  split
  · rfl
  · rfl

theorem status_releaseClaim (s : InMemoryStorage T) (k k' : String) :
    (s.releaseClaim k).status k' = if k = k' then (s.status k').release else s.status k' := by
  have herase : ({ s with processed := s.processed.erase k } : InMemoryStorage T).status k'
      = if k = k' then .free else s.status k' := by
    rw [status, rec?, Table.get?_erase]
    by_cases hk : k' = k
    · rw [if_pos hk, if_pos hk.symm]
      rfl
    · rw [if_neg hk, if_neg (Ne.symm hk)]
      rfl
  unfold releaseClaim
  by_cases hk : k = k'
  · subst hk
    rw [if_pos rfl] at herase ⊢
    cases hrec : s.rec? k with
    | none =>
      rw [Option.any_none, if_neg Bool.false_ne_true, status_of_none hrec]
      rfl
    | some r =>
      rw [Option.any_some, status_of_some hrec]
      by_cases hdone : r.done = true
      · rw [if_neg (by simp [hdone]), if_pos hdone, status_of_some hrec, if_pos hdone]
        rfl
      · rw [if_pos (by simp [hdone]), if_neg hdone, herase]
        rfl
  · rw [if_neg hk] at herase ⊢
    split
    · exact herase
    · rfl

theorem status_markProcessed [Zero T] (s : InMemoryStorage T) (k : String) (v : Value)
    (k' : String) :
    (s.markProcessed k v).status k' = if k = k' then (s.status k').mark v else s.status k' := by
  unfold markProcessed
  by_cases hk : k = k'
  · subst hk
    rw [if_pos rfl]
    cases hrec : s.rec? k with
    | none =>
      rw [Option.any_none, if_neg Bool.false_ne_true, status_setRec, if_pos rfl,
        status_of_none hrec]
      rfl
    | some r =>
      rw [Option.any_some, status_of_some hrec]
      by_cases hdone : r.done = true
      · rw [if_pos hdone, if_pos hdone, status_of_some hrec, if_pos hdone]
        rfl
      · rw [if_neg hdone, if_neg hdone, status_setRec, if_pos rfl]
        rfl
  · rw [if_neg hk]
    split
    · rfl
    · rw [status_setRec, if_neg (Ne.symm hk)]

variable [LinearOrder T] [Add T]

/-- **A claim**: what it answers, and the record after it. -/
theorem status_claimProcessed (s : InMemoryStorage T) (k : String) (lease now later : T)
    (k' : String) :
    (s.claimProcessed k lease now later).2 = claimAnswer now (s.status k) ∧
      (s.claimProcessed k lease now later).1.status k'
        = if k = k' then (s.status k').claim now ((later + lease : T) : WithTop T)
          else s.status k' := by
  have hgrant : (s.setRec k ⟨false, .none, later + lease⟩).status k'
      = if k = k' then .held ((later + lease : T) : WithTop T) else s.status k' := by
    rw [status_setRec]
    by_cases hk : k' = k
    · rw [if_pos hk, if_pos hk.symm]
      rfl
    · rw [if_neg hk, if_neg (Ne.symm hk)]
  unfold claimProcessed
  cases hrec : s.rec? k with
  | none =>
    have hstatus := status_of_none hrec
    refine ⟨by rw [hstatus]; rfl, hgrant.trans ?_⟩
    exact (ite_claim_of_grants hstatus rfl).symm
  | some r =>
    have hstatus := status_of_some hrec
    by_cases hdone : r.done = true
    · rw [if_pos hdone] at hstatus
      simp only [if_pos hdone]
      refine ⟨by rw [hstatus]; rfl, ?_⟩
      exact (ite_claim_of_refuses hstatus rfl).symm
    · rw [if_neg hdone] at hstatus
      by_cases hlive : now < r.leaseUntil
      · have hlt : (now : WithTop T) < r.leaseUntil := WithTop.coe_lt_coe.mpr hlive
        simp only [if_neg hdone, if_pos hlive]
        refine ⟨by rw [hstatus, claimAnswer_of_lt hlt], ?_⟩
        exact (ite_claim_of_refuses hstatus (Status.grants_held_of_lt hlt)).symm
      · have hle : (r.leaseUntil : WithTop T) ≤ now := WithTop.coe_le_coe.mpr (not_lt.mp hlive)
        simp only [if_neg hdone, if_neg hlive]
        refine ⟨by rw [hstatus, claimAnswer_of_le hle], hgrant.trans ?_⟩
        exact (ite_claim_of_grants hstatus (Status.grants_held_of_le hle)).symm

variable [Zero T]

/-- **What a call does to a record.** -/
theorem status_perform (s : InMemoryStorage T) (op : LedgerOp T) (x : Clock T) (key : String) :
    (s.perform op x).1.status key
      = afterCall key x.monotonic (fun l => ((x.monotonic' + l : T) : WithTop T)) id false op
          (s.status key) := by
  cases op with
  | log k v i => exact s.status_log k v i x.stamp key
  | claim k l => exact (s.status_claimProcessed k l x.monotonic x.monotonic' key).2
  | release k => exact s.status_releaseClaim k key
  | mark k v => exact s.status_markProcessed k v key
  | _ => rfl

theorem claim_answer (s : InMemoryStorage T) (k : String) (l : T) (x : Clock T) :
    (s.perform (.claim k l) x).2 = .claim (claimAnswer x.monotonic (s.status k)) := by
  show LedgerAnswer.claim _ = _
  rw [(s.status_claimProcessed k l x.monotonic x.monotonic' k).1]

theorem check_answer (s : InMemoryStorage T) (k : String) (x : Clock T) :
    (s.perform (.check k) x).2 = .value ((s.status k).result?.getD .none) := by
  show LedgerAnswer.value (s.checkProcessed k) = _
  unfold checkProcessed
  cases hrec : s.rec? k with
  | none =>
    rw [status_of_none hrec]
    rfl
  | some r =>
    rw [status_of_some hrec]
    by_cases hdone : r.done = true
    · simp only [if_pos hdone]
      rfl
    · simp only [if_neg hdone]
      rfl

end InMemoryStorage

/-! ### `SqlAlchemyStoragePlugin` -/

namespace SqlDb

variable {T : Type}

/-- The record that a row is. -/
def rowStatus [Rounding] (row : IdempotencyRow T) : Status T Value :=
  if pending row then .held row.leaseExpiresAt else .done (SqlStorage.deserialize row.result)

/-- The record of a key; a pending row without a lease is held forever. -/
def status [Rounding] (db : SqlDb T) (key : String) : Status T Value :=
  match db.idempotency.get? key with
  | none => .free
  | some row => rowStatus row

variable [Rounding]

theorem status_of_none {db : SqlDb T} {k : String} (h : db.idempotency.get? k = none) :
    db.status k = .free := by
  rw [status, h]

theorem status_of_some {db : SqlDb T} {k : String} {row : IdempotencyRow T}
    (h : db.idempotency.get? k = some row) : db.status k = rowStatus row := by
  rw [status, h]

/-- The records after a row was written. -/
theorem status_put (db : SqlDb T) (row : IdempotencyRow T) (k : String) :
    ({ db with idempotency := db.idempotency.put row } : SqlDb T).status k
      = if row.idempotencyKey = k then rowStatus row else db.status k := by
  rw [status, Table.get?_put]
  by_cases hk : k = row.idempotencyKey
  · rw [if_pos hk, if_pos hk.symm]
  · rw [if_neg hk, if_neg (Ne.symm hk)]
    rfl

/-- An insertion succeeds where there is no row. -/
theorem status_insertIdempotency (db : SqlDb T) (row : IdempotencyRow T) :
    (db.status row.idempotencyKey = .free ∧ db.idempotency.get? row.idempotencyKey = none ∧
        db.insertIdempotency row
          = some { db with idempotency := db.idempotency.put row }) ∨
      ((∃ r, db.idempotency.get? row.idempotencyKey = some r) ∧
        db.insertIdempotency row = none) := by
  unfold insertIdempotency
  cases hrow : db.idempotency.get? row.idempotencyKey with
  | none =>
    have hkey : row.idempotencyKey ∉ db.idempotency.keys := Table.get?_eq_none_iff.mp hrow
    exact Or.inl ⟨status_of_none hrow, rfl, if_neg hkey⟩
  | some r =>
    have hkey : row.idempotencyKey ∈ db.idempotency.keys := Table.mem_keys_iff.mpr ⟨r, hrow⟩
    exact Or.inr ⟨⟨r, rfl⟩, if_pos hkey⟩

theorem status_deletePending (db : SqlDb T) (k k' : String) :
    (db.deletePending k).status k' = if k = k' then (db.status k').release else db.status k' := by
  have herase : ({ db with idempotency := db.idempotency.erase k } : SqlDb T).status k'
      = if k = k' then .free else db.status k' := by
    rw [status, Table.get?_erase]
    by_cases hk : k' = k
    · rw [if_pos hk, if_pos hk.symm]
    · rw [if_neg hk, if_neg (Ne.symm hk)]
      rfl
  unfold deletePending
  by_cases hk : k = k'
  · subst hk
    rw [if_pos rfl] at herase ⊢
    cases hrow : db.idempotency.get? k with
    | none =>
      simp only
      rw [status_of_none hrow]
      rfl
    | some row =>
      rw [status_of_some hrow, rowStatus]
      by_cases hpending : pending row = true
      · simp only [if_pos hpending]
        exact herase
      · simp only [if_neg hpending]
        rw [status_of_some hrow, rowStatus, if_neg hpending]
        rfl
  · rw [if_neg hk] at herase ⊢
    split
    · split
      · exact herase
      · rfl
    · rfl

theorem status_eq_free_iff {db : SqlDb T} {k : String} :
    db.status k = .free ↔ db.idempotency.get? k = none := by
  constructor
  · intro h
    cases hrow : db.idempotency.get? k with
    | none => rfl
    | some row =>
      rw [status_of_some hrow, rowStatus] at h
      split at h <;> cases h
  · exact status_of_none

/-- The update that completes a claim finds a held record. -/
theorem complete_cases (db : SqlDb T) (k : String) (payload : Bytes) (now : T) :
    (∃ u db', db.status k = .held u ∧ db.complete k payload now = some db' ∧
      ∀ k', db'.status k'
        = if k = k' then .done (SqlStorage.deserialize (some payload)) else db.status k') ∨
    (db.status k).lease? = none ∧ db.complete k payload now = none := by
  unfold complete updateIdempotency
  cases hrow : db.idempotency.get? k with
  | none =>
    right
    rw [status_of_none hrow]
    exact ⟨rfl, rfl⟩
  | some row =>
    have hkey : row.idempotencyKey = k := Table.key_of_get? hrow
    by_cases hpending : pending row = true
    · left
      refine ⟨row.leaseExpiresAt, _, ?_, if_pos hpending, ?_⟩
      · rw [status_of_some hrow, rowStatus, if_pos hpending]
      · intro k'
        rw [status_put]
        simp only [hkey]
        rfl
    · right
      rw [status_of_some hrow, rowStatus, if_neg hpending]
      exact ⟨rfl, if_neg hpending⟩

/-- The insertion of a result finds no record. -/
theorem insertDone_cases (db : SqlDb T) (k : String) (payload : Bytes) (now : T) :
    (∃ db', db.status k = .free ∧ db.insertDone k payload now = some db' ∧
      ∀ k', db'.status k'
        = if k = k' then .done (SqlStorage.deserialize (some payload)) else db.status k') ∨
    db.status k ≠ .free ∧ db.insertDone k payload now = none := by
  rcases db.status_insertIdempotency ⟨k, some payload, now, some .done, none⟩ with
    ⟨hfree, -, hinsert⟩ | ⟨⟨r, hrow⟩, hinsert⟩
  · exact Or.inl ⟨_, hfree, hinsert, fun k' => status_put db _ k'⟩
  · refine Or.inr ⟨fun hfree => ?_, hinsert⟩
    rw [status_eq_free_iff.mp hfree] at hrow
    cases hrow

/-- The insertion that claims a key finds no record. -/
theorem insertClaim_cases [Add T] (db : SqlDb T) (k : String) (lease now : T) :
    (∃ db', db.status k = .free ∧ db.insertClaim k lease now = some db' ∧
      ∀ k', db'.status k'
        = if k = k' then .held ((now + lease : T) : WithTop T) else db.status k') ∨
    (∃ row, db.idempotency.get? k = some row) ∧ db.insertClaim k lease now = none := by
  rcases db.status_insertIdempotency ⟨k, none, now, some .pending, some (now + lease)⟩ with
    ⟨hfree, -, hinsert⟩ | ⟨hrow, hinsert⟩
  · exact Or.inl ⟨_, hfree, hinsert, fun k' => status_put db _ k'⟩
  · exact Or.inr ⟨hrow, hinsert⟩

variable [LinearOrder T] [Add T]

/-- The update that takes a claim over finds a lapsed lease. -/
theorem takeOver_cases (db : SqlDb T) (k : String) (lease now : T) :
    (∃ u : WithTop T, ∃ db', db.status k = .held u ∧ u ≤ now ∧ db.takeOver k lease now = some db' ∧
      ∀ k', db'.status k'
        = if k = k' then .held ((now + lease : T) : WithTop T) else db.status k') ∨
    (∀ u, db.status k = .held u → (now : WithTop T) < u) ∧ db.takeOver k lease now = none := by
  unfold takeOver updateIdempotency
  cases hrow : db.idempotency.get? k with
  | none =>
    right
    rw [status_of_none hrow]
    refine ⟨?_, rfl⟩
    rintro u ⟨⟩
  | some row =>
    have hkey : row.idempotencyKey = k := Table.key_of_get? hrow
    rw [status_of_some hrow, rowStatus]
    by_cases hpending : pending row = true
    · rw [if_pos hpending]
      cases hlease : row.leaseExpiresAt with
      | none =>
        right
        refine ⟨?_, ?_⟩
        · rintro u ⟨⟩
          exact WithTop.coe_lt_top now
        · simp only [hlease, Option.any_none, Bool.and_false, if_neg Bool.false_ne_true]
      | some t =>
        by_cases hlapsed : t ≤ now
        · left
          refine ⟨(t : WithTop T), _, rfl, WithTop.coe_le_coe.mpr hlapsed, if_pos ?_, ?_⟩
          · show (pending row && row.leaseExpiresAt.any fun t => decide (t ≤ now)) = true
            rw [hpending, hlease, Option.any_some, decide_eq_true hlapsed]
            rfl
          · intro k'
            rw [status_put]
            simp only [hkey]
            by_cases hk : k = k'
            · rw [if_pos hk, if_pos hk, rowStatus, if_pos]
              · rfl
              · exact hpending
            · rw [if_neg hk, if_neg hk]
        · right
          refine ⟨?_, ?_⟩
          · rintro u ⟨⟩
            exact WithTop.coe_lt_coe.mpr (not_le.mp hlapsed)
          · simp only [hlease, Option.any_some, decide_eq_false hlapsed, Bool.and_false,
              if_neg Bool.false_ne_true]
    · rw [if_neg hpending]
      right
      refine ⟨?_, ?_⟩
      · rintro u ⟨⟩
      simp only [Bool.eq_false_iff.mpr hpending, Bool.false_and, if_neg Bool.false_ne_true]

end SqlDb

namespace SqlStorage

variable {T : Type} [Rounding]

theorem status_markProcessed (db : SqlDb T) (k : String) (v : Value) (now : T) (k' : String) :
    (markProcessed db k v now).status k'
      = if k = k' then (db.status k').mark (deserialize (some (serialize v)))
        else db.status k' := by
  unfold markProcessed
  rcases db.complete_cases k (serialize v) now with
    ⟨u, db', hheld, hcomplete, hstatus⟩ | ⟨hlease, hcomplete⟩
  · rw [hcomplete]
    simp only
    rw [hstatus]
    by_cases hk : k = k'
    · subst hk
      rw [if_pos rfl, if_pos rfl, hheld]
      rfl
    · rw [if_neg hk, if_neg hk]
  · rw [hcomplete]
    simp only
    rcases db.insertDone_cases k (serialize v) now with
      ⟨db', hfree, hinsert, hstatus⟩ | ⟨hne, hinsert⟩
    · rw [hinsert, Option.getD_some, hstatus]
      by_cases hk : k = k'
      · subst hk
        rw [if_pos rfl, if_pos rfl, hfree]
        rfl
      · rw [if_neg hk, if_neg hk]
    · rw [hinsert, Option.getD_none]
      by_cases hk : k = k'
      · subst hk
        rw [if_pos rfl]
        cases hst : db.status k with
        | free => exact absurd hst hne
        | held u =>
          rw [hst] at hlease
          cases hlease
        | done w => rfl
      · rw [if_neg hk]

variable [LinearOrder T] [Add T]

/-- **A claim**: what it answers, and the record after it. -/
theorem status_claimProcessed (db : SqlDb T) (k : String) (lease now : T) (later : List T)
    (k' : String) :
    (claimProcessed db k lease (now :: later)).2 = claimAnswer now (db.status k) ∧
      (claimProcessed db k lease (now :: later)).1.status k'
        = if k = k' then (db.status k').claim now ((now + lease : T) : WithTop T)
          else db.status k' := by
  rw [claimProcessed]
  rcases db.insertClaim_cases k lease now with
    ⟨db', hfree, hinsert, hstatus⟩ | ⟨⟨row, hrow⟩, hinsert⟩
  · rw [hinsert]
    refine ⟨by rw [hfree]; rfl, (hstatus k').trans ?_⟩
    exact (ite_claim_of_grants hfree rfl).symm
  rw [hinsert, SqlDb.selectIdempotency, hrow]
  have hstatus := SqlDb.status_of_some hrow
  rw [SqlDb.rowStatus] at hstatus
  by_cases hpending : SqlDb.pending row = true
  · rw [if_pos hpending] at hstatus
    simp only [hpending, not_true_eq_false, if_false]
    by_cases hlive : (row.leaseExpiresAt.any fun t => decide (now < t)) = true
    · obtain ⟨t, ht, hlt⟩ := (Option.any_eq_true _ _).mp hlive
      have hlt' : (now : WithTop T) < row.leaseExpiresAt := by
        rw [ht]
        exact WithTop.coe_lt_coe.mpr (of_decide_eq_true hlt)
      rw [if_pos hlive]
      refine ⟨(congrArg (claimAnswer now) hstatus).trans (claimAnswer_of_lt hlt') |>.symm, ?_⟩
      exact (ite_claim_of_refuses hstatus (Status.grants_held_of_lt hlt')).symm
    · rw [if_neg hlive]
      rcases db.takeOver_cases k lease now with
        ⟨u, db', hheld, hlapsed, htake, hafter⟩ | ⟨hlease, htake⟩
      · rw [htake]
        refine ⟨by rw [hheld, claimAnswer_of_le hlapsed], (hafter k').trans ?_⟩
        exact (ite_claim_of_grants hheld (Status.grants_held_of_le hlapsed)).symm
      · rw [htake]
        have hlt := hlease _ hstatus
        refine ⟨(congrArg (claimAnswer now) hstatus).trans (claimAnswer_of_lt hlt) |>.symm, ?_⟩
        exact (ite_claim_of_refuses hstatus (Status.grants_held_of_lt hlt)).symm
  · rw [if_neg hpending] at hstatus
    simp only [hpending]
    refine ⟨by rw [hstatus]; rfl, ?_⟩
    exact (ite_claim_of_refuses hstatus rfl).symm

omit [LinearOrder T] [Add T] in
theorem status_log (db : SqlDb T) (key : String) (value : Value) (idempotencyKey : Option String)
    (timestamp : PyFloat) (k : String) :
    (log db key value idempotencyKey timestamp).status k = db.status k := by
  unfold log SqlDb.insertEvent
  split
  · rfl
  · rfl

/-- **What a call does to a record.** -/
theorem status_perform (db : SqlDb T) (op : LedgerOp T) (x : Clock T) (key : String) :
    (perform db op x).1.status key
      = afterCall key x.wall (fun l => ((x.wall + l : T) : WithTop T))
          (fun v => deserialize (some (serialize v))) false op (db.status key) := by
  cases op with
  | log k v i => exact status_log db k v i x.stamp key
  | claim k l => exact (status_claimProcessed db k l x.wall [x.wall'] key).2
  | release k => exact db.status_deletePending k key
  | mark k v => exact status_markProcessed db k v x.wall key
  | _ => rfl

theorem claim_answer (db : SqlDb T) (k : String) (l : T) (x : Clock T) :
    (perform db (.claim k l) x).2 = .claim (claimAnswer x.wall (db.status k)) := by
  show LedgerAnswer.claim _ = _
  rw [(status_claimProcessed db k l x.wall [x.wall'] k).1]

theorem check_answer (db : SqlDb T) (k : String) (x : Clock T) :
    (perform db (.check k) x).2 = .value ((db.status k).result?.getD .none) := by
  show LedgerAnswer.value (checkProcessed db k) = _
  unfold checkProcessed SqlDb.selectIdempotency
  cases hrow : db.idempotency.get? k with
  | none =>
    rw [SqlDb.status_of_none hrow]
    rfl
  | some row =>
    rw [SqlDb.status_of_some hrow, SqlDb.rowStatus]
    by_cases hpending : SqlDb.pending row = true
    · simp only [if_pos hpending]
      rfl
    · simp only [if_neg hpending]
      rfl

end SqlStorage

/-! ### `RedisStoragePlugin` -/

namespace RedisStorage

variable {T : Type} (c : RedisConfig T)

/-! #### The keys of the three families never meet -/

theorem append_inj {p tag k k' : String} (h : p ++ tag ++ k = p ++ tag ++ k') : k = k' := by
  have hlist := congrArg String.toList h
  simp only [String.toList_append] at hlist
  exact String.toList_inj.mp (List.append_cancel_left hlist)

theorem append_ne {p tag tag' k k' : String} {a b : Char} {as bs : List Char}
    (htag : tag.toList = a :: as) (htag' : tag'.toList = b :: bs) (hne : a ≠ b) :
    p ++ tag ++ k ≠ p ++ tag' ++ k' := by
  intro h
  have hlist := congrArg String.toList h
  rw [String.toList_append, String.toList_append, String.toList_append, String.toList_append,
    List.append_assoc, List.append_assoc] at hlist
  have htags := List.append_cancel_left hlist
  rw [htag, htag'] at htags
  exact hne (List.cons.inj htags).1

theorem idempKey_inj {k k' : String} (h : idempKey c k = idempKey c k') : k = k' := append_inj h

theorem kvKey_inj {k k' : String} (h : kvKey c k = kvKey c k') : k = k' := append_inj h

theorem logKey_inj {k k' : String} (h : logKey c k = logKey c k') : k = k' := append_inj h

theorem kvKey_ne_idempKey (k k' : String) : kvKey c k ≠ idempKey c k' :=
  append_ne (a := 'k') (b := 'i') rfl rfl (by decide)

theorem logKey_ne_idempKey (k k' : String) : logKey c k ≠ idempKey c k' :=
  append_ne (a := 'l') (b := 'i') rfl rfl (by decide)

theorem kvKey_ne_logKey (k k' : String) : kvKey c k ≠ logKey c k' :=
  append_ne (a := 'k') (b := 'l') rfl rfl (by decide)

/-! #### Records -/

/-- What a key holds, as a cell of the server. -/
def cell (db : RedisDb) (key : String) : Option RedisValue := (db.keys.get? key).map Prod.snd

theorem cell_set (db : RedisDb) (k : String) (data : Bytes) (expires : Option ℤ) (k' : String) :
    cell (db.set k data expires) k' = if k' = k then some (.string data expires)
      else cell db k' := by
  rw [cell, RedisDb.set, Table.get?_put]
  split
  · rfl
  · rfl

theorem cell_del (db : RedisDb) (k k' : String) :
    cell (db.del k) k' = if k' = k then none else cell db k' := by
  rw [cell, RedisDb.del, Table.get?_erase]
  split
  · rfl
  · rfl

theorem cell_lpush (db : RedisDb) (k : String) (item : Bytes) (k' : String) :
    cell (db.lpush k item) k' = if k' = k then some (.list (item :: db.items k))
      else cell db k' := by
  rw [cell, RedisDb.lpush, Table.get?_put]
  split
  · rfl
  · rfl

/-- `GET` reads the cell. -/
theorem get_eq (db : RedisDb) (now : ℤ) (k : String) :
    db.get now k
      = match cell db k with
        | some (.string data expires) =>
          if expires.all (fun t => now ≤ t) then some data else none
        | _ => none := by
  unfold RedisDb.get cell
  cases db.keys.get? k with
  | none => rfl
  | some row =>
    obtain ⟨k', v⟩ := row
    cases v <;> rfl

theorem items_eq (db : RedisDb) (k : String) :
    db.items k
      = match cell db k with
        | some (.list items) => items
        | _ => [] := by
  unfold RedisDb.items cell
  cases db.keys.get? k with
  | none => rfl
  | some row =>
    obtain ⟨k', v⟩ := row
    cases v <;> rfl

section

variable [Rounding]

/-- The key has this record.  A claimed key expires after its last millisecond; a done one does
not. -/
def Has (db : RedisDb) (key : String) : Status ℤ Value → Prop
  | .free => cell db (idempKey c key) = none
  | .held u =>
    ∃ t : ℤ, u = ((t + 1 : ℤ) : WithTop ℤ) ∧
      cell db (idempKey c key) = some (.string [RedisDb.pendingTag] (some t))
  | .done v =>
    ∃ body, v = loadsOrRaw body ∧
      cell db (idempKey c key) = some (.string (RedisDb.doneTag :: body) none)

/-- The record depends on its cell alone. -/
theorem Has.congr {db db' : RedisDb} {key : String} {st : Status ℤ Value} (h : Has c db key st)
    (hcell : cell db' (idempKey c key) = cell db (idempKey c key)) : Has c db' key st := by
  cases st with
  | free => exact hcell.trans h
  | held u =>
    obtain ⟨t, hu, hold⟩ := h
    exact ⟨t, hu, hcell.trans hold⟩
  | done v =>
    obtain ⟨body, hv, hold⟩ := h
    exact ⟨body, hv, hcell.trans hold⟩

/-- What `GET` finds under the key of a record. -/
theorem Has.get {db : RedisDb} {key : String} {st : Status ℤ Value} (h : Has c db key st)
    (now : ℤ) :
    (st.grants now = true ∧ db.get now (idempKey c key) = none) ∨
    (∃ u, st = .held u ∧ (now : WithTop ℤ) < u ∧
      db.get now (idempKey c key) = some [RedisDb.pendingTag]) ∨
    ∃ body, st = .done (loadsOrRaw body) ∧
      db.get now (idempKey c key) = some (RedisDb.doneTag :: body) := by
  rw [get_eq]
  cases st with
  | free =>
    left
    rw [show cell db (idempKey c key) = none from h]
    exact ⟨rfl, rfl⟩
  | held u =>
    obtain ⟨t, rfl, hcell⟩ := h
    rw [hcell]
    by_cases hlive : now ≤ t
    · right; left
      refine ⟨_, rfl, WithTop.coe_lt_coe.mpr (by omega), ?_⟩
      exact if_pos (decide_eq_true hlive)
    · left
      refine ⟨Status.grants_held_of_le (WithTop.coe_le_coe.mpr (by omega)), ?_⟩
      exact if_neg (by simpa using hlive)
  | done v =>
    obtain ⟨body, rfl, hcell⟩ := h
    right; right
    rw [hcell]
    exact ⟨body, rfl, rfl⟩

/-- The call is one that the plugin and the server take: an expiry is positive, and a result is
JSON. -/
def Accepts : LedgerOp T → Prop
  | .claim _ l => 0 < c.millis l
  | .mark _ (.bytes _) => False
  | _ => True

/-- What reading a stored result back gives. -/
def resultBack : Value → Value
  | .json j => loadsOrRaw (Utf8.encode j.dumps)
  | .bytes data => .bytes data

omit [Rounding] in
theorem cell_set_of_ne {db : RedisDb} {k k' : String} (h : k' ≠ k) (data : Bytes)
    (expires : Option ℤ) : cell (db.set k data expires) k' = cell db k' := by
  rw [cell_set, if_neg h]

/-- **A claim**: what it answers, and the record after it. -/
theorem has_claimProcessed {db : RedisDb} {key : String} {st : Status ℤ Value}
    (h : Has c db key st) (now : ℤ) {l : T} (hl : st.grants now = true → 0 < c.millis l) :
    (claimProcessed c db now key l).2 = some (claimAnswer now st) ∧
      Has c (claimProcessed c db now key l).1 key
        (st.claim now ((now + c.millis l + 1 : ℤ) : WithTop ℤ)) := by
  unfold claimProcessed RedisDb.claimLua
  rcases h.get c now with ⟨hgrants, hget⟩ | ⟨u, rfl, hlt, hget⟩ | ⟨body, rfl, hget⟩
  · rw [hget]
    simp only [if_neg (not_le.mpr (hl hgrants)), Option.map_some, Option.all_none, if_true]
    rw [Status.claim_of_grants hgrants]
    refine ⟨?_, now + c.millis l, rfl, ?_⟩
    · cases st with
      | free => rfl
      | held u => rw [claimAnswer_of_le (of_decide_eq_true hgrants)]
      | done v => cases hgrants
    · rw [cell_set, if_pos rfl]
  · rw [hget]
    rw [Status.claim_of_refuses (Status.grants_held_of_lt hlt), claimAnswer_of_lt hlt]
    exact ⟨rfl, h⟩
  · rw [hget]
    exact ⟨rfl, h⟩

theorem has_releaseClaim {db : RedisDb} {key : String} {st : Status ℤ Value}
    (h : Has c db key st) (now : ℤ) :
    Has c (releaseClaim c db now key) key
      (if st.grants now then st else st.release) := by
  unfold releaseClaim RedisDb.releaseLua
  rcases h.get c now with ⟨hgrants, hget⟩ | ⟨u, rfl, hlt, hget⟩ | ⟨body, rfl, hget⟩
  · rw [hget, Option.any_none, if_neg Bool.false_ne_true, if_pos hgrants]
    exact h
  · rw [hget, if_neg (Bool.eq_false_iff.mp (Status.grants_held_of_lt hlt))]
    show cell (db.del _) _ = none
    rw [cell_del, if_pos rfl]
  · rw [hget]
    exact h

theorem has_markProcessed {db db' : RedisDb} {key : String} {st : Status ℤ Value}
    (h : Has c db key st) (now : ℤ) {v : Value} (hmark : markProcessed c db now key v = some db') :
    Has c db' key (st.mark (resultBack v)) := by
  cases v with
  | bytes data => cases hmark
  | json j =>
    have hdb : db.markLua now (idempKey c key) (RedisDb.doneTag :: Utf8.encode j.dumps) = db' :=
      Option.some.inj hmark
    subst hdb
    have hset : Has c (db.set (idempKey c key) (RedisDb.doneTag :: Utf8.encode j.dumps) none) key
        (.done (resultBack (.json j))) := by
      refine ⟨_, rfl, ?_⟩
      rw [cell_set, if_pos rfl]
    unfold RedisDb.markLua
    rcases h.get c now with ⟨hgrants, hget⟩ | ⟨u, rfl, hlt, hget⟩ | ⟨body, rfl, hget⟩
    · rw [hget, Option.any_none, if_neg Bool.false_ne_true]
      cases st with
      | done v => cases hgrants
      | _ => exact hset
    · rw [hget, Option.any_some, if_neg (by decide)]
      exact hset
    · rw [hget, Option.any_some, if_pos (RedisDb.tagged_cons _ _)]
      exact h

/-- The server key that a call may write. -/
def target : LedgerOp T → Option String
  | .put k _ => some (kvKey c k)
  | .delete k => some (kvKey c k)
  | .log k _ _ => some (logKey c k)
  | .claim k _ => some (idempKey c k)
  | .release k => some (idempKey c k)
  | .mark k _ => some (idempKey c k)
  | _ => none

/-- A call leaves every other server key as it is. -/
theorem cell_perform {db : RedisDb} {op : LedgerOp T} {x : Clock T} {name : String}
    (hop : target c op ≠ some name) : cell (perform c db op x).1 name = cell db name := by
  have hne : ∀ {k}, target c op = some k → name ≠ k := by
    rintro k hk rfl
    exact hop hk
  cases op with
  | put k v =>
    cases v <;> exact cell_set_of_ne (hne rfl) _ _
  | delete k =>
    show cell (db.del _) _ = _
    rw [cell_del, if_neg (hne rfl)]
  | log k v i =>
    have hpush : ∀ item, cell (db.lpush (logKey c k) item) name = cell db name := by
      intro item
      rw [cell_lpush, if_neg (hne rfl)]
    unfold perform
    simp only [log]
    cases entryValue v with
    | none => rfl
    | some j =>
      show cell (pushEntry c db x.server k i _) _ = _
      unfold pushEntry
      split
      · exact hpush _
      · split
        · exact hpush _
        · unfold RedisDb.logLua
          split
          · rfl
          · exact hpush _
  | claim k l =>
    show cell (claimProcessed c db x.server k l).1 _ = _
    unfold claimProcessed RedisDb.claimLua
    split
    · rfl
    · split
      · rfl
      · exact cell_set_of_ne (hne rfl) _ _
  | release k =>
    show cell (releaseClaim c db x.server k) _ = _
    unfold releaseClaim RedisDb.releaseLua
    split
    · rw [cell_del, if_neg (hne rfl)]
    · rfl
  | mark k v =>
    cases v with
    | bytes data => rfl
    | json j =>
      show cell (db.markLua _ _ _) _ = _
      unfold RedisDb.markLua
      split
      · rfl
      · exact cell_set_of_ne (hne rfl) _ _
  | _ => rfl

/-- **What a call does to a record.** -/
theorem has_perform {db : RedisDb} {op : LedgerOp T} {key : String} {st : Status ℤ Value}
    (h : Has c db key st) (x : Clock T) (hop : Accepts c op) :
    Has c (perform c db op x).1 key
      (afterCall key x.server (fun l => ((x.server + c.millis l + 1 : ℤ) : WithTop ℤ))
        resultBack true op st) := by
  have hframe : target c op ≠ some (idempKey c key) → Has c (perform c db op x).1 key st :=
    fun hne => h.congr c (cell_perform c hne)
  have hother : ∀ {k}, ¬ k = key → some (idempKey c k) ≠ some (idempKey c key) :=
    fun hk heq => hk (idempKey_inj c (Option.some.inj heq))
  cases op with
  | claim k l =>
    by_cases hk : k = key
    · subst hk
      rw [afterCall, if_pos rfl]
      exact (has_claimProcessed c h x.server fun _ => hop).2
    · rw [afterCall, if_neg hk]
      exact hframe (hother hk)
  | release k =>
    by_cases hk : k = key
    · subst hk
      rw [afterCall, if_pos rfl, Bool.true_and]
      exact has_releaseClaim c h x.server
    · rw [afterCall, if_neg hk]
      exact hframe (hother hk)
  | mark k v =>
    by_cases hk : k = key
    · subst hk
      rw [afterCall, if_pos rfl]
      cases v with
      | bytes data => exact absurd hop id
      | json j => exact has_markProcessed c h x.server rfl
    · rw [afterCall, if_neg hk]
      exact hframe (hother hk)
  | put k v => exact hframe fun heq => kvKey_ne_idempKey c k key (Option.some.inj heq)
  | delete k => exact hframe fun heq => kvKey_ne_idempKey c k key (Option.some.inj heq)
  | log k v i => exact hframe fun heq => logKey_ne_idempKey c k key (Option.some.inj heq)
  | _ => exact hframe nofun

/-- A call that is refused changes nothing. -/
theorem perform_of_not_accepts {db : RedisDb} {op : LedgerOp T} (x : Clock T)
    (hop : ¬ Accepts c op) : (perform c db op x).1 = db := by
  cases op with
  | claim k l =>
    show (claimProcessed c db x.server k l).1 = db
    unfold claimProcessed RedisDb.claimLua
    split
    · rfl
    · rw [if_pos (not_lt.mp hop)]
  | mark k v =>
    cases v with
    | bytes data => rfl
    | json j => exact absurd trivial hop
  | _ => exact absurd trivial hop

theorem claim_answer {db : RedisDb} {k : String} {st : Status ℤ Value} (h : Has c db k st)
    (x : Clock T) {l : T} (hl : st.grants x.server = true → 0 < c.millis l) :
    (perform c db (.claim k l) x).2 = .claim (claimAnswer x.server st) := by
  show ((claimProcessed c db x.server k l).2.map LedgerAnswer.claim).getD .raised = _
  rw [(has_claimProcessed c h x.server hl).1]
  rfl

theorem check_answer {db : RedisDb} {k : String} {st : Status ℤ Value} (h : Has c db k st)
    (x : Clock T) :
    (perform c db (.check k) x).2 = .value (st.result?.getD .none) := by
  show LedgerAnswer.value ((decodeRecord (db.get x.server (idempKey c k))).getD .none) = _
  rcases h.get c x.server with ⟨hgrants, hget⟩ | ⟨u, rfl, hlt, hget⟩ | ⟨body, rfl, hget⟩
  · rw [hget]
    cases st with
    | done v => cases hgrants
    | _ => rfl
  · rw [hget]
    rfl
  · rw [hget]
    rfl

end

end RedisStorage

end Istos
