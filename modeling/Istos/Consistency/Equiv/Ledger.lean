import Istos.Consistency.Equiv.Stored
import Istos.Consistency.Ledger

/-!
# A backend simulates the ledger

`Backend.Represents` says that a backend holds what a ledger holds: every value, every log and the
state of every idempotency key.  The in-memory backend and Redis skip a call of `log` whose
idempotency key is done, SQL one whose idempotency key is in a log (`Backend.Skips`).

* `Backend.represents_perform`: a call of a backend does what it does to the ledger, as long as no
  lease has lapsed and its values are JSON objects.
* `Backend.observe_perform`: it answers as the ledger does.
-/

namespace Istos

open Lease

variable {T : Type}

/-! ### Values and records -/

/-- A JSON object. -/
def Value.IsObject [Rounding] : Value → Prop
  | .json (.obj fields) => (Json.obj fields).Valid
  | _ => False

theorem Value.IsObject.eq [Rounding] {v : Value} (h : v.IsObject) :
    ∃ fields, v = .json (.obj fields) ∧ (Json.obj fields).Valid := by
  unfold Value.IsObject at h
  split at h
  · exact ⟨_, rfl, h⟩
  · exact absurd h id

namespace LedgerOp

/-- The call carries JSON objects. -/
def Objects [Rounding] : LedgerOp T → Prop
  | put _ v => v.IsObject
  | log _ v _ => v.IsObject
  | mark _ v => v.IsObject
  | _ => True

end LedgerOp

/-- A record is free, held or done, as the ledger says. -/
def Matches {S : Type} : Status S Value → Mode → Prop
  | .free, .free => True
  | .held _, .held => True
  | .done v, .done j => v = .json j
  | _, _ => False

/-- **A record under a call**, where no lease lapses. -/
theorem Matches.afterCall {S : Type} [LinearOrder S] [Rounding] {key : String} {now : S}
    {lapse : T → WithTop S} {stored : Value → Value} {keeps : Bool} {op : LedgerOp T}
    {st : Status S Value} {m : Mode} (h : Matches st m) (hop : op.Objects)
    (hstored : ∀ fields, (Json.obj fields).Valid →
      stored (.json (.obj fields)) = .json (.obj fields))
    (hlive : ∀ u, st = .held u → (now : WithTop S) < u) :
    Matches (Istos.afterCall key now lapse stored keeps op st) (m.after key op) := by
  cases op with
  | claim k l =>
    rw [Istos.afterCall]
    cases st with
    | free =>
      cases m with
      | free =>
        rw [Status.claim_of_grants rfl, Mode.after]
        split
        · trivial
        · trivial
      | _ => cases h
    | held u =>
      cases m with
      | held =>
        rw [Status.claim_of_refuses (Status.grants_held_of_lt (hlive u rfl)), ite_self]
        trivial
      | _ => cases h
    | done v =>
      cases m with
      | done j =>
        rw [Status.claim_of_refuses rfl, ite_self]
        exact h
      | _ => cases h
  | release k =>
    rw [Istos.afterCall]
    cases st with
    | free =>
      cases m with
      | free =>
        have hfree : (if keeps && (Status.free : Status S Value).grants now then
            (Status.free : Status S Value) else Status.free.release) = .free := ite_self _
        rw [hfree, ite_self]
        trivial
      | _ => cases h
    | held u =>
      cases m with
      | held =>
        rw [Status.grants_held_of_lt (hlive u rfl), Bool.and_false, if_neg Bool.false_ne_true,
          Mode.after]
        split
        · trivial
        · trivial
      | _ => cases h
    | done v =>
      cases m with
      | done j =>
        have hdone : (if keeps && (Status.done v : Status S Value).grants now then
            (Status.done v : Status S Value) else (Status.done v).release) = .done v := ite_self _
        rw [hdone, ite_self]
        exact h
      | _ => cases h
  | mark k v =>
    rw [Istos.afterCall]
    obtain ⟨fields, rfl, hvalid⟩ := Value.IsObject.eq hop
    rw [hstored fields hvalid]
    cases st with
    | free =>
      cases m with
      | free =>
        rw [Mode.after]
        split
        · rfl
        · trivial
        · exact fun v hv => Mode.noConfusion hv
      | _ => cases h
    | held u =>
      cases m with
      | held =>
        rw [Mode.after]
        split
        · rfl
        · trivial
        · exact fun v hv => Mode.noConfusion hv
      | _ => cases h
    | done v =>
      cases m with
      | done j =>
        have hdone : (Status.done v : Status S Value).mark (.json (.obj fields)) = .done v := rfl
        rw [hdone, ite_self]
        exact h
      | _ => cases h
  | _ => exact h

/-- What a claim answers. -/
theorem Matches.claimAnswer_eq {S : Type} [LinearOrder S] {st : Status S Value} {L : Ledger}
    {key : String} (h : Matches st (L.mode key)) {now : S}
    (hlive : ∀ u, st = .held u → (now : WithTop S) < u) (l : T) :
    Observation.claim (claimAnswer now st) = L.answer (.claim key l) := by
  rw [Ledger.answer]
  generalize L.mode key = m at h
  cases st with
  | free =>
    cases m with
    | free => rfl
    | _ => cases h
  | held u =>
    cases m with
    | held => rw [claimAnswer_of_lt (hlive u rfl)]
    | _ => cases h
  | done v =>
    cases m with
    | done j =>
      obtain rfl : v = .json j := h
      rfl
    | _ => cases h

/-- What a check answers. -/
theorem Matches.result?_eq {S : Type} {st : Status S Value} {L : Ledger} {key : String}
    (h : Matches st (L.mode key)) :
    Observation.value (st.result?.getD .none) = L.answer (T := T) (.check key) := by
  rw [Ledger.answer]
  generalize L.mode key = m at h
  cases st with
  | done v =>
    cases m with
    | done j =>
      obtain rfl : v = .json j := h
      rfl
    | _ => cases h
  | free =>
    cases m with
    | free => rfl
    | _ => cases h
  | held u =>
    cases m with
    | held => rfl
    | _ => cases h

/-! ### Logs -/

theorem newest_map {α β : Type} (f : α → β) (es : List α) (limit : ℤ) :
    (newest es limit).map f = newest (es.map f) limit := by
  unfold newest
  split
  · rfl
  · rw [List.map_take, List.map_reverse]

namespace InMemoryStorage

/-- The log of a key, timestamps aside. -/
def entries (s : InMemoryStorage T) (key : String) : List (Value × Option String) :=
  (s.logOf key).map fun e => (e.value, e.idempotencyKey)

theorem entries_log (s : InMemoryStorage T) (k : String) (v : Value) (i : Option String)
    (timestamp : PyFloat) (key : String) :
    (s.log k v i timestamp).entries key
      = if k = key ∧ s.finished i = false then s.entries key ++ [(v, i)] else s.entries key := by
  unfold log
  by_cases hfinished : s.finished i = true
  · rw [if_pos hfinished, if_neg]
    rintro ⟨-, hnot⟩
    rw [hfinished] at hnot
    cases hnot
  · have hnot : s.finished i = false := Bool.eq_false_iff.mpr hfinished
    rw [if_neg hfinished, entries, logOf, Table.get?_put]
    by_cases hk : k = key
    · subst hk
      rw [if_pos rfl, if_pos ⟨rfl, hnot⟩, Option.map_some, Option.getD_some, List.map_append]
      rfl
    · rw [if_neg (Ne.symm hk), if_neg (fun h => hk h.1)]
      rfl

/-- A log depends on the calls of `log`. -/
theorem entries_perform [LinearOrder T] [Zero T] [Add T] (s : InMemoryStorage T) {op : LedgerOp T}
    (hop : ∀ k v i, op ≠ .log k v i) (x : Clock T) (key : String) :
    (s.perform op x).1.entries key = s.entries key := by
  cases op with
  | log k v i => exact absurd rfl (hop k v i)
  | claim k l =>
    show (s.claimProcessed k l x.monotonic x.monotonic').1.entries key = _
    unfold claimProcessed
    repeat' split
    all_goals rfl
  | release k =>
    show (s.releaseClaim k).entries key = _
    unfold releaseClaim
    split
    · rfl
    · rfl
  | mark k v =>
    show (s.markProcessed k v).entries key = _
    unfold markProcessed
    split
    · rfl
    · rfl
  | _ => rfl

end InMemoryStorage

namespace SqlStorage

variable [Rounding]

/-- The log of a key, timestamps aside. -/
def entries (db : SqlDb T) (key : String) : List (Value × Option String) :=
  (db.eventLog.filter fun row => row.key = key).map fun row =>
    (deserialize (some row.value), row.idempotencyKey)

/-- The idempotency key is in the event log. -/
def logged (db : SqlDb T) (i : Option String) : Prop :=
  i.isSome ∧ i ∈ db.eventLog.map EventRow.idempotencyKey

theorem entries_log (db : SqlDb T) (k : String) (v : Value) (i : Option String)
    (timestamp : PyFloat) (key : String) :
    (k = key ∧ ¬ logged db i ∧ entries (log db k v i timestamp) key
        = entries db key ++ [(deserialize (some (serialize v)), i)]) ∨
      (¬ (k = key ∧ ¬ logged db i) ∧ entries (log db k v i timestamp) key = entries db key) := by
  unfold log SqlDb.insertEvent
  by_cases hlogged : logged db i
  · have hrefused : (i.isSome = true ∧ i ∈ db.eventLog.map EventRow.idempotencyKey) := hlogged
    simp only [if_pos hrefused]
    exact Or.inr ⟨fun h => h.2 hlogged, rfl⟩
  · have hrefused : ¬ (i.isSome = true ∧ i ∈ db.eventLog.map EventRow.idempotencyKey) := hlogged
    simp only [if_neg hrefused, Option.getD_some]
    have hfilter : entries { db with eventLog := db.eventLog ++ [⟨k, serialize v, i,
      timestamp⟩] } key
        = entries db key ++ (if k = key then [(deserialize (some (serialize v)), i)] else []) := by
      unfold entries
      rw [List.filter_append, List.map_append]
      by_cases hk : k = key
      · simp [hk]
      · simp [hk]
    rw [hfilter]
    by_cases hk : k = key
    · rw [if_pos hk]
      exact Or.inl ⟨hk, hlogged, rfl⟩
    · rw [if_neg hk, List.append_nil]
      exact Or.inr ⟨fun h => hk h.1, rfl⟩

omit [Rounding] in
theorem eventLog_updateIdempotency {db db' : SqlDb T} {k : String} {cond : IdempotencyRow T → Bool}
    {change : (row : IdempotencyRow T) →
      {row' : IdempotencyRow T // row'.idempotencyKey = row.idempotencyKey}}
    (h : db.updateIdempotency k cond change = some db') : db'.eventLog = db.eventLog := by
  unfold SqlDb.updateIdempotency at h
  split at h
  · split at h
    · obtain rfl := Option.some.inj h
      rfl
    · cases h
  · cases h

omit [Rounding] in
theorem eventLog_insertIdempotency {db db' : SqlDb T} {row : IdempotencyRow T}
    (h : db.insertIdempotency row = some db') : db'.eventLog = db.eventLog := by
  unfold SqlDb.insertIdempotency at h
  split at h
  · cases h
  · obtain rfl := Option.some.inj h
    rfl

theorem eventLog_claimProcessed [LinearOrder T] [Add T] (db : SqlDb T) (k : String) (l : T)
    (readings : List T) : (claimProcessed db k l readings).1.eventLog = db.eventLog := by
  induction readings with
  | nil => rfl
  | cons now later ih =>
    unfold claimProcessed
    split
    · rename_i db' hinsert
      exact eventLog_insertIdempotency hinsert
    · split
      · exact ih
      · split
        · rfl
        · split
          · rfl
          · split
            · rename_i db' htake
              exact eventLog_updateIdempotency htake
            · rfl

/-- A log depends on the calls of `log`. -/
theorem eventLog_perform [LinearOrder T] [Add T] (db : SqlDb T) {op : LedgerOp T}
    (hop : ∀ k v i, op ≠ .log k v i) (x : Clock T) :
    (perform db op x).1.eventLog = db.eventLog := by
  cases op with
  | log k v i => exact absurd rfl (hop k v i)
  | claim k l => exact eventLog_claimProcessed db k l _
  | release k =>
    show (db.deletePending k).eventLog = _
    unfold SqlDb.deletePending
    repeat' split
    all_goals rfl
  | mark k v =>
    show (markProcessed db k v x.wall).eventLog = _
    unfold markProcessed
    split
    · rename_i db' hcomplete
      exact eventLog_updateIdempotency hcomplete
    · cases hinsert : db.insertDone k (serialize v) x.wall with
      | none => rfl
      | some db' => exact eventLog_insertIdempotency hinsert
  | _ => rfl

end SqlStorage

namespace RedisStorage

variable [Rounding] (c : RedisConfig T)

/-- The item is read as this entry. -/
def Reads (item : Bytes) (e : Json × Option String) : Prop :=
  ∃ timestamp, readEntry item = some ⟨.json e.1, timestamp, e.2⟩

theorem reads_entryJson {j : Json} {timestamp : PyFloat} (hj : j.Valid) (ht : timestamp.Repr)
    (i : Option String) : Reads (Utf8.encode (entryJson j timestamp i).dumps) (j, i) := by
  have hvalid : (entryJson j timestamp i).Valid := by
    refine ⟨?_, hj, ht, ?_, trivial⟩
    · show ["value", "timestamp", "idempotency_key"].Nodup
      decide
    · cases i <;> exact trivial
  refine ⟨timestamp, ?_⟩
  rw [readEntry, Json.loadb_dumps hvalid]
  cases i <;> rfl

/-- What the items of a list are read as. -/
theorem mapM_readEntry {items : List Bytes} {es : List (Json × Option String)}
    (h : List.Forall₂ Reads items es) :
    ∃ log : List LogEntry, items.mapM readEntry = some log ∧
      log.map (fun e => (e.value, e.idempotencyKey)) = es.map fun e => (.json e.1, e.2) := by
  induction h with
  | nil => exact ⟨[], rfl, rfl⟩
  | @cons item e items es hitem _ ih =>
    obtain ⟨timestamp, hread⟩ := hitem
    obtain ⟨log, hlog, hmap⟩ := ih
    refine ⟨⟨.json e.1, timestamp, e.2⟩ :: log, ?_, ?_⟩
    · rw [List.mapM_cons, hread, hlog]
      rfl
    · rw [List.map_cons, hmap, List.map_cons]

omit [Rounding] in
theorem items_lpush (db : RedisDb) (k : String) (item : Bytes) (k' : String) :
    (db.lpush k item).items k' = if k' = k then item :: db.items k else db.items k' := by
  rw [items_eq, cell_lpush]
  by_cases hk : k' = k
  · rw [if_pos hk, if_pos hk]
  · rw [if_neg hk, if_neg hk, items_eq]

/-- The log of a key depends on the calls of `log`. -/
theorem items_perform {db : RedisDb} {op : LedgerOp T} (hop : ∀ k v i, op ≠ .log k v i)
    (x : Clock T) (key : String) :
    (perform c db op x).1.items (logKey c key) = db.items (logKey c key) := by
  have hcell : cell (perform c db op x).1 (logKey c key) = cell db (logKey c key) := by
    apply cell_perform
    intro heq
    cases op with
    | put k v => exact kvKey_ne_logKey c k key (Option.some.inj heq)
    | delete k => exact kvKey_ne_logKey c k key (Option.some.inj heq)
    | log k v i => exact hop k v i rfl
    | claim k l => exact logKey_ne_idempKey c key k (Option.some.inj heq).symm
    | release k => exact logKey_ne_idempKey c key k (Option.some.inj heq).symm
    | mark k v => exact logKey_ne_idempKey c key k (Option.some.inj heq).symm
    | _ => cases heq
  rw [items_eq, hcell, items_eq]

end RedisStorage

/-! ### A backend and its ledger -/

namespace Backend

variable [LinearOrder T] [Zero T] [Add T] [Rounding] (c : RedisConfig T)

/-- `get` answers this value. -/
def HasValue (key : String) (v : Option Json) (b : Backend) (s : b.State T) : Prop :=
  ∀ x, (b.perform c s (.get key) x).2 = .value ((v.map .json).getD .none)

/-- The log of a key. -/
def HasLog (key : String) (es : List (Json × Option String)) : (b : Backend) → b.State T → Prop
  | inMemory, s => InMemoryStorage.entries s key = es.map fun e => (.json e.1, e.2)
  | redis, s => List.Forall₂ RedisStorage.Reads
    (RedisDb.items s (RedisStorage.logKey c key)) es.reverse
  | sql, s => SqlStorage.entries s key = es.map fun e => (.json e.1, e.2)

/-- The record of an idempotency key. -/
def HasMode (key : String) (m : Mode) : (b : Backend) → b.State T → Prop
  | inMemory, s => Matches (InMemoryStorage.status s key) m
  | redis, s => ∃ st, RedisStorage.Has c s key st ∧ Matches st m
  | sql, s => Matches (SqlDb.status s key) m

/-- A backend holds what a ledger holds. -/
structure Represents (L : Ledger) (b : Backend) (s : b.State T) : Prop where
  value : ∀ key, HasValue c key (L.value key) b s
  log : ∀ key, HasLog c key (L.log key) b s
  mode : ∀ key, HasMode c key (L.mode key) b s

/-- No lease has lapsed. -/
def Unlapsed : (b : Backend) → b.State T → Clock T → Prop
  | inMemory, s, x =>
    ∀ key u, InMemoryStorage.status s key = .held u → (x.monotonic : WithTop T) < u
  | redis, s, x => ∀ key u, RedisStorage.Has c s key (.held u) → (x.server : WithTop ℤ) < u
  | sql, s, x => ∀ key u, SqlDb.status s key = .held u → (x.wall : WithTop T) < u

/-- The calls of `log` that a backend skips. -/
def Skips (L : Ledger) (i : Option String) : Backend → Prop
  | sql => L.Logged i
  | _ => L.Finished i

variable {c}

/-! #### Values -/

theorem get_perform {b : Backend} {s : b.State T} {op : LedgerOp T} {key : String}
    (hop : ¬ op.Writes key) (x y : Clock T) :
    (b.perform c (b.perform c s op x).1 (.get key) y).2 = (b.perform c s (.get key) y).2 := by
  cases b with
  | inMemory =>
    show LedgerAnswer.value (InMemoryStorage.get (InMemoryStorage.perform s op x).1 key) = _
    rw [InMemoryStorage.get, InMemoryStorage.store_perform hop]
    rfl
  | redis =>
    show ((RedisStorage.get c (RedisStorage.perform c s op x).1 y.server key).map
      LedgerAnswer.value).getD .raised = _
    rw [RedisStorage.get, RedisStorage.get_eq, RedisStorage.cell_kvKey_perform c hop,
      ← RedisStorage.get_eq]
    rfl
  | sql =>
    show LedgerAnswer.value (SqlStorage.get (SqlStorage.perform s op x).1 key) = _
    rw [SqlStorage.get, SqlStorage.kv_perform hop]
    rfl

theorem hasValue_put (key : String) {v : Json} (hv : v.Valid) (hstr : ∀ s, v ≠ .str s) (b : Backend)
    (s : b.State T) (x : Clock T) :
    HasValue c key (some v) b (b.perform c s (.put key (.json v)) x).1 := by
  intro y
  rw [get_answer c (holds_put c key v b s x) y,
    (b.readBack_eq_iff hv).mpr fun s hs => absurd hs (hstr s)]
  rfl

theorem hasValue_delete (key : String) (b : Backend) (s : b.State T) (x : Clock T) :
    HasValue c key none b (b.perform c s (.delete key) x).1 := by
  intro y
  cases b with
  | inMemory =>
    show LedgerAnswer.value (InMemoryStorage.get (InMemoryStorage.delete s key) key) = _
    rw [InMemoryStorage.get, InMemoryStorage.delete, Table.get?_erase, if_pos rfl]
    rfl
  | redis =>
    show ((RedisStorage.get c (RedisStorage.delete c s key) y.server key).map
      LedgerAnswer.value).getD .raised = _
    rw [RedisStorage.get, RedisStorage.get_eq, RedisStorage.delete, RedisStorage.cell_del,
      if_pos rfl]
    rfl
  | sql =>
    show LedgerAnswer.value (SqlStorage.get (SqlStorage.delete s key) key) = _
    rw [SqlStorage.get, SqlStorage.delete, Table.get?_erase, if_pos rfl]
    rfl

/-- **A value under a call.** -/
theorem hasValue_perform {b : Backend} {s : b.State T} {op : LedgerOp T} {key : String}
    {v : Option Json} (h : HasValue c key v b s) (hop : op.Objects) (x : Clock T) :
    HasValue c key (valueAfter key op v) b (b.perform c s op x).1 := by
  by_cases hwrites : op.Writes key
  · cases op with
    | put k w =>
      obtain rfl : k = key := hwrites
      obtain ⟨fields, rfl, hvalid⟩ := Value.IsObject.eq hop
      rw [valueAfter, if_pos rfl]
      exact hasValue_put k hvalid (fun s => Json.noConfusion) b s x
    | delete k =>
      obtain rfl : k = key := hwrites
      rw [valueAfter, if_pos rfl]
      exact hasValue_delete k b s x
    | _ => exact absurd hwrites id
  · have hafter : valueAfter key op v = v := by
      cases op with
      | put k w =>
        have hk : ¬ k = key := hwrites
        cases w with
        | json j => rw [valueAfter, if_neg hk]
        | bytes data => rfl
      | delete k =>
        have hk : ¬ k = key := hwrites
        rw [valueAfter, if_neg hk]
      | _ => rfl
    rw [hafter]
    exact fun y => (get_perform hwrites x y).trans (h y)

/-! #### Logs -/

/-- A call other than `log` leaves the log as it is. -/
theorem hasLog_perform_of_ne {b : Backend} {s : b.State T} {op : LedgerOp T} {key : String}
    {es : List (Json × Option String)} (h : HasLog c key es b s) (hop : ∀ k v i, op ≠ .log k v i)
    (x : Clock T) : HasLog c key es b (b.perform c s op x).1 := by
  cases b with
  | inMemory => exact (InMemoryStorage.entries_perform s hop x key).trans h
  | redis =>
    show List.Forall₂ _ ((RedisStorage.perform c s op x).1.items _) _
    rw [RedisStorage.items_perform c hop]
    exact h
  | sql =>
    show SqlStorage.entries (SqlStorage.perform s op x).1 key = _
    rw [SqlStorage.entries, SqlStorage.eventLog_perform s hop]
    exact h

omit [LinearOrder T] [Zero T] [Add T] [Rounding] in
/-- Whether the in-memory backend skips a call of `log`. -/
theorem finished_iff {L : Ledger} {s : InMemoryStorage T}
    (h : ∀ key, Matches (s.status key) (L.mode key)) (i : Option String) :
    s.finished i = true ↔ L.Finished i := by
  cases i with
  | none =>
    refine ⟨fun h => absurd h Bool.false_ne_true, ?_⟩
    rintro ⟨k, v, hk, -⟩
    cases hk
  | some k =>
    have hk := h k
    rw [InMemoryStorage.finished, decide_eq_true_iff]
    constructor
    · rintro ⟨hne, hdone⟩
      refine ⟨k, ?_⟩
      obtain ⟨r, hrec, hr⟩ := (Option.any_eq_true _ _).mp hdone
      rw [InMemoryStorage.status_of_some hrec, if_pos hr] at hk
      cases hmode : L.mode k with
      | done j => exact ⟨j, rfl, hne, rfl⟩
      | _ =>
        rw [hmode] at hk
        cases hk
    · rintro ⟨k', j, hk', hne, hmode⟩
      obtain rfl := Option.some.inj hk'
      refine ⟨hne, ?_⟩
      rw [hmode] at hk
      cases hrec : s.rec? k with
      | none =>
        rw [InMemoryStorage.status_of_none hrec] at hk
        cases hk
      | some r =>
        rw [InMemoryStorage.status_of_some hrec] at hk
        cases hr : r.done with
        | true => exact hr
        | false =>
          rw [hr, if_neg Bool.false_ne_true] at hk
          cases hk

omit [LinearOrder T] [Zero T] [Add T] in
/-- Whether the script of Redis skips a call of `log`. -/
theorem skips_iff {L : Ledger} {db : RedisDb} {k : String}
    (h : HasMode c k (L.mode k) (T := T) .redis db) (now : ℤ) :
    (db.get now (RedisStorage.idempKey c k)).any (fun cur => !RedisDb.tagged RedisDb.pendingTag cur)
      = true ↔ ∃ v, L.mode k = .done v := by
  obtain ⟨st, hhas, hmatches⟩ := h
  rcases hhas.get c now with ⟨hgrants, hget⟩ | ⟨u, rfl, -, hget⟩ | ⟨body, rfl, hget⟩
  · rw [hget]
    refine ⟨fun h => absurd h Bool.false_ne_true, ?_⟩
    rintro ⟨v, hv⟩
    rw [hv] at hmatches
    cases st with
    | done w => cases hgrants
    | _ => cases hmatches
  · rw [hget]
    refine ⟨fun h => absurd h (by decide), ?_⟩
    rintro ⟨v, hv⟩
    rw [hv] at hmatches
    cases hmatches
  · rw [hget]
    refine ⟨fun _ => ?_, fun _ => rfl⟩
    cases hmode : L.mode k with
    | done v => exact ⟨v, rfl⟩
    | _ =>
      rw [hmode] at hmatches
      cases hmatches

omit [LinearOrder T] [Zero T] [Add T] in
/-- Whether SQL skips a call of `log`. -/
theorem logged_iff {L : Ledger} {db : SqlDb T}
    (h : ∀ key, SqlStorage.entries db key = (L.log key).map fun e => (.json e.1, e.2))
    (i : Option String) : SqlStorage.logged db i ↔ L.Logged i := by
  constructor
  · rintro ⟨hsome, hmem⟩
    obtain ⟨k, rfl⟩ := Option.isSome_iff_exists.mp hsome
    obtain ⟨row, hrow, hi⟩ := List.mem_map.mp hmem
    have hentry : (SqlStorage.deserialize (some row.value), row.idempotencyKey)
        ∈ SqlStorage.entries db row.key :=
      List.mem_map_of_mem (List.mem_filter.mpr ⟨hrow, decide_eq_true rfl⟩)
    rw [h] at hentry
    obtain ⟨e, he, heq⟩ := List.mem_map.mp hentry
    exact ⟨k, row.key, rfl, e, he, (congrArg Prod.snd heq).trans hi⟩
  · rintro ⟨k, key, rfl, e, he, hi⟩
    have hentry : (Value.json e.1, e.2) ∈ SqlStorage.entries db key := by
      rw [h]
      exact List.mem_map_of_mem he
    obtain ⟨row, hrow, heq⟩ := List.mem_map.mp hentry
    refine ⟨rfl, List.mem_map.mpr ⟨row, List.mem_of_mem_filter hrow, ?_⟩⟩
    exact (congrArg Prod.snd heq).trans hi

/-- **A log under a call of `log`.** -/
theorem hasLog_log {L : Ledger} {b : Backend} {s : b.State T} (h : Represents c L b s)
    {fields : List (String × Json)} (hvalid : (Json.obj fields).Valid) (k : String)
    (i : Option String) {x : Clock T} (hx : x.stamp.Repr) {skips : Bool}
    (hskips : skips = true ↔ Skips L i b) (key : String) :
    HasLog c key (logAfter key skips (.log (T := T) k (.json (.obj fields)) i) (L.log key)) b
      (b.perform c s (.log k (.json (.obj fields)) i) x).1 := by
  have hold := h.log key
  rw [logAfter]
  cases b with
  | inMemory =>
    have hfinished : InMemoryStorage.finished s i = skips := by
      rw [Bool.eq_iff_iff, finished_iff h.mode, hskips]
      rfl
    show InMemoryStorage.entries (InMemoryStorage.log s _ _ _ _) key = _
    rw [InMemoryStorage.entries_log, hfinished]
    split
    · rw [List.map_append, show InMemoryStorage.entries s key = _ from hold]
      rfl
    · exact hold
  | redis =>
    -- the script skips an entry whose key is done
    have hskip : ∀ k', i = some k' → k' ≠ "" →
        (RedisDb.get s x.server (RedisStorage.idempKey c k')).any
          (fun cur => !RedisDb.tagged RedisDb.pendingTag cur) = skips := by
      intro k' hi hne
      rw [Bool.eq_iff_iff, skips_iff (h.mode k'), hskips]
      constructor
      · rintro ⟨v, hv⟩
        exact ⟨k', v, hi, hne, hv⟩
      · rintro ⟨k'', v, hi', -, hv⟩
        obtain rfl := Option.some.inj (hi.symm.trans hi')
        exact ⟨v, hv⟩
    have hpush : skips = false →
        HasLog c key
          (if k = key ∧ skips = false then L.log key ++ [(.obj fields, i)] else L.log key)
          (T := T) .redis (RedisDb.lpush s (RedisStorage.logKey c k)
            (Utf8.encode (RedisStorage.entryJson (.obj fields) x.stamp i).dumps)) := by
      intro hkeep
      show List.Forall₂ _ (RedisDb.items (RedisDb.lpush s _ _) _) _
      rw [RedisStorage.items_lpush]
      by_cases hk : k = key
      · subst hk
        rw [if_pos rfl, if_pos ⟨rfl, hkeep⟩, List.reverse_append]
        exact List.Forall₂.cons (RedisStorage.reads_entryJson hvalid hx i) hold
      · rw [if_neg (fun heq => hk (RedisStorage.logKey_inj c heq).symm), if_neg (fun h => hk h.1)]
        exact hold
    have hkeep : (∀ k', i = some k' → k' = "") → skips = false := by
      intro hnone
      rw [Bool.eq_false_iff]
      intro htrue
      obtain ⟨k', v, hi, hne, -⟩ := hskips.mp htrue
      exact hne (hnone k' hi)
    show HasLog c key _ (T := T) .redis (RedisStorage.pushEntry c s x.server k i _)
    unfold RedisStorage.pushEntry
    cases i with
    | none => exact hpush (hkeep nofun)
    | some k' =>
      by_cases hne : k' = ""
      · simp only [if_pos hne]
        exact hpush (hkeep fun k'' hk => (Option.some.inj hk).symm.trans hne)
      · simp only [if_neg hne]
        rw [RedisDb.logLua, hskip k' rfl hne]
        cases skips with
        | true =>
          rw [if_pos rfl, if_neg (fun h => absurd h.2 Bool.true_eq_false_eq_False)]
          exact hold
        | false =>
          rw [if_neg Bool.false_ne_true]
          exact hpush rfl
  | sql =>
    have hback : SqlStorage.deserialize (some (SqlStorage.serialize (.json (.obj fields))))
        = .json (.obj fields) := (readBack_eq_iff .sql hvalid).mpr fun s hs => Json.noConfusion hs
    -- the unique column skips an entry whose key is in the log
    have hlogged : skips = true ↔ SqlStorage.logged s i := by
      rw [hskips, logged_iff h.log]
      rfl
    show SqlStorage.entries (SqlStorage.log s k (.json (.obj fields)) i x.stamp) key = _
    rcases SqlStorage.entries_log s k (.json (.obj fields)) i x.stamp key with
      ⟨hk, hnot, hentries⟩ | ⟨hnot, hentries⟩
    · have hkeep : skips = false := Bool.eq_false_iff.mpr fun h => hnot (hlogged.mp h)
      rw [hentries, hback, if_pos ⟨hk, hkeep⟩, List.map_append,
        show SqlStorage.entries s key = _ from hold]
      rfl
    · rw [hentries, if_neg]
      · exact hold
      · rintro ⟨hk, hkeep⟩
        refine hnot ⟨hk, fun h => ?_⟩
        rw [hlogged.mpr h] at hkeep
        cases hkeep

/-! #### Records -/

/-- **A record under a call.** -/
theorem hasMode_perform {b : Backend} {s : b.State T} {op : LedgerOp T} {key : String} {m : Mode}
    (h : HasMode c key m b s) (hop : op.Objects) (haccepts : RedisStorage.Accepts c op)
    {x : Clock T}
    (hx : Unlapsed c b s x) : HasMode c key (m.after key op) b (b.perform c s op x).1 := by
  have hback : ∀ b : Backend, ∀ fields, (Json.obj fields).Valid →
      b.readBack (.obj fields) = .json (.obj fields) :=
    fun b fields hvalid => (b.readBack_eq_iff hvalid).mpr fun s hs => Json.noConfusion hs
  cases b with
  | inMemory =>
    show Matches (InMemoryStorage.status (InMemoryStorage.perform s op x).1 key) _
    rw [InMemoryStorage.status_perform]
    exact Matches.afterCall h hop (hback .inMemory) (hx key)
  | redis =>
    obtain ⟨st, hst, hmatches⟩ := h
    refine ⟨_, RedisStorage.has_perform c hst x haccepts, ?_⟩
    apply Matches.afterCall hmatches hop (hback .redis)
    rintro u rfl
    exact hx key u hst
  | sql =>
    show Matches (SqlDb.status (SqlStorage.perform s op x).1 key) _
    rw [SqlStorage.status_perform]
    exact Matches.afterCall h hop (hback .sql) (hx key)

/-! #### All of it -/

theorem represents_init (b : Backend) : Represents c Ledger.init b (Backend.init T b) where
  value := by
    intro key x
    cases b with
    | inMemory => rfl
    | redis => rfl
    | sql => rfl
  log := by
    intro key
    cases b with
    | redis => exact List.Forall₂.nil
    | _ => rfl
  mode := by
    intro key
    cases b with
    | redis => exact ⟨.free, rfl, trivial⟩
    | _ => trivial

/-- **A backend simulates its ledger.** -/
theorem represents_perform {L : Ledger} {b : Backend} {s : b.State T} (h : Represents c L b s)
    {op : LedgerOp T} (hop : op.Objects) (haccepts : RedisStorage.Accepts c op) {x : Clock T}
    (hstamp : x.stamp.Repr) (hx : Unlapsed c b s x) {skips : Bool}
    (hskips : ∀ k v i, op = .log k v i → (skips = true ↔ Skips L i b)) :
    Represents c (L.after skips op) b (b.perform c s op x).1 where
  value key := hasValue_perform (h.value key) hop x
  log := by
    intro key
    by_cases hlog : ∃ k v i, op = .log k v i
    · obtain ⟨k, v, i, rfl⟩ := hlog
      obtain ⟨fields, rfl, hvalid⟩ := Value.IsObject.eq hop
      exact hasLog_log h hvalid k i hstamp (hskips k _ i rfl) key
    · have hne : ∀ k v i, op ≠ .log k v i := fun k v i heq => hlog ⟨k, v, i, heq⟩
      have hafter : (L.after skips op).log key = L.log key := by
        cases op with
        | log k v i => exact absurd rfl (hne k v i)
        | _ => rfl
      rw [hafter]
      exact hasLog_perform_of_ne (h.log key) hne x
  mode key := hasMode_perform (h.mode key) hop haccepts hx

/-- What `get_log` answers. -/
theorem getLog_answer {b : Backend} {s : b.State T} {key : String}
    {es : List (Json × Option String)} (h : HasLog c key es b s) (limit : ℤ) (x : Clock T) :
    (b.perform c s (.getLog key limit) x).2.observe
      = .entries ((newest es limit).map fun e => (.json e.1, e.2)) := by
  cases b with
  | inMemory =>
    show Observation.entries ((newest (s.logOf key) limit).map _) = _
    rw [newest_map, newest_map]
    exact congrArg (fun es => Observation.entries (newest es limit)) h
  | redis =>
    show (((RedisStorage.getLog c s key limit).map LedgerAnswer.entries).getD .raised).observe = _
    unfold RedisStorage.getLog newest
    by_cases hlimit : limit ≤ 0
    · rw [if_pos hlimit, if_pos hlimit]
      rfl
    · have hstop : limit.toNat - 1 + 1 = limit.toNat := by omega
      rw [if_neg hlimit, if_neg hlimit, RedisDb.lrange, hstop]
      obtain ⟨log, hlog, hmap⟩ := RedisStorage.mapM_readEntry (List.forall₂_take limit.toNat h)
      rw [hlog]
      exact congrArg Observation.entries hmap
  | sql =>
    show Observation.entries (((newest _ limit).map _).map _) = _
    rw [List.map_map, newest_map, newest_map]
    exact congrArg (fun es => Observation.entries (newest es limit)) h

/-- **A backend answers as its ledger.** -/
theorem observe_perform {L : Ledger} {b : Backend} {s : b.State T} (h : Represents c L b s)
    {op : LedgerOp T} (hop : op.Objects) (haccepts : RedisStorage.Accepts c op) {x : Clock T}
    (hx : Unlapsed c b s x) : (b.perform c s op x).2.observe = L.answer op := by
  cases op with
  | get key => rw [h.value key x]; rfl
  | getLog key limit => exact getLog_answer (h.log key) limit x
  | claim key l =>
    cases b with
    | inMemory =>
      have hanswer := InMemoryStorage.claim_answer s key l x
      show (InMemoryStorage.perform s (.claim key l) x).2.observe = _
      rw [hanswer]
      exact Matches.claimAnswer_eq (h.mode key) (hx key) l
    | redis =>
      obtain ⟨st, hst, hmatches⟩ := h.mode key
      have hanswer := RedisStorage.claim_answer c hst x fun _ => haccepts
      show (RedisStorage.perform c s (.claim key l) x).2.observe = _
      rw [hanswer]
      refine Matches.claimAnswer_eq hmatches ?_ l
      rintro u rfl
      exact hx key u hst
    | sql =>
      have hanswer := SqlStorage.claim_answer s key l x
      show (SqlStorage.perform s (.claim key l) x).2.observe = _
      rw [hanswer]
      exact Matches.claimAnswer_eq (h.mode key) (hx key) l
  | check key =>
    cases b with
    | inMemory =>
      have hanswer := InMemoryStorage.check_answer s key x
      show (InMemoryStorage.perform s (.check key) x).2.observe = _
      rw [hanswer]
      exact Matches.result?_eq (h.mode key)
    | redis =>
      obtain ⟨st, hst, hmatches⟩ := h.mode key
      have hanswer := RedisStorage.check_answer c hst x
      show (RedisStorage.perform c s (.check key) x).2.observe = _
      rw [hanswer]
      exact Matches.result?_eq hmatches
    | sql =>
      have hanswer := SqlStorage.check_answer s key x
      show (SqlStorage.perform s (.check key) x).2.observe = _
      rw [hanswer]
      exact Matches.result?_eq (h.mode key)
  | log key v i =>
    obtain ⟨fields, rfl, -⟩ := Value.IsObject.eq hop
    cases b <;> rfl
  | mark key v =>
    obtain ⟨fields, rfl, -⟩ := Value.IsObject.eq hop
    cases b <;> rfl
  | put key v => cases b <;> rfl
  | delete key => cases b <;> rfl
  | release key => cases b <;> rfl

end Backend

end Istos
