import Istos.Consistency.Equiv.Status

/-!
# What is stored comes back

`Backend.Holds` says that a backend holds a value under a key, in the form in which it stores it,
and `Backend.Done` that the record of a key is done with what the backend makes of a result.  A call
that does not write the key leaves both as they are, so a value that went in is what
`Backend.readBack` says.

* `stored_unchanged`: a JSON value comes back unchanged, as a value and as a result, just when it is
  not a string or the backend is not SQL.
-/

namespace Istos

open Lease

/-! ### Which calls write a key -/

namespace LedgerOp

variable {T : Type}

/-- The call writes the value of a key. -/
def Writes (key : String) : LedgerOp T → Prop
  | put k _ => k = key
  | delete k => k = key
  | _ => False

/-- The call completes a key. -/
def Marks (key : String) : LedgerOp T → Prop
  | mark k _ => k = key
  | _ => False

end LedgerOp

/-! ### Records that are done -/

section

variable {T S : Type} [LinearOrder S] {key : String} {now : S} {lapse : T → WithTop S}
  {stored : Value → Value} {keeps : Bool}

/-- A record that is done stays so. -/
theorem afterCall_done (op : LedgerOp T) (v : Value) :
    afterCall key now lapse stored keeps op (.done v) = .done v := by
  cases op with
  | claim k l =>
    rw [afterCall]
    split
    · rfl
    · rfl
  | release k =>
    rw [afterCall]
    split
    · split
      · rfl
      · rfl
    · rfl
  | mark k w =>
    rw [afterCall]
    split
    · rfl
    · rfl
  | _ => rfl

/-- Only its completion makes a record done. -/
theorem result?_afterCall {op : LedgerOp T} (hop : ¬ op.Marks key) {st : Status S Value}
    (hst : st.result? = none) :
    (afterCall key now lapse stored keeps op st).result? = none := by
  cases op with
  | claim k l =>
    rw [afterCall]
    split
    · rw [Status.claim]
      split
      · rfl
      · exact hst
    · exact hst
  | release k =>
    rw [afterCall]
    split
    · split
      · exact hst
      · cases st with
        | done v => cases hst
        | _ => rfl
    · exact hst
  | mark k w =>
    have hne : ¬ k = key := hop
    rw [afterCall, if_neg hne]
    exact hst
  | _ => exact hst

end

/-! ### Values -/

theorem SqlDb.kv_updateIdempotency {T : Type} {db db' : SqlDb T} {k : String}
    {cond : IdempotencyRow T → Bool}
    {change : (row : IdempotencyRow T) →
      {row' : IdempotencyRow T // row'.idempotencyKey = row.idempotencyKey}}
    (h : db.updateIdempotency k cond change = some db') : db'.kv = db.kv := by
  unfold updateIdempotency at h
  split at h
  · split at h
    · obtain rfl := Option.some.inj h
      rfl
    · cases h
  · cases h

theorem SqlStorage.kv_claimProcessed {T : Type} [LinearOrder T] [Add T] [Rounding] (db : SqlDb T)
    (k : String) (l : T) (readings : List T) : (claimProcessed db k l readings).1.kv = db.kv := by
  induction readings with
  | nil => rfl
  | cons now later ih =>
    unfold claimProcessed
    split
    · rename_i db' hinsert
      unfold SqlDb.insertClaim SqlDb.insertIdempotency at hinsert
      split at hinsert
      · cases hinsert
      · obtain rfl := Option.some.inj hinsert
        rfl
    · split
      · exact ih
      · split
        · rfl
        · split
          · rfl
          · split
            · rename_i db' htake
              exact SqlDb.kv_updateIdempotency htake
            · rfl

/-- A value depends on the calls that write it. -/
theorem InMemoryStorage.store_perform {T : Type} [LinearOrder T] [Zero T] [Add T]
    {s : InMemoryStorage T} {op : LedgerOp T} {key : String} (hop : ¬ op.Writes key) (x : Clock T) :
    (s.perform op x).1.store.get? key = s.store.get? key := by
  cases op with
  | put k v => exact Table.get?_put_of_ne _ (Ne.symm hop)
  | delete k => exact Table.get?_erase_of_ne _ (Ne.symm hop)
  | log k v i =>
    show (s.log k v i x.stamp).store.get? key = _
    unfold InMemoryStorage.log
    split
    · rfl
    · rfl
  | claim k l =>
    show (s.claimProcessed k l x.monotonic x.monotonic').1.store.get? key = _
    unfold InMemoryStorage.claimProcessed
    repeat' split
    all_goals rfl
  | release k =>
    show (s.releaseClaim k).store.get? key = _
    unfold InMemoryStorage.releaseClaim
    split
    · rfl
    · rfl
  | mark k v =>
    show (s.markProcessed k v).store.get? key = _
    unfold InMemoryStorage.markProcessed
    split
    · rfl
    · rfl
  | _ => rfl

theorem SqlStorage.kv_perform {T : Type} [LinearOrder T] [Add T] [Rounding] {db : SqlDb T}
    {op : LedgerOp T} {key : String} (hop : ¬ op.Writes key) (x : Clock T) :
    (SqlStorage.perform db op x).1.kv.get? key = db.kv.get? key := by
  cases op with
  | put k v =>
    show (db.kv.put (k, serialize v)).get? key = _
    exact Table.get?_put_of_ne _ (Ne.symm hop)
  | delete k =>
    show (db.kv.erase k).get? key = _
    exact Table.get?_erase_of_ne _ (Ne.symm hop)
  | log k v i =>
    show (log db k v i x.stamp).kv.get? key = _
    unfold log SqlDb.insertEvent
    split
    · rfl
    · rfl
  | claim k l =>
    show (claimProcessed db k l [x.wall, x.wall']).1.kv.get? key = _
    rw [kv_claimProcessed]
  | release k =>
    show (db.deletePending k).kv.get? key = _
    unfold SqlDb.deletePending
    repeat' split
    all_goals rfl
  | mark k v =>
    show (markProcessed db k v x.wall).kv.get? key = _
    unfold markProcessed
    split
    · rename_i db' hcomplete
      rw [SqlDb.kv_updateIdempotency hcomplete]
    · unfold SqlDb.insertDone SqlDb.insertIdempotency
      split
      · rfl
      · rfl
  | _ => rfl

/-- `get` of a value that decodes. -/
theorem RedisStorage.get_of_cell {T : Type} [Rounding] (c : RedisConfig T) {db : RedisDb}
    {key : String} {raw : Bytes} {text : List Char}
    (hcell : cell db (kvKey c key) = some (.string raw none)) (now : ℤ)
    (hdecode : (Encoding.detect raw).decode raw = some text) :
    get c db now key = some (loadsOrRaw raw) := by
  have hget : db.get now (kvKey c key) = some raw := by
    rw [get_eq, hcell]
    rfl
  rw [get, hget]
  simp only
  rw [hdecode, loadsOrRaw, Json.loadb, hdecode, Option.map_some, Option.bind_some]

theorem RedisStorage.cell_kvKey_perform {T : Type} [Rounding] (c : RedisConfig T) {db : RedisDb}
    {op : LedgerOp T} {key : String} (hop : ¬ op.Writes key) (x : Clock T) :
    cell (perform c db op x).1 (kvKey c key) = cell db (kvKey c key) := by
  apply cell_perform
  intro heq
  cases op with
  | put k v => exact hop (kvKey_inj c (Option.some.inj heq))
  | delete k => exact hop (kvKey_inj c (Option.some.inj heq))
  | log k v i => exact kvKey_ne_logKey c key k (Option.some.inj heq).symm
  | claim k l => exact kvKey_ne_idempKey c key k (Option.some.inj heq).symm
  | release k => exact kvKey_ne_idempKey c key k (Option.some.inj heq).symm
  | mark k v => exact kvKey_ne_idempKey c key k (Option.some.inj heq).symm
  | _ => cases heq

namespace Backend

variable {T : Type} [LinearOrder T] [Zero T] [Add T] [Rounding] (c : RedisConfig T)

/-- What a backend makes of a JSON value that it stores. -/
def readBack (b : Backend) (v : Json) : Value :=
  match b with
  | inMemory => .json v
  | redis => RedisStorage.loadsOrRaw (Utf8.encode v.dumps)
  | sql => SqlStorage.deserialize (some (SqlStorage.serialize (.json v)))

/-- The record of the key is done with this result. -/
def Done (key : String) (v : Value) : (b : Backend) → b.State T → Prop
  | inMemory, s => InMemoryStorage.status s key = .done v
  | redis, s => RedisStorage.Has c s key (.done v)
  | sql, s => SqlDb.status s key = .done v

/-- The record of the key is not done. -/
def Open (key : String) : (b : Backend) → b.State T → Prop
  | inMemory, s => (InMemoryStorage.status s key).result? = none
  | redis, s => ∃ st, RedisStorage.Has c s key st ∧ st.result? = none
  | sql, s => (SqlDb.status s key).result? = none

omit [LinearOrder T] [Zero T] [Add T] in
theorem open_init (key : String) (b : Backend) : Open c key b (Backend.init T b) := by
  cases b with
  | redis => exact ⟨.free, rfl, rfl⟩
  | _ => rfl

theorem open_perform {key : String} {b : Backend} {s : b.State T} {op : LedgerOp T}
    (hop : ¬ op.Marks key) (x : Clock T) (h : Open c key b s) :
    Open c key b (b.perform c s op x).1 := by
  cases b with
  | inMemory =>
    show (InMemoryStorage.status (InMemoryStorage.perform s op x).1 key).result? = none
    rw [InMemoryStorage.status_perform]
    exact result?_afterCall hop h
  | redis =>
    obtain ⟨st, hst, hnone⟩ := h
    by_cases haccepts : RedisStorage.Accepts c op
    · exact ⟨_, RedisStorage.has_perform c hst x haccepts, result?_afterCall hop hnone⟩
    · refine ⟨st, ?_, hnone⟩
      show RedisStorage.Has c (RedisStorage.perform c s op x).1 key st
      rw [RedisStorage.perform_of_not_accepts c x haccepts]
      exact hst
  | sql =>
    show (SqlDb.status (SqlStorage.perform s op x).1 key).result? = none
    rw [SqlStorage.status_perform]
    exact result?_afterCall hop h

theorem done_perform {key : String} {v : Value} {b : Backend} {s : b.State T} (op : LedgerOp T)
    (x : Clock T) (h : Done c key v b s) : Done c key v b (b.perform c s op x).1 := by
  cases b with
  | inMemory =>
    show InMemoryStorage.status (InMemoryStorage.perform s op x).1 key = .done v
    rw [InMemoryStorage.status_perform, show InMemoryStorage.status s key = _ from h]
    exact afterCall_done op v
  | redis =>
    have hdone : RedisStorage.Has c s key (.done v) := h
    show RedisStorage.Has c (RedisStorage.perform c s op x).1 key (.done v)
    by_cases haccepts : RedisStorage.Accepts c op
    · have hperform := RedisStorage.has_perform c hdone x haccepts
      rw [afterCall_done] at hperform
      exact hperform
    · rw [RedisStorage.perform_of_not_accepts c x haccepts]
      exact hdone
  | sql =>
    show SqlDb.status (SqlStorage.perform s op x).1 key = .done v
    rw [SqlStorage.status_perform, show SqlDb.status s key = _ from h]
    exact afterCall_done op v

/-- **The completion of a record** that is not done. -/
theorem done_mark {key : String} {b : Backend} {s : b.State T} (h : Open c key b s) (v : Json)
    (x : Clock T) : Done c key (b.readBack v) b (b.perform c s (.mark key (.json v)) x).1 := by
  have hmark : ∀ {S : Type} (w : Value) (st : Status S Value), st.result? = none →
      st.mark w = .done w := by
    intro S w st hst
    cases st with
    | done u => cases hst
    | _ => rfl
  cases b with
  | inMemory =>
    show InMemoryStorage.status (InMemoryStorage.perform s _ x).1 key = .done (.json v)
    rw [InMemoryStorage.status_perform, afterCall, if_pos rfl]
    exact hmark _ _ h
  | redis =>
    obtain ⟨st, hst, hnone⟩ := h
    have haccepts : RedisStorage.Accepts c (.mark key (.json v)) := trivial
    have hperform := RedisStorage.has_perform c hst x haccepts
    rw [afterCall, if_pos rfl, hmark _ _ hnone] at hperform
    exact hperform
  | sql =>
    show SqlDb.status (SqlStorage.perform s _ x).1 key = .done _
    rw [SqlStorage.status_perform, afterCall, if_pos rfl]
    exact hmark _ _ h

/-- What a done record answers. -/
theorem done_answers {key : String} {v : Value} {b : Backend} {s : b.State T}
    (h : Done c key v b s) (l : T) (x : Clock T) :
    (b.perform c s (.check key) x).2 = .value v ∧
      (b.perform c s (.claim key l) x).2 = .claim ⟨.done, v⟩ := by
  cases b with
  | inMemory =>
    have hstatus : InMemoryStorage.status s key = .done v := h
    refine ⟨(InMemoryStorage.check_answer s key x).trans ?_,
      (InMemoryStorage.claim_answer s key l x).trans ?_⟩
    all_goals rw [hstatus]; rfl
  | redis =>
    have hdone : RedisStorage.Has c s key (.done v) := h
    refine ⟨RedisStorage.check_answer c hdone x, RedisStorage.claim_answer c hdone x ?_⟩
    exact fun hgrants => absurd hgrants Bool.false_ne_true
  | sql =>
    have hstatus : SqlDb.status s key = .done v := h
    refine ⟨(SqlStorage.check_answer s key x).trans ?_,
      (SqlStorage.claim_answer s key l x).trans ?_⟩
    all_goals rw [hstatus]; rfl

/-! ### Values -/

/-- The backend holds this value under the key. -/
def Holds (key : String) (v : Json) : (b : Backend) → b.State T → Prop
  | inMemory, s => s.store.get? key = some (key, .json v)
  | redis, s =>
    RedisStorage.cell s (RedisStorage.kvKey c key) = some (.string (Utf8.encode v.dumps) none)
  | sql, s => s.kv.get? key = some (key, SqlStorage.serialize (.json v))

theorem holds_put (key : String) (v : Json) (b : Backend) (s : b.State T) (x : Clock T) :
    Holds c key v b (b.perform c s (.put key (.json v)) x).1 := by
  cases b with
  | inMemory =>
    show (s.store.put (key, .json v)).get? key = _
    rw [Table.get?_put, if_pos rfl]
  | redis =>
    show RedisStorage.cell (RedisDb.set s _ _ _) _ = _
    rw [RedisStorage.cell_set, if_pos rfl]
  | sql =>
    show (s.kv.put (key, SqlStorage.serialize (.json v))).get? key = _
    rw [Table.get?_put, if_pos rfl]

/-- A call that does not write a key leaves its value as it is. -/
theorem holds_perform {key : String} {v : Json} {b : Backend} {s : b.State T} {op : LedgerOp T}
    (hop : ¬ op.Writes key) (x : Clock T) (h : Holds c key v b s) :
    Holds c key v b (b.perform c s op x).1 := by
  cases b with
  | inMemory => exact (InMemoryStorage.store_perform hop x).trans h
  | redis => exact (RedisStorage.cell_kvKey_perform c hop x).trans h
  | sql => exact (SqlStorage.kv_perform hop x).trans h

/-- What `get` answers. -/
theorem get_answer {key : String} {v : Json} {b : Backend} {s : b.State T} (h : Holds c key v b s)
    (x : Clock T) : (b.perform c s (.get key) x).2 = .value (b.readBack v) := by
  cases b with
  | inMemory =>
    have hrow : s.store.get? key = some (key, .json v) := h
    show LedgerAnswer.value (InMemoryStorage.get s key) = _
    rw [InMemoryStorage.get, hrow]
    rfl
  | redis =>
    have hget := RedisStorage.get_of_cell c (show RedisStorage.cell s _ = _ from h) x.server
      (Json.decode_of_printable (Json.printable_dumps v))
    show ((RedisStorage.get c s x.server key).map LedgerAnswer.value).getD .raised = _
    rw [hget, Option.map_some, Option.getD_some, readBack]
  | sql =>
    have hrow : s.kv.get? key = some (key, SqlStorage.serialize (.json v)) := h
    show LedgerAnswer.value (SqlStorage.get s key) = _
    rw [SqlStorage.get, hrow]
    rfl

/-! ### Runs -/

theorem run_cons (b : Backend) (s : b.State T) (call : LedgerOp T × Clock T)
    (calls : List (LedgerOp T × Clock T)) :
    b.run c s (call :: calls) = b.run c (b.perform c s call.1 call.2).1 calls := rfl

theorem run_append (b : Backend) (s : b.State T) (pre post : List (LedgerOp T × Clock T)) :
    b.run c s (pre ++ post) = b.run c (b.run c s pre) post :=
  List.foldl_append

/-- What every call of a sequence preserves. -/
theorem run_invariant {b : Backend} {Inv : b.State T → Prop} {cond : LedgerOp T → Prop}
    (preserved : ∀ s op x, cond op → Inv s → Inv (b.perform c s op x).1) {s : b.State T}
    {calls : List (LedgerOp T × Clock T)} (hcalls : ∀ call ∈ calls, cond call.1) (hs : Inv s) :
    Inv (b.run c s calls) := by
  induction calls generalizing s with
  | nil => exact hs
  | cons call calls ih =>
    refine ih (fun call' h => hcalls call' (List.mem_cons_of_mem call h)) ?_
    exact preserved s call.1 call.2 (hcalls call List.mem_cons_self) hs

/-- What a backend makes of a value comes back, as a value. -/
theorem run_get (b : Backend) (key : String) (v : Json) (pre : List (LedgerOp T × Clock T))
    {mid : List (LedgerOp T × Clock T)} (hmid : ∀ call ∈ mid, ¬ call.1.Writes key) (x y : Clock T) :
    (b.perform c (b.run c (Backend.init T b) (pre ++ (.put key (.json v), x) :: mid))
      (.get key) y).2
      = .value (b.readBack v) := by
  apply get_answer
  rw [run_append, run_cons]
  exact run_invariant c (fun s op x hop => holds_perform c hop x) hmid
    (holds_put c key v b (b.run c (Backend.init T b) pre) x)

/-- What a backend makes of a value comes back, as a result. -/
theorem run_result (b : Backend) (key : String) (v : Json) {pre : List (LedgerOp T × Clock T)}
    (hpre : ∀ call ∈ pre, ¬ call.1.Marks key) (mid : List (LedgerOp T × Clock T)) (l : T)
    (x y : Clock T) :
    (b.perform c (b.run c (Backend.init T b) (pre ++ (.mark key (.json v), x) :: mid))
        (.check key) y).2 = .value (b.readBack v) ∧
      (b.perform c (b.run c (Backend.init T b) (pre ++ (.mark key (.json v), x) :: mid))
        (.claim key l) y).2 = .claim ⟨.done, b.readBack v⟩ := by
  apply done_answers
  rw [run_append, run_cons]
  have hopen : Open c key b (b.run c (Backend.init T b) pre) :=
    run_invariant c (fun s op x hop => open_perform c hop x) hpre (open_init c key b)
  have hdone : ∀ s op x, True → Done c key (b.readBack v) b s →
      Done c key (b.readBack v) b (b.perform c s op x).1 := fun s op x _ => done_perform c op x
  exact run_invariant c hdone (fun _ _ => trivial) (done_mark c hopen v x)

/-- What a backend makes of a value is this value, unless it is a string in SQL. -/
theorem readBack_eq_iff (b : Backend) {v : Json} (hv : v.Valid) :
    b.readBack v = .json v ↔ ∀ s, v = .str s → b ≠ .sql := by
  cases b with
  | inMemory => exact ⟨fun _ _ _ => Backend.noConfusion, fun _ => rfl⟩
  | redis =>
    refine ⟨fun _ _ _ => Backend.noConfusion, fun _ => ?_⟩
    rw [readBack, RedisStorage.loadsOrRaw, Json.loadb_dumps hv]
  | sql =>
    cases v with
    | str s =>
      refine ⟨fun h => ?_, fun h => absurd rfl (h s rfl)⟩
      have hne := Json.loadb_encode_ne s
      rw [readBack, SqlStorage.serialize, SqlStorage.deserialize] at h
      cases hload : Json.loadb (Utf8.encode s) with
      | none =>
        rw [hload] at h
        cases h
      | some j =>
        rw [hload] at h
        obtain rfl := Value.json.inj h
        exact absurd hload hne
    | _ =>
      refine ⟨fun _ _ hs => Json.noConfusion hs, fun _ => ?_⟩
      rw [readBack, SqlStorage.serialize, SqlStorage.deserialize, Json.loadb_dumps hv]
      intro s hs
      cases hs

/-- A JSON value comes back from a backend as it went in: from `get`, whatever was called in between
that does not write its key, and, as a result, from `check_processed` and a later `claim_processed`.
-/
def Unchanged (b : Backend) (v : Json) : Prop :=
  (∀ (key : String) (pre mid : List (LedgerOp T × Clock T)) (x y : Clock T),
    (∀ call ∈ mid, ¬ call.1.Writes key) →
    (b.perform c (b.run c (Backend.init T b) (pre ++ (.put key (.json v), x) :: mid))
      (.get key) y).2
      = .value (.json v)) ∧
  ∀ (key : String) (pre mid : List (LedgerOp T × Clock T)) (l : T) (x y : Clock T),
    (∀ call ∈ pre, ¬ call.1.Marks key) →
    (b.perform c (b.run c (Backend.init T b) (pre ++ (.mark key (.json v), x) :: mid))
        (.check key) y).2 = .value (.json v) ∧
      (b.perform c (b.run c (Backend.init T b) (pre ++ (.mark key (.json v), x) :: mid))
        (.claim key l) y).2 = .claim ⟨.done, .json v⟩

end Backend

section

variable {T : Type} [LinearOrder T] [Zero T] [Add T] [Rounding]

/-- **Stored values come back unchanged** just when they are not strings in SQL. -/
theorem stored_unchanged (c : RedisConfig T) (b : Backend) {v : Json} (hv : v.Valid) :
    b.Unchanged c v ↔ ∀ s, v = .str s → b ≠ .sql := by
  rw [← b.readBack_eq_iff hv]
  constructor
  · intro h
    have x : Clock T := ⟨.nan, 0, 0, 0, 0, 0⟩
    have hnone : ∀ call ∈ ([] : List (LedgerOp T × Clock T)), ¬ call.1.Writes "" :=
      fun _ h => absurd h List.not_mem_nil
    have hback := b.run_get c "" v [] hnone x x
    have hget := h.1 "" [] [] x x (fun _ h => absurd h List.not_mem_nil)
    exact LedgerAnswer.value.inj (hback.symm.trans hget)
  · intro hback
    constructor
    · intro key pre mid x y hmid
      rw [b.run_get c key v pre hmid x y, hback]
    · intro key pre mid l x y hpre
      obtain ⟨hcheck, hclaim⟩ := b.run_result c key v hpre mid l x y
      rw [hcheck, hclaim, hback]
      exact ⟨rfl, rfl⟩

end

/-- A string of digits in Redis. -/
theorem stored_unchanged_digits :
    let _ := Rounding.verbatim
    Backend.Unchanged (T := ℤ) ⟨"istos:", (1000 * ·)⟩ .redis (.str "123") :=
  let _ := Rounding.verbatim
  (stored_unchanged ⟨"istos:", (1000 * ·)⟩ .redis (v := .str "123") trivial).mpr
    fun _ _ => by decide

/-- SQL stores a string as its bytes and guesses what they were: this one is a number. -/
theorem digits_changed :
    let _ := Rounding.verbatim
    (Backend.sql.perform (T := ℤ) ⟨"istos:", (1000 * ·)⟩
        (Backend.sql.run ⟨"istos:", (1000 * ·)⟩ (Backend.init ℤ .sql)
          [(.put "k" (.json (.str "123")), ⟨.nan, 0, 0, 0, 0, 0⟩)])
        (.get "k") ⟨.nan, 0, 0, 0, 0, 0⟩).2 = .value (.json (.num 123)) ∧
      ¬ Backend.Unchanged (T := ℤ) ⟨"istos:", (1000 * ·)⟩ .sql (.str "123") := by
  intro _
  have hget : (Backend.sql.perform (T := ℤ) ⟨"istos:", (1000 * ·)⟩
        (Backend.sql.run ⟨"istos:", (1000 * ·)⟩ (Backend.init ℤ .sql)
          [(.put "k" (.json (.str "123")), ⟨.nan, 0, 0, 0, 0, 0⟩)])
        (.get "k") ⟨.nan, 0, 0, 0, 0, 0⟩).2 = .value (.json (.num 123)) := rfl
  refine ⟨hget, fun h => ?_⟩
  have hback := h.1 "k" [] [] ⟨.nan, 0, 0, 0, 0, 0⟩ ⟨.nan, 0, 0, 0, 0, 0⟩
    (fun _ h => absurd h List.not_mem_nil)
  have hvalue := Value.json.inj (LedgerAnswer.value.inj (hget.symm.trans hback))
  cases hvalue

end Istos
