import Istos.Consistency.Equiv.Status

/-!
# Storages that can claim

`LeasedStorage` is a backend with `claim_processed`: it carries out calls, and it has one record for
every idempotency key, which a claim, a release and a completion change as `Lease.Status` does.  A
call may also be refused, and then the record stays as it is.

* `LeasedStorage.inMemory`, `LeasedStorage.redis`, `LeasedStorage.sql`: the three backends of the
  package.
-/

namespace Istos

open Lease

/-- A backend with `claim_processed`. -/
structure LeasedStorage (σ T S : Type) [LinearOrder S] where
  init : σ
  perform : σ → LedgerOp T → Clock T → σ × LedgerAnswer
  /-- the clock against which a lease is tested -/
  now : Clock T → S
  /-- the same clock, at the end of a call -/
  later : Clock T → S
  /-- until when a lease is granted -/
  lapse : Clock T → T → WithTop S
  /-- what reading a stored result back gives -/
  stored : Value → Value
  /-- whether a release finds no record whose lease has lapsed -/
  keeps : Bool
  /-- the record of a key -/
  Has : σ → String → Status S Value → Prop
  has_init : ∀ key, Has init key .free
  has_claim : ∀ {s key st} x l, Has s key st →
    (perform s (.claim key l) x).2 = .claim (claimAnswer (now x) st) ∧
        Has (perform s (.claim key l) x).1 key (st.claim (now x) (lapse x l)) ∨
      (perform s (.claim key l) x).2 = .raised ∧ Has (perform s (.claim key l) x).1 key st
  has_release : ∀ {s key st} x, Has s key st →
    Has (perform s (.release key) x).1 key (if keeps && st.grants (now x) then st else st.release)
  has_mark : ∀ {s key st} x v, Has s key st →
    (perform s (.mark key v) x).2 = .unit ∧
      Has (perform s (.mark key v) x).1 key (st.mark (stored v)) ∨
      (perform s (.mark key v) x).2 = .raised ∧ Has (perform s (.mark key v) x).1 key st
  has_put : ∀ {s key st} x k v, Has s key st → Has (perform s (.put k v) x).1 key st
  has_log : ∀ {s key st} x k v i, Has s key st → Has (perform s (.log k v i) x).1 key st

namespace LeasedStorage

/-- `InMemoryStoragePlugin`. -/
def inMemory (T : Type) [LinearOrder T] [Zero T] [Add T] :
    LeasedStorage (InMemoryStorage T) T T where
  init := .init
  perform := InMemoryStorage.perform
  now x := x.monotonic
  later x := x.monotonic'
  lapse x l := ((x.monotonic' + l : T) : WithTop T)
  stored := id
  keeps := false
  Has s key st := s.status key = st
  has_init _ := rfl
  has_claim x l h := by
    subst h
    exact Or.inl ⟨InMemoryStorage.claim_answer _ _ l x,
      (InMemoryStorage.status_perform _ (.claim _ l) x _).trans (if_pos rfl)⟩
  has_release x h := by
    subst h
    exact (InMemoryStorage.status_perform _ (.release _) x _).trans (if_pos rfl)
  has_mark x v h := by
    subst h
    exact Or.inl ⟨rfl, (InMemoryStorage.status_perform _ (.mark _ v) x _).trans (if_pos rfl)⟩
  has_put x k v h := (InMemoryStorage.status_perform _ (.put k v) x _).trans h
  has_log x k v i h := (InMemoryStorage.status_perform _ (.log k v i) x _).trans h

/-- `RedisStoragePlugin`. -/
def redis {T : Type} [Rounding] (c : RedisConfig T) : LeasedStorage RedisDb T ℤ where
  init := .init
  perform := RedisStorage.perform c
  now x := x.server
  later x := x.server
  lapse x l := ((x.server + c.millis l + 1 : ℤ) : WithTop ℤ)
  stored := RedisStorage.resultBack
  keeps := true
  Has := RedisStorage.Has c
  has_init _ := rfl
  has_claim {s key st} x l h := by
    by_cases haccepts : 0 < c.millis l
    · have hclaim : RedisStorage.Accepts c (.claim key l) := haccepts
      have hafter := RedisStorage.has_perform c h x hclaim
      rw [afterCall, if_pos rfl] at hafter
      exact Or.inl ⟨RedisStorage.claim_answer c h x fun _ => haccepts, hafter⟩
    · have hsame : (RedisStorage.perform c s (.claim key l) x).1 = s :=
        RedisStorage.perform_of_not_accepts c x haccepts
      cases hgrants : st.grants x.server with
      | false =>
        left
        refine ⟨RedisStorage.claim_answer c h x fun htrue => ?_, ?_⟩
        · rw [hgrants] at htrue
          cases htrue
        · rw [hsame, Status.claim_of_refuses hgrants]
          exact h
      | true =>
        right
        refine ⟨?_, by rw [hsame]; exact h⟩
        show ((RedisStorage.claimProcessed c s x.server key l).2.map
          LedgerAnswer.claim).getD .raised = _
        unfold RedisStorage.claimProcessed RedisDb.claimLua
        rcases h.get c x.server with ⟨-, hget⟩ | ⟨u, rfl, hlt, -⟩ | ⟨body, rfl, -⟩
        · rw [hget]
          simp only [if_pos (not_lt.mp haccepts)]
          rfl
        · rw [Status.grants_held_of_lt hlt] at hgrants
          cases hgrants
        · cases hgrants
  has_release {s key st} x h := by
    have hrelease : RedisStorage.Accepts c (.release key) := trivial
    have hafter := RedisStorage.has_perform c h x hrelease
    rw [afterCall, if_pos rfl] at hafter
    exact hafter
  has_mark {s key st} x v h := by
    cases v with
    | json j =>
      have hmark : RedisStorage.Accepts c (.mark key (.json j)) := trivial
      have hafter := RedisStorage.has_perform c h x hmark
      rw [afterCall, if_pos rfl] at hafter
      exact Or.inl ⟨rfl, hafter⟩
    | bytes data => exact Or.inr ⟨rfl, h⟩
  has_put {s key st} x k v h := by
    have hput : RedisStorage.Accepts c (.put k v) := trivial
    exact RedisStorage.has_perform c h x hput
  has_log {s key st} x k v i h := by
    have hlog : RedisStorage.Accepts c (.log k v i) := trivial
    exact RedisStorage.has_perform c h x hlog

/-- `SQLAlchemyStoragePlugin`, its calls carried out one after the other. -/
def sql (T : Type) [LinearOrder T] [Add T] [Rounding] : LeasedStorage (SqlDb T) T T where
  init := .init
  perform := SqlStorage.perform
  now x := x.wall
  later x := x.wall
  lapse x l := ((x.wall + l : T) : WithTop T)
  stored v := SqlStorage.deserialize (some (SqlStorage.serialize v))
  keeps := false
  Has db key st := db.status key = st
  has_init _ := rfl
  has_claim x l h := by
    subst h
    exact Or.inl ⟨SqlStorage.claim_answer _ _ l x,
      (SqlStorage.status_perform _ (.claim _ l) x _).trans (if_pos rfl)⟩
  has_release x h := by
    subst h
    exact (SqlStorage.status_perform _ (.release _) x _).trans (if_pos rfl)
  has_mark x v h := by
    subst h
    exact Or.inl ⟨rfl, (SqlStorage.status_perform _ (.mark _ v) x _).trans (if_pos rfl)⟩
  has_put x k v h := (SqlStorage.status_perform _ (.put k v) x _).trans h
  has_log x k v i h := (SqlStorage.status_perform _ (.log k v i) x _).trans h

end LeasedStorage

end Istos
