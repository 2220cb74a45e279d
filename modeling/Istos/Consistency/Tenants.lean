import Istos.Consistency.Redis
import Istos.Data.Steps
import Istos.Data.Tenure

/-!
# Callers of one ledger

Several callers claim, release and complete the keys of an in-memory ledger or of a Redis server.
Each call is carried out alone, and time passes between the calls.  `Tenants` adds to the ledger
what nobody stores: the grants that their callers have given back neither by a release nor by a
completion.

The callers of a database are `Nodes`.
-/

namespace Istos

open Lease

/-- A ledger, its clock, and the standing grants of every key. -/
structure Tenants (σ C S : Type) where
  store : σ
  clock : S
  standing : String → List (C × WithTop S)

/-- A caller's call, with its clock readings. -/
structure Tenancy (C T : Type) where
  caller : C
  op : LedgerOp T
  readings : Clock T

/-- The grants that stand after a call, under a key. -/
def standingAfter {C T S : Type} [DecidableEq C] (key : String) (c : C) (op : LedgerOp T)
    (answer : LedgerAnswer) (lapse : T → WithTop S) (standing : List (C × WithTop S)) :
    List (C × WithTop S) :=
  match op, answer with
  | .claim k l, .claim ⟨.claimed, _⟩ => if k = key then (c, lapse l) :: standing else standing
  | .release k, .unit => if k = key then leave c standing else standing
  | .mark k _, .unit => if k = key then leave c standing else standing
  | _, _ => standing

namespace InMemoryStorage

variable {C T : Type} [DecidableEq C] [LinearOrder T] [Zero T] [Add T]

/-- The clock after a call: a claim reads it twice. -/
def later (op : LedgerOp T) (x : Clock T) : T :=
  match op with
  | .claim _ _ => x.monotonic'
  | _ => x.monotonic

/-- A caller's call. -/
def tenancy (m : Tenants (InMemoryStorage T) C T) (a : Tenancy C T) :
    Option (Tenants (InMemoryStorage T) C T) :=
  if m.clock ≤ a.readings.monotonic ∧ a.readings.monotonic ≤ a.readings.monotonic' then
    let after := m.store.perform a.op a.readings
    some ⟨after.1, later a.op a.readings, fun key =>
      standingAfter key a.caller a.op after.2
        (fun l => ((a.readings.monotonic' + l : T) : WithTop T)) (m.standing key)⟩
  else none

end InMemoryStorage

namespace RedisStorage

variable {C T : Type} [DecidableEq C] [Rounding] (c : RedisConfig T)

/-- A caller's call; a key expires after its last millisecond. -/
def tenancy (m : Tenants RedisDb C ℤ) (a : Tenancy C T) : Option (Tenants RedisDb C ℤ) :=
  if m.clock ≤ a.readings.server then
    let after := perform c m.store a.op a.readings
    some ⟨after.1, a.readings.server, fun key =>
      standingAfter key a.caller a.op after.2
        (fun l => ((a.readings.server + c.millis l + 1 : ℤ) : WithTop ℤ)) (m.standing key)⟩
  else none

end RedisStorage

end Istos
