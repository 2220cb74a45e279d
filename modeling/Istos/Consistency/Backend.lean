import Istos.Consistency.Redis
import Istos.Consistency.Sql

/-!
# The three backends

`Backend` names the storages that come with the package, and `Backend.perform` carries a call out on
one of them.  `Backend.run` carries out a sequence of calls, one after the other, and
`Backend.answers` lists what they answered.
-/

namespace Istos

/-- A storage backend. -/
inductive Backend
  | inMemory
  | redis
  | sql
  deriving DecidableEq

namespace Backend

/-- What a backend holds. -/
abbrev State (T : Type) : Backend → Type
  | inMemory => InMemoryStorage T
  | redis => RedisDb
  | sql => SqlDb T

/-- An empty storage. -/
def init (T : Type) : (b : Backend) → b.State T
  | inMemory => InMemoryStorage.init
  | redis => RedisDb.init
  | sql => SqlDb.init

variable {T : Type} [LinearOrder T] [Zero T] [Add T] [Rounding]

/-- Carries out one call. -/
def perform (c : RedisConfig T) : (b : Backend) → b.State T → LedgerOp T → Clock T →
    b.State T × LedgerAnswer
  | inMemory, s, op, x => InMemoryStorage.perform s op x
  | redis, s, op, x => RedisStorage.perform c s op x
  | sql, s, op, x => SqlStorage.perform s op x

/-- Carries out a sequence of calls. -/
def run (c : RedisConfig T) (b : Backend) (s : b.State T) (calls : List (LedgerOp T × Clock T)) :
    b.State T :=
  calls.foldl (fun s call => (b.perform c s call.1 call.2).1) s

/-- What the calls of a sequence answered. -/
def answers (c : RedisConfig T) (b : Backend) (s : b.State T) :
    List (LedgerOp T × Clock T) → List LedgerAnswer
  | [] => []
  | call :: calls =>
    (b.perform c s call.1 call.2).2 :: answers c b (b.perform c s call.1 call.2).1 calls

end Backend

end Istos
