import Istos.Codec.Base64
import Istos.Data.Steps
import Mathlib.Data.Finset.Basic

/-!
# Deliveries to a subscriber

A sample that reaches `subscribe_wrapper._deliver` is dropped as a duplicate or dispatched; what
happens up to the first `await` of the dispatch is one step, and what follows when the dispatch
returns or raises is another.  Between the two the deliveries interleave.

The fingerprint of a payload is the digest that `hashlib.sha256` computes of it.
-/

namespace Istos

/-- The argument `dedup`. -/
inductive Dedup
  | flag (on : Bool)
  | size (n : ℤ)
  deriving DecidableEq

/-- `4096 if dedup is True else int(dedup) if dedup else 0`. -/
def Dedup.window : Dedup → ℤ
  | flag true => 4096
  | flag false => 0
  | size n => n

/-- `subscribe_wrapper`, as far as a delivery reads it. -/
structure SubscribeWrapper where
  dedupWindow : ℤ
  /-- `_seen`, the oldest fingerprint first -/
  seen : List String
  /-- `_inflight` -/
  inflight : Finset String

namespace SubscribeWrapper

/-- A new wrapper. -/
def init (dedup : Dedup) : SubscribeWrapper := ⟨dedup.window, [], ∅⟩

/-- `_fingerprint`. -/
def fingerprint (sha256 : Bytes → String) (w : SubscribeWrapper) (raw : Bytes) : Option String :=
  if w.dedupWindow = 0 then none else some (sha256 raw)

/-- `_is_duplicate`; a fingerprint that was seen moves to the end of the window. -/
def isDuplicate (w : SubscribeWrapper) : Option String → Bool × SubscribeWrapper
  | none => (false, w)
  | some fp =>
    if fp ∈ w.seen then (true, { w with seen := w.seen.erase fp ++ [fp] })
    else (decide (fp ∈ w.inflight), w)

/-- `_record_delivered`. -/
def recordDelivered (w : SubscribeWrapper) (fp : String) : SubscribeWrapper :=
  let seen := if fp ∈ w.seen then w.seen else w.seen ++ [fp]
  { w with seen := if w.dedupWindow < seen.length then seen.tail else seen }

/-- `_deliver`, up to the call of `_deliver_once`: `none` for a sample that is dropped, else the
fingerprint under which it is dispatched. -/
def deliver (sha256 : Bytes → String) (w : SubscribeWrapper) (raw : Bytes) :
    Option (Option String) × SubscribeWrapper :=
  let fp := w.fingerprint sha256 raw
  match w.isDuplicate fp with
  | (true, w) => (none, w)
  | (false, w) =>
    match fp with
    | none => (some none, w)
    | some fp => (some (some fp), { w with inflight := insert fp w.inflight })

/-- `_deliver`, from where `_deliver_once` returns (`ok`) or raises. -/
def settle (w : SubscribeWrapper) (fp : Option String) (ok : Bool) : SubscribeWrapper :=
  match fp with
  | none => w
  | some fp =>
    let w := { w with inflight := w.inflight.erase fp }
    if ok then w.recordDelivered fp else w

end SubscribeWrapper

/-- What happens at a subscriber; `d` names a sample. -/
inductive Delivery (D : Type)
  /-- `_deliver` is called -/
  | sample (d : D) (raw : Bytes)
  /-- `_deliver_once` returns or raises -/
  | settled (d : D) (ok : Bool)
  deriving DecidableEq

/-- The subscriber and the deliveries that are in progress, with their fingerprints. -/
structure Deliveries (D : Type) where
  wrapper : SubscribeWrapper
  running : List (D × Option String)

namespace Deliveries

variable {D : Type}

def init (dedup : Dedup) : Deliveries D := ⟨.init dedup, []⟩

/-- The sample is dropped as a duplicate. -/
def Drops (sha256 : Bytes → String) (s : Deliveries D) (raw : Bytes) : Prop :=
  (s.wrapper.deliver sha256 raw).1 = none

variable [DecidableEq D]

/-- One step. -/
def step (sha256 : Bytes → String) (s : Deliveries D) : Delivery D → Option (Deliveries D)
  | .sample d raw =>
    match s.wrapper.deliver sha256 raw with
    | (none, w) => some { s with wrapper := w }
    | (some fp, w) => some ⟨w, (d, fp) :: s.running⟩
  | .settled d ok =>
    (s.running.lookup d).map fun fp =>
      ⟨s.wrapper.settle fp ok, s.running.filter fun x => x.1 ≠ d⟩

end Deliveries

end Istos
