import Mathlib.Order.WithBot

/-!
# Leased records

A record under a key is free, held until its lease lapses, or done with a result.  `Status` is such
a record on its own, with the three operations that a ledger has for it; a lease of `⊤` never
lapses.
-/

namespace Lease

/-- A record: free, held under a lease, or done. -/
inductive Status (T V : Type*)
  | free
  /-- held; `until'` is the first instant at which the lease has lapsed -/
  | held (until' : WithTop T)
  | done (result : V)

namespace Status

variable {T V : Type*}

theorem free_ne_held {u : WithTop T} : (free : Status T V) ≠ held u := nofun

theorem done_ne_held {v : V} {u : WithTop T} : (done v : Status T V) ≠ held u := nofun

variable [LinearOrder T]

/-- A claim at `now` gets the record. -/
def grants (now : T) : Status T V → Bool
  | free => true
  | held u => decide (u ≤ now)
  | done _ => false

/-- The record after a claim at `now` under a lease until `u`. -/
def claim (now : T) (u : WithTop T) (st : Status T V) : Status T V :=
  if st.grants now then held u else st

theorem claim_of_grants {now : T} {u : WithTop T} {st : Status T V} (h : st.grants now = true) :
    st.claim now u = held u :=
  if_pos h

theorem claim_of_refuses {now : T} {u : WithTop T} {st : Status T V} (h : st.grants now = false) :
    st.claim now u = st :=
  if_neg (Bool.eq_false_iff.mp h)

theorem grants_held_of_le {now : T} {u : WithTop T} (h : u ≤ now) :
    (held u : Status T V).grants now = true :=
  decide_eq_true h

theorem grants_held_of_lt {now : T} {u : WithTop T} (h : (now : WithTop T) < u) :
    (held u : Status T V).grants now = false :=
  decide_eq_false (not_le.mpr h)

omit [LinearOrder T] in
/-- The record after a release. -/
def release : Status T V → Status T V
  | held _ => free
  | st => st

/-- The record after it was completed: the first result wins. -/
def mark (v : V) : Status T V → Status T V
  | done w => done w
  | _ => done v

/-- The result, if there is one. -/
def result? : Status T V → Option V
  | done v => some v
  | _ => none

/-- The lease, if there is one. -/
def lease? : Status T V → Option (WithTop T)
  | held u => some u
  | _ => none

end Status

end Lease
