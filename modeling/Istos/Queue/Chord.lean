import Istos.Queue.Storage

/-!
# Runs of a chord

The members of a chord report to its barrier, in any order and as often as their jobs are
delivered, while the store carries out other calls, sweeps among them.  `firings` lists the reports
that were answered with a result list, each with the reports that the barrier had counted for it:
those since it was opened.
-/

namespace Istos

/-- A report of one member of a chord. -/
structure Report (T : Type) where
  index : ℤ
  /-- Base64 of the member's return. -/
  result : Option String
  now : T
  deriving DecidableEq

/-- A call that the owner of a chord's barrier carries out. -/
inductive ChordCall (T : Type)
  | report (r : Report T)
  /-- any call on the queue -/
  | op (op : Op T)
  deriving DecidableEq

/-- The report of a call, if it is one. -/
def ChordCall.report? {T : Type} : ChordCall T → Option (Report T)
  | .report r => some r
  | .op _ => none

/-- The reports among some calls, in order. -/
def reports {T : Type} (calls : List (ChordCall T)) : List (Report T) :=
  calls.filterMap ChordCall.report?

/-- A report that was answered with a result list. -/
structure Firing (T : Type) where
  /-- The reports since the barrier was opened, this one included. -/
  counted : List (Report T)
  results : List (Option String)
  deriving DecidableEq

namespace QueueStore

variable {T : Type} [LinearOrder T] [Zero T] [Add T]

/-- The store after a sequence of calls on the chord `chordId` of `size` members, with the reports
since its barrier was opened. -/
def chordRun (c : QueueConfig T) (chordId : String) (size : ℤ) :
    QueueStore T → List (Report T) → List (ChordCall T) → QueueStore T × List (Report T)
  | s, w, [] => (s, w)
  | s, w, .op op :: calls =>
    let s' := (s.perform c op).store
    chordRun c chordId size s' (if (s'.chords.get? chordId).isSome then w else []) calls
  | s, w, .report r :: calls =>
    match s.chordReport chordId r.index size r.result r.now with
    | .error _ => chordRun c chordId size s w calls
    | .ok (s', none) => chordRun c chordId size s' (w ++ [r]) calls
    | .ok (s', some _) => chordRun c chordId size s' [] calls

/-- The reports of such a sequence that were answered with a result list. -/
def firings (c : QueueConfig T) (chordId : String) (size : ℤ) :
    QueueStore T → List (Report T) → List (ChordCall T) → List (Firing T)
  | _, _, [] => []
  | s, w, .op op :: calls =>
    let s' := (s.perform c op).store
    firings c chordId size s' (if (s'.chords.get? chordId).isSome then w else []) calls
  | s, w, .report r :: calls =>
    match s.chordReport chordId r.index size r.result r.now with
    | .error _ => firings c chordId size s w calls
    | .ok (s', none) => firings c chordId size s' (w ++ [r]) calls
    | .ok (s', some results) => ⟨w ++ [r], results⟩ :: firings c chordId size s' [] calls

end QueueStore

end Istos
