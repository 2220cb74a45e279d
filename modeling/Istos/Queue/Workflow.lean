import Istos.Codec.Equiv.Json
import Istos.Codec.Utf8
import Istos.Wire.Selector
import Mathlib.Data.String.Basic

/-!
# Workflow continuations

A job of a chain or of a chord carries the rest of its workflow as a string: base64 of JSON.  The
owner passes the string on; the worker decodes it, and looks for a chain to advance and for a chord
to report to.

* `decodeWf_encodeWf`: a continuation survives its packing.
* `chainStep_chainWf`, `chordStep_chordWf`: the worker finds in it what the producer put there.
-/

namespace Istos

variable [Rounding]

/-! ### Packing -/

/-- `_encode_wf`. -/
def encodeWf (obj : Json) : String := Base64.b64encode (Utf8.encode (Json.dumps obj))

/-- `_decode_wf`; `none` where it raises. -/
def decodeWf (s : String) : Option Json :=
  (Base64.b64decode s).bind fun data => (Utf8.decode data).bind Json.loads

/-- **Round trip** of a continuation. -/
theorem decodeWf_encodeWf {obj : Json} (h : obj.Valid) : decodeWf (encodeWf obj) = some obj := by
  rw [decodeWf, encodeWf, Base64.b64decode_b64encode, Option.bind_some, Utf8.decode_encode,
    Option.bind_some, Json.loads_dumps h]

/-! ### Chains -/

/-- `{"chain": rest}`. -/
def chainOf (rest : List Json) : Json := .obj [("chain", .arr rest)]

/-- `_encode_wf({"chain": rest}) if rest else None`. -/
def encodeChain (rest : List Json) : Option String :=
  if rest = [] then none else some (encodeWf (chainOf rest))

/-- `{"prefix": p}`. -/
def chainEntry (queue : String) : Json := .obj [("prefix", .str queue)]

/-- The continuation of a job before the queues `rest`. -/
def chainWf (rest : List String) : Option String := encodeChain (rest.map chainEntry)

/-- The chain part of `_advance_workflow`: the next queue and the continuation of the job there;
`some none` where there is no chain to advance, `none` where it raises. -/
def chainStep (wf : Json) : Option (Option (String × Option String)) :=
  match wf.get? "chain" with
  | none => some none
  | some chain =>
    if ¬ chain.truthy then some none
    else
      match chain with
      | .arr (nxt :: rest) =>
        match nxt.get? "prefix" with
        | some (.str queue) => some (some (queue, encodeChain rest))
        | _ => none
      | _ => none

/-! ### Chords -/

/-- What a member of a chord carries. -/
structure ChordRef where
  id : String
  index : ℤ
  size : ℤ
  /-- `chord["callback"]`, which is looked at when the chord is complete. -/
  callback : Option Json

/-- The callback of a chord. -/
structure Callback where
  queue : String
  data : Bytes
  deriving DecidableEq

/-- `callback_meta`. -/
def Callback.toJson (cb : Callback) : Json :=
  .obj [("prefix", .str cb.queue), ("data", .str (Base64.b64encode cb.data))]

/-- `cb["prefix"]` and the decoded `cb["data"]`; `none` where one of them raises. -/
def Callback.ofJson (j : Json) : Option Callback :=
  match j.get? "prefix", j.get? "data" with
  | some (.str queue), some (.str data) => (Base64.b64decode data).map fun data => ⟨queue, data⟩
  | _, _ => none

/-- The continuation of member `index` of a chord. -/
def chordWf (id : String) (index size : ℤ) (cb : Callback) : String :=
  encodeWf (.obj [("chord", .obj [("id", .str id), ("index", .num index), ("size", .num size),
    ("callback", cb.toJson)])])

/-- The chord part of `_advance_workflow`, up to the report: `some none` where there is no chord,
`none` where it raises. -/
def chordStep (wf : Json) : Option (Option ChordRef) :=
  match wf.get? "chord" with
  | none => some none
  | some chord =>
    if ¬ chord.truthy then some none
    else
      match chord.get? "id", chord.get? "index", chord.get? "size" with
      | some (.str id), some (.num index), some (.num size) =>
        some (some ⟨id, index, size, chord.get? "callback"⟩)
      | _, _, _ => none

/-! ### What the worker finds -/

theorem valid_chainOf (rest : List String) : (chainOf (rest.map chainEntry)).Valid := by
  have hall : Json.ValidElements (rest.map chainEntry) := by
    induction rest with
    | nil => trivial
    | cons queue rest ih => exact ⟨⟨List.nodup_singleton _, trivial, trivial⟩, ih⟩
  exact ⟨List.nodup_singleton _, hall, trivial⟩

omit [Rounding] in
/-- The last job of a chain has no continuation. -/
theorem chainWf_nil : chainWf [] = none := rfl

/-- A job with queues to go carries them, in order. -/
theorem chainWf_cons (queue : String) (rest : List String) :
    ∃ w, chainWf (queue :: rest) = some w ∧
      decodeWf w = some (chainOf ((queue :: rest).map chainEntry)) := by
  have hne : (queue :: rest).map chainEntry ≠ [] := List.cons_ne_nil _ _
  refine ⟨encodeWf (chainOf ((queue :: rest).map chainEntry)), ?_,
    decodeWf_encodeWf (valid_chainOf (queue :: rest))⟩
  rw [chainWf, encodeChain, if_neg hne]

omit [Rounding] in
/-- **The next step of a chain**. -/
theorem chainStep_chainOf (queue : String) (rest : List String) :
    chainStep (chainOf ((queue :: rest).map chainEntry)) = some (some (queue, chainWf rest)) := rfl

omit [Rounding] in
/-- A chain is not a chord. -/
theorem chordStep_chainOf (rest : List Json) : chordStep (chainOf rest) = some none := rfl

theorem valid_chord (id : String) (index size : ℤ) (cb : Callback) :
    (Json.obj [("chord", .obj [("id", .str id), ("index", .num index), ("size", .num size),
      ("callback", cb.toJson)])]).Valid := by
  refine ⟨List.nodup_singleton _, ⟨?_, trivial, trivial, trivial, ⟨?_, trivial, trivial, trivial⟩,
    trivial⟩, trivial⟩
  · show ["id", "index", "size", "callback"].Nodup
    decide
  · show ["prefix", "data"].Nodup
    decide

/-- **What a member reports**. -/
theorem decodeWf_chordWf (id : String) (index size : ℤ) (cb : Callback) :
    ∃ j, decodeWf (chordWf id index size cb) = some j ∧ chainStep j = some none ∧
      chordStep j = some (some ⟨id, index, size, some cb.toJson⟩) :=
  ⟨_, decodeWf_encodeWf (valid_chord id index size cb), rfl, rfl⟩

omit [Rounding] in
theorem Callback.ofJson_toJson (cb : Callback) : Callback.ofJson cb.toJson = some cb := by
  show (Base64.b64decode (Base64.b64encode cb.data)).map _ = _
  rw [Base64.b64decode_b64encode]
  rfl

end Istos
