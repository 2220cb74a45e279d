import Istos.Queue.Storage
import Istos.Queue.Worker

/-!
# Results

A worker's return leaves it as bytes.  With `keep_results` the ack carries them to the owner, which
keeps them in the record and answers a result query with them; for the member of a chord a report
carries them, and the completing worker finds them in the result list.
-/

namespace Istos

variable {T β : Type}

/-! ### The result query -/

/-- The reply of `_on_result`. -/
def resultReply (state : Option JobState) (data : Option Bytes) : Json :=
  .obj [("state", .str ((state.map JobState.value).getD "unknown")),
    ("result", optJson (data.map Base64.b64encode))]

/-- `_on_result`; `none` where it raises. -/
def onResult [LinearOrder T] (s : QueueStore T) (params : Params) : Option Json :=
  (s.result ((params.lookup "job_id").getD "")).map fun x => resultReply x.1 x.2

/-- The state and the bytes that `app.result` finds in a reply; `none` where it raises. -/
def readResult (reply : Json) : Option (String × Option Bytes) :=
  let state :=
    match reply.get? "state" with
    | some (.str state) => state
    | _ => "unknown"
  match reply.get? "result" with
  | none => some (state, none)
  | some .null => some (state, none)
  | some (.str text) => (Base64.b64decode text).map fun data => (state, some data)
  | some _ => none

/-! ### The result list of a chord -/

/-- What the owner takes out of the payload of a report: the text, or `None`; `none` where it
raises. -/
def reportedResult (payload : Bytes) : Option (Option String) := (decodeAscii payload).map orNone

/-- What the completing worker makes of an entry of the result list. -/
def Worker.memberResult (w : Worker β) : Json → Option (Option β)
  | .null => some none
  | .str s => (Base64.b64decode s).bind fun data => (w.serializer.deserialize data).map some
  | _ => none

/-- What the completing worker makes of the result list; `reply.get("results") or []`. -/
def Worker.memberResults (w : Worker β) : Json → Option (List (Option β))
  | .null => some []
  | .arr rs => rs.mapM w.memberResult
  | _ => none

end Istos
