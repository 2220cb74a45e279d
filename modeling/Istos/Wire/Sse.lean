import Istos.Codec.Base64
import Istos.Codec.Json
import Istos.Codec.Utf8

/-!
# Server-sent events

`sse_event` writes one frame, with a `data:` line for every line of its text; the handler of an SSE
route writes a frame for every chunk of a stream and at last one for its end or its error.
-/

namespace Istos

/-- `sse_event`. -/
def sseEvent (data : String) (event id : Option String) : String :=
  let idLines := id.toList.map fun id => "id: ".toList ++ id.toList
  let eventLines := event.toList.map fun event => "event: ".toList ++ event.toList
  let dataLines := (data.toList.splitOn '\n').map fun line => "data: ".toList ++ line
  String.ofList (['\n'].intercalate (idLines ++ eventLines ++ dataLines) ++ ['\n', '\n'])

/-- A chunk of a stream. -/
inductive StreamChunk
  | str (text : String)
  /-- `bytes` or `bytearray` -/
  | bytes (data : Bytes)
  /-- anything else; `written` is what `json.dumps` writes of it with `default=str`, `none` where
  that raises -/
  | value (written : Option Json)

/-- `_sse_text`; `none` where it raises. -/
def sseText : StreamChunk → Option String
  | .str text => some text
  | .bytes data => some ((Utf8.decode data).getD (Base64.b64encode data))
  | .value written => written.map Json.dumps

/-- How a stream ends. -/
inductive StreamEnd
  | ends
  /-- an `IstosError` is raised -/
  | raises (code message : Json)
  /-- another exception is raised -/
  | fails

/-- The error that is reported for an exception that is no `IstosError`. -/
def streamFailed : Json :=
  .obj [("code", .str "stream_error"), ("message", .str "Upstream stream failed.")]

/-- The last frame. -/
def StreamEnd.frame : StreamEnd → String
  | ends => sseEvent "" (some "end") none
  | raises code message =>
    sseEvent (Json.dumps (.obj [("code", code), ("message", message)])) (some "error") none
  | fails => sseEvent streamFailed.dumps (some "error") none

/-- The frames that the handler of an SSE route writes. -/
def sseFrames : List StreamChunk → StreamEnd → List String
  | [], ending => [ending.frame]
  | chunk :: chunks, ending =>
    match sseText chunk with
    | some text => sseEvent text none none :: sseFrames chunks ending
    | none => [StreamEnd.fails.frame]

/-- The body of the response. -/
def sseBody (chunks : List StreamChunk) (ending : StreamEnd) : Bytes :=
  (sseFrames chunks ending).flatMap Utf8.encode

end Istos
