import Istos.Codec.Equiv.Detect
import Istos.Codec.EventStream
import Istos.Wire.Selector
import Istos.Wire.Sse

/-!
# What a client reads of a stream of server-sent events

A client reads back the texts of the chunks, and the event of the end, just when no text has a
carriage return: such a character ends a line for the client and not for `sse_event`, and no event
that a client reads has one in its data.
-/

namespace Istos

open EventStream

/-! ### What is due -/

/-- The texts of the chunks, up to one that has none. -/
def chunkTexts : List StreamChunk → List String
  | [] => []
  | chunk :: chunks => match sseText chunk with
    | some text => text :: chunkTexts chunks
    | none => []

/-- How a stream of chunks ends: with an exception where a chunk has no text. -/
def endOf : List StreamChunk → StreamEnd → StreamEnd
  | [], ending => ending
  | chunk :: chunks, ending => match sseText chunk with
    | some _ => endOf chunks ending
    | none => .fails

/-- The name of the last event. -/
def StreamEnd.event : StreamEnd → String
  | ends => "end"
  | _ => "error"

/-- The text of the last event. -/
def StreamEnd.text : StreamEnd → String
  | ends => ""
  | raises code message => Json.dumps (.obj [("code", code), ("message", message)])
  | fails => streamFailed.dumps

/-- What a client is to read: the texts as unnamed events, and the last event. -/
def dueEvents (chunks : List StreamChunk) (ending : StreamEnd) : List EventStream.Event :=
  (chunkTexts chunks).map (fun text => ⟨"message".toList, text.toList, []⟩) ++
    [⟨(endOf chunks ending).event.toList, (endOf chunks ending).text.toList, []⟩]

/-- What a client reads of the body of a response. -/
def clientOf (body : Bytes) : Option EventStream.Client :=
  (Utf8.decode body).map fun text => parse text.toList

/-- The frames are those of the texts, and the last one. -/
theorem sseFrames_eq (chunks : List StreamChunk) (ending : StreamEnd) :
    sseFrames chunks ending = (chunkTexts chunks).map (fun text => sseEvent text none none) ++
      [(endOf chunks ending).frame] := by
  induction chunks with
  | nil => rfl
  | cons chunk chunks ih =>
    rw [sseFrames, chunkTexts, endOf]
    cases sseText chunk with
    | none => rfl
    | some text => rw [ih]; rfl

theorem StreamEnd.frame_eq (ending : StreamEnd) :
    ending.frame = sseEvent ending.text (some ending.event) none := by
  cases ending <;> rfl

/-- The text of the last event has no line break. -/
theorem StreamEnd.unbroken_text (ending : StreamEnd) : Unbroken ending.text.toList := by
  have hdumps : ∀ j : Json, Unbroken j.dumps.toList := by
    intro j
    have hprintable : ∀ c ∈ j.dumps.toList, Json.Printable c := by
      intro c hc
      rw [Json.dumps, String.toList_ofList] at hc
      obtain ⟨t, -, ht⟩ := List.mem_flatMap.mp hc
      exact Json.printable_text t c ht
    exact ⟨fun h => absurd (hprintable _ h) (by decide),
      fun h => absurd (hprintable _ h) (by decide)⟩
  cases ending with
  | ends => exact ⟨List.not_mem_nil, List.not_mem_nil⟩
  | raises code message => exact hdumps _
  | fails => exact hdumps _

/-! ### Frames -/

/-- The lines of a frame, with the empty one. -/
def frameLines (data : String) (event : Option String) : List (List Char) :=
  event.toList.map (fun event => "event: ".toList ++ event.toList) ++
    (data.toList.splitOn '\n').map (fun line => "data: ".toList ++ line) ++ [[]]

theorem toList_sseEvent (data : String) (event : Option String) :
    (sseEvent data event none).toList = (frameLines data event).flatMap fun l => l ++ ['\n'] := by
  have hne : event.toList.map (fun event => "event: ".toList ++ event.toList) ++
      (data.toList.splitOn '\n').map (fun line => "data: ".toList ++ line) ≠ [] := by
    intro hnil
    have hdata := (List.append_eq_nil_iff.mp hnil).2
    exact List.splitOn_ne_nil '\n' data.toList (List.map_eq_nil_iff.mp hdata)
  rw [frameLines, List.flatMap_append, flatMap_eq_intercalate hne, sseEvent, String.toList_ofList]
  simp

theorem unbroken_frameLines {data : String} (hdata : '\r' ∉ data.toList) {event : Option String}
    (hevent : ∀ e ∈ event, Unbroken e.toList) : ∀ l ∈ frameLines data event, Unbroken l := by
  have happend : ∀ {name l : List Char}, Unbroken name → Unbroken l → Unbroken (name ++ l) := by
    intro name l hname hl
    exact ⟨fun h => (List.mem_append.mp h).elim hname.1 hl.1,
      fun h => (List.mem_append.mp h).elim hname.2 hl.2⟩
  intro l hl
  rw [frameLines, List.mem_append, List.mem_append] at hl
  rcases hl with (hl | hl) | hl
  · obtain ⟨e, he, rfl⟩ := List.mem_map.mp hl
    exact happend ⟨by decide, by decide⟩ (hevent e (Option.mem_toList.mp he))
  · obtain ⟨part, hpart, rfl⟩ := List.mem_map.mp hl
    obtain ⟨hn, hsub⟩ := mem_splitOn hpart
    exact happend ⟨by decide, by decide⟩ ⟨hn, fun h => hdata (hsub _ h)⟩
  · rw [List.mem_singleton.mp hl]
    exact ⟨List.not_mem_nil, List.not_mem_nil⟩

/-- A frame begins with the name of a field. -/
theorem head_frameLines (data : String) (event : Option String) :
    ((frameLines data event).flatMap fun l => l ++ ['\n']).head? = some 'd' ∨
      ((frameLines data event).flatMap fun l => l ++ ['\n']).head? = some 'e' := by
  cases event with
  | none =>
    obtain ⟨first, rest, hsplit⟩ :=
      List.exists_cons_of_ne_nil (List.splitOn_ne_nil '\n' data.toList)
    left
    rw [frameLines, hsplit]
    rfl
  | some e => exact Or.inr rfl

/-- **A frame is read** as one event with its text. -/
theorem read_frameLines (s : EventStream.Client) (hdata : s.data = []) (htype : s.type = [])
    (data : String) (event : Option String) (hevent : ∀ e ∈ event, e.toList ≠ []) :
    s.read (frameLines data event) = { s with
      events := s.events ++
        [⟨(event.getD "message").toList, data.toList, s.lastEventId⟩] } := by
  have htext : ((data.toList.splitOn '\n').flatMap fun l => l ++ ['\n']) =
    data.toList ++ ['\n'] := by
    rw [flatMap_eq_intercalate (List.splitOn_ne_nil _ _), List.intercalate_splitOn]
  have hlast : ∀ s : EventStream.Client, s.read [[]] = s.dispatch := fun s => rfl
  have hread : ∀ (s : EventStream.Client) (ls ls' : List (List Char)),
      s.read (ls ++ ls') = (s.read ls).read ls' := fun s ls ls' => List.foldl_append
  rw [frameLines, hread, hread, hlast]
  cases event with
  | none =>
    have hnone : s.read ((none : Option String).toList.map fun event =>
        "event: ".toList ++ event.toList) = s := rfl
    rw [hnone, EventStream.Client.read_data, htext, EventStream.Client.dispatch_append s hdata,
      if_pos htype]
    simp [hdata, htype]
  | some e =>
    have hsome : s.read ((some e).toList.map fun event => "event: ".toList ++ event.toList) =
        { s with type := e.toList } := EventStream.Client.line_event s e.toList
    have hdispatch :=
      EventStream.Client.dispatch_append { s with type := e.toList } hdata data.toList
    rw [if_neg (hevent e rfl)] at hdispatch
    rw [hsome, EventStream.Client.read_data, htext]
    refine hdispatch.trans ?_
    simp [hdata, htype]

/-! ### Streams -/

/-- The frames of a stream, with their texts and names. -/
def framesOf (chunks : List StreamChunk) (ending : StreamEnd) : List (String × Option String) :=
  (chunkTexts chunks).map (fun text => (text, none)) ++
    [((endOf chunks ending).text, some (endOf chunks ending).event)]

theorem sseFrames_eq_map (chunks : List StreamChunk) (ending : StreamEnd) :
    sseFrames chunks ending = (framesOf chunks ending).map fun x => sseEvent x.1 x.2 none := by
  rw [sseFrames_eq, framesOf, List.map_append, List.map_map, StreamEnd.frame_eq]
  rfl

/-- What arrives as text. -/
theorem decode_sseBody (chunks : List StreamChunk) (ending : StreamEnd) :
    (Utf8.decode (sseBody chunks ending)).map String.toList =
      some (((framesOf chunks ending).flatMap fun x => frameLines x.1 x.2).flatMap
        fun l => l ++ ['\n']) := by
  have hbody : sseBody chunks ending = Utf8.encode (String.ofList
      ((sseFrames chunks ending).flatMap String.toList)) := by
    rw [sseBody, Utf8.encode, String.toList_ofList, List.flatMap_assoc]
    rfl
  rw [hbody, Utf8.decode_encode, Option.map_some, String.toList_ofList, sseFrames_eq_map,
    List.flatMap_map, List.flatMap_assoc]
  simp only [toList_sseEvent]

theorem event_cases (ending : StreamEnd) : ending.event = "end" ∨ ending.event = "error" := by
  cases ending with
  | ends => exact Or.inl rfl
  | raises code message => exact Or.inr rfl
  | fails => exact Or.inr rfl

theorem event_ne_nil (ending : StreamEnd) : ending.event.toList ≠ [] := by
  rcases event_cases ending with heq | heq
  · rw [heq]
    decide
  · rw [heq]
    decide

theorem unbroken_event (ending : StreamEnd) : Unbroken ending.event.toList := by
  rcases event_cases ending with heq | heq
  · rw [heq]
    exact ⟨by decide, by decide⟩
  · rw [heq]
    exact ⟨by decide, by decide⟩

/-- The frames are read as what is due. -/
theorem read_frames (frames : List (String × Option String))
    (hframes : ∀ x ∈ frames, ∀ e ∈ x.2, e.toList ≠ []) (s : EventStream.Client)
    (hdata : s.data = [])
    (htype : s.type = []) : s.read (frames.flatMap fun x => frameLines x.1 x.2) = { s with
      events := s.events ++ frames.map fun x =>
        ⟨(x.2.getD "message").toList, x.1.toList, s.lastEventId⟩ } := by
  induction frames generalizing s with
  | nil => simp [EventStream.Client.read]
  | cons x frames ih =>
    obtain ⟨hx, hrest⟩ := List.forall_mem_cons.mp hframes
    have hread : s.read (frameLines x.1 x.2 ++ frames.flatMap fun x => frameLines x.1 x.2) =
        (s.read (frameLines x.1 x.2)).read (frames.flatMap fun x => frameLines x.1 x.2) :=
      List.foldl_append
    rw [List.flatMap_cons, hread, read_frameLines s hdata htype x.1 x.2 hx]
    refine (ih hrest { s with events := s.events ++
      [⟨(x.2.getD "message").toList, x.1.toList, s.lastEventId⟩] } hdata htype).trans ?_
    simp

/-- What a client reads of frames whose texts have no carriage return. -/
theorem parse_frames (chunks : List StreamChunk) (ending : StreamEnd)
    (h : ∀ text ∈ chunkTexts chunks, '\r' ∉ text.toList) :
    parse (((framesOf chunks ending).flatMap fun x => frameLines x.1 x.2).flatMap
      fun l => l ++ ['\n']) =
        { EventStream.Client.init with events := dueEvents chunks ending } := by
  have hunbroken : ∀ l ∈ (framesOf chunks ending).flatMap fun x => frameLines x.1 x.2,
      Unbroken l := by
    intro l hl
    obtain ⟨x, hx, hl⟩ := List.mem_flatMap.mp hl
    rcases List.mem_append.mp hx with hx | hx
    · obtain ⟨text, htext, rfl⟩ := List.mem_map.mp hx
      exact unbroken_frameLines (h text htext) (fun e he => by cases he) l hl
    · obtain rfl := List.mem_singleton.mp hx
      refine unbroken_frameLines (StreamEnd.unbroken_text _).2 (fun e he => ?_) l hl
      obtain rfl := Option.some.inj he
      exact unbroken_event _
  have hevents : ∀ x ∈ framesOf chunks ending, ∀ e ∈ x.2, e.toList ≠ [] := by
    intro x hx e he
    rcases List.mem_append.mp hx with hx | hx
    · obtain ⟨text, -, rfl⟩ := List.mem_map.mp hx
      cases he
    · obtain rfl := List.mem_singleton.mp hx
      obtain rfl := Option.some.inj he
      exact event_ne_nil _
  -- the text does not begin with a byte order mark, but with the name of a field
  have hbom : (((framesOf chunks ending).flatMap fun x => frameLines x.1 x.2).flatMap
      fun l => l ++ ['\n']).head? ≠ some '\uFEFF' := by
    have hframes : framesOf chunks ending ≠ [] := List.append_ne_nil_of_right_ne_nil _
      (List.cons_ne_nil _ _)
    obtain ⟨x, rest, hx⟩ := List.exists_cons_of_ne_nil hframes
    rw [hx, List.flatMap_cons, List.flatMap_append]
    intro hhead
    rcases head_frameLines x.1 x.2 with h₁ | h₁
    all_goals
      rw [List.head?_append, h₁, Option.some_or] at hhead
      exact absurd hhead (by decide)
  have hlines := lines_flatMap hunbroken []
  rw [List.append_nil] at hlines
  rw [parse, if_neg hbom, hlines, lines, List.append_nil, read_frames _ hevents _ rfl rfl]
  simp [framesOf, dueEvents, EventStream.Client.init]

/-- **When a client reads what was sent**: just when no text of a chunk has a carriage return. -/
theorem client_reads_iff (chunks : List StreamChunk) (ending : StreamEnd) :
    clientOf (sseBody chunks ending) =
        some { EventStream.Client.init with events := dueEvents chunks ending } ↔
      ∀ text ∈ chunkTexts chunks, '\r' ∉ text.toList := by
  have hclient : clientOf (sseBody chunks ending) = some (parse
      (((framesOf chunks ending).flatMap fun x => frameLines x.1 x.2).flatMap
        fun l => l ++ ['\n'])) := by
    have hdecode := congrArg (Option.map parse) (decode_sseBody chunks ending)
    rw [Option.map_map] at hdecode
    exact hdecode
  rw [hclient, Option.some.injEq]
  refine ⟨fun heq text htext => ?_, parse_frames chunks ending⟩
  -- no event that a client reads has a carriage return in its data
  have hnoCr : ∀ body, (parse body).NoCr := fun body =>
    EventStream.Client.noCr_read EventStream.Client.noCr_init (cr_notMem_lines List.not_mem_nil)
  have hall := (hnoCr (((framesOf chunks ending).flatMap fun x => frameLines x.1 x.2).flatMap
    fun l => l ++ ['\n'])).2
  rw [heq] at hall
  exact hall _ (List.mem_append_left _ (List.mem_map_of_mem htext))

/-- A chunk with carriage returns: it is read as two events, of which the second has an id, where
one event without an id is due. -/
theorem client_reads_forged :
    clientOf (sseBody [.str "a\r\rid: 7\rdata: b"] .ends) = some { EventStream.Client.init with
      events := [⟨"message".toList, "a".toList, []⟩, ⟨"message".toList, "b".toList, "7".toList⟩,
        ⟨"end".toList, [], "7".toList⟩]
      lastEventId := "7".toList } ∧
    dueEvents [.str "a\r\rid: 7\rdata: b"] .ends =
      [⟨"message".toList, "a\r\rid: 7\rdata: b".toList, []⟩, ⟨"end".toList, [], []⟩] := by
  decide +kernel

end Istos
