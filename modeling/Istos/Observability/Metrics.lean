import Istos.Codec.Exposition
import Istos.Data.Cursor
import Istos.Data.Tally
import Mathlib.Data.String.Basic

/-!
# Metrics

`MetricsCollector` keeps counters and histograms under one text for a name with its labels, and
`export_prometheus` writes them out.  How two floats are added belongs to the interpreter: `add`
stands for it.
-/

namespace Istos

/-- A dictionary of labels. -/
abbrev Labels := Table (Prod.fst : String × String → String)

/-- A call of a collector. -/
inductive MetricCall
  | increment (name : String) (labels : Option Labels) (value : ℤ)
  | observe (name : String) (value : PyFloat) (labels : Option Labels)

/-- `0.0`. -/
def floatZero : PyFloat := .finite ⟨false, 0, ".0".toList, by decide⟩

/-- A float that counts: from `2 ** 53` on, one more is the same float. -/
def countUp (count : ℕ) : ℕ := if count < 2 ^ 53 then count + 1 else count

/-- `MetricsCollector`: the counters, and of every histogram its count and its sum. -/
structure MetricsCollector where
  counters : Table (Prod.fst : String × ℤ → String)
  histograms : Table (Prod.fst : String × ℕ × PyFloat → String)

namespace MetricsCollector

/-- `__init__`. -/
def init : MetricsCollector := ⟨∅, ∅⟩

/-! ### Keys -/

/-- `value.replace(c, text)`. -/
def replace (c : Char) (text value : List Char) : List Char :=
  value.flatMap fun d => if d = c then text else [d]

/-- `_escape_label`. -/
def escapeLabel (value : String) : List Char :=
  replace '"' ['\\', '"'] (replace '\n' ['\\', 'n'] (replace '\\' ['\\', '\\'] value.toList))

/-- `_key`; items with distinct names are sorted by their names. -/
def key (name : String) (labels : Option Labels) : String :=
  match labels with
  | none => name
  | some labels =>
    if labels.rows = [] then name
    else
      let labelStr := [','].intercalate ((Cursor.sort labels.rows).map fun kv =>
        escapeLabel kv.1 ++ '=' :: '"' :: (escapeLabel kv.2 ++ ['"']))
      String.ofList (name.toList ++ '{' :: (labelStr ++ ['}']))

/-! ### Calls -/

/-- `increment`. -/
def increment (m : MetricsCollector) (name : String) (labels : Option Labels) (value : ℤ) :
    MetricsCollector :=
  let key := key name labels
  { m with counters := m.counters.put (key, ((m.counters.get? key).map Prod.snd).getD 0 + value) }

variable (add : PyFloat → PyFloat → PyFloat)

/-- `observe`. -/
def observe (m : MetricsCollector) (name : String) (value : PyFloat) (labels : Option Labels) :
    MetricsCollector :=
  let key := key name labels
  let slot := ((m.histograms.get? key).map Prod.snd).getD (0, floatZero)
  { m with histograms := m.histograms.put (key, countUp slot.1, add slot.2 value) }

/-- A call. -/
def call (m : MetricsCollector) : MetricCall → MetricsCollector
  | .increment name labels value => m.increment name labels value
  | .observe name value labels => m.observe add name value labels

/-- Some calls. -/
def run (calls : List MetricCall) : MetricsCollector := calls.foldl (call add) init

/-! ### Export -/

/-- What stands before every key. -/
def istos : List Char := "istos_".toList

/-- The line of a counter. -/
def counterLine (row : String × ℤ) : List Char :=
  istos ++ row.1.toList ++ ' ' :: Decimal.text row.2

/-- The lines of a histogram. -/
def histogramLines (row : String × ℕ × PyFloat) : List (List Char) :=
  if row.2.1 ≠ 0 then
    [istos ++ row.1.toList ++ "_count".toList ++ ' ' :: Decimal.text row.2.1,
      istos ++ row.1.toList ++ "_sum".toList ++ ' ' :: Exposition.floatText row.2.2]
  else []

/-- The lines of all of them, in the order of their keys. -/
def lines (m : MetricsCollector) : List (List Char) :=
  (Cursor.sort m.counters.rows).map counterLine ++
    (Cursor.sort m.histograms.rows).flatMap histogramLines

/-- `export_prometheus`. -/
def exportPrometheus (m : MetricsCollector) : String :=
  String.ofList (['\n'].intercalate m.lines ++ ['\n'])

end MetricsCollector

/-! ### The middleware -/

/-- How a call of the next handler ends. -/
inductive HandlerEnd
  | returns
  /-- with an `Exception` -/
  | raises
  /-- with a `BaseException` that is none, as where the task is cancelled -/
  | exits
  deriving DecidableEq

/-- The labels of the middleware. -/
def prometheusLabels (operation path : String) : Labels :=
  Table.ofList Prod.fst [("operation", operation), ("prefix", path)]

/-- `PrometheusMiddleware.__call__`: what it calls of its collector. -/
def prometheusCalls (operation path : String) (ending : HandlerEnd) (duration : PyFloat) :
    List MetricCall :=
  let labels := some (prometheusLabels operation path)
  let counted := match ending with
    | .returns => [.increment "requests_success_total" labels 1]
    | .raises => [.increment "requests_error_total" labels 1]
    | .exits => []
  [.increment "requests_total" labels 1] ++ counted ++
    [.observe "request_duration_seconds" duration labels]

end Istos
