import Istos.Data.Traverse
import Istos.Observability.Metrics
import Mathlib.Algebra.Ring.Int.Defs

/-!
# The export parses back

What a collector has recorded is said of the calls alone: a series is a name with its labels, and
`recorded` gives the samples of every series.  The keys of the collector tell the series apart
(`seriesKey_injective`), so its lines are those of the series, in another order (`lines_perm`).

* `export_parses_iff`: the export of calls with valid names parses back to what was recorded just
  when no histogram has labels.  `_count` and `_sum` are put behind the labels of a histogram, and
  one such line makes a reader reject the whole text.
* `parse_eq_none_of_request`: so every export after a request that went through the middleware is
  rejected.
-/

namespace Istos

open Exposition MetricsCollector

/-! ### What calls record -/

/-- A series: a metric name, and its labels in the order of their names. -/
abbrev Series := String × List (String × String)

/-- The labels that are passed. -/
def labelItems (labels : Option Labels) : List (String × String) :=
  labels.elim [] fun labels => Cursor.sort labels.rows

namespace MetricCall

/-- The series that is counted or observed. -/
def series : MetricCall → Series
  | increment name labels _ => (name, labelItems labels)
  | observe name _ labels => (name, labelItems labels)

end MetricCall

/-- The name and the names of the labels are valid. -/
def Series.Valid (s : Series) : Prop :=
  ValidName s.1.toList ∧ ∀ kv ∈ s.2, ValidLabel kv.1.toList

instance (s : Series) : Decidable s.Valid := inferInstanceAs (Decidable (_ ∧ _))

/-- What is counted, each time with its series. -/
def counted (calls : List MetricCall) : List (Series × ℤ) :=
  calls.filterMap fun
    | .increment name labels value => some ((name, labelItems labels), value)
    | .observe _ _ _ => none

/-- What is observed, each time with its series. -/
def observed (calls : List MetricCall) : List (Series × PyFloat) :=
  calls.filterMap fun
    | .increment _ _ _ => none
    | .observe name value labels => some ((name, labelItems labels), value)

/-- The labels of a series, as a reader has them. -/
def Series.labels (s : Series) : List (List Char × List Char) :=
  s.2.map fun kv => (kv.1.toList, kv.2.toList)

/-- The name of a series in the export, with a suffix. -/
def Series.metric (s : Series) (suffix : List Char) : List Char :=
  istos ++ (s.1.toList ++ suffix)

/-- A sample of a series. -/
def Series.sample (s : Series) (suffix : List Char) (value : Number) : Sample :=
  ⟨s.metric suffix, s.labels, value, none⟩

/-- What a float has counted: it stands still at `2 ** 53`. -/
def floatCount (n : ℕ) : ℕ := min n (2 ^ 53)

/-- The samples that were recorded. -/
def recorded (add : PyFloat → PyFloat → PyFloat) (calls : List MetricCall) : List Sample :=
  (((counted calls).map Prod.fst).dedup.map fun s =>
      s.sample [] (.int (Tally.under s (counted calls)).sum)) ++
    ((observed calls).map Prod.fst).dedup.flatMap fun s =>
      [s.sample "_count".toList (.int (floatCount (Tally.under s (observed calls)).length)),
        s.sample "_sum".toList (.float ((Tally.under s (observed calls)).foldl add floatZero))]

/-! ### Keys -/

theorem labelItems_eq_nil_iff (labels : Labels) :
    labelItems (some labels) = [] ↔ labels.rows = [] := by
  rw [← List.length_eq_zero_iff, ← List.length_eq_zero_iff]
  exact Eq.congr_left (Cursor.perm_sort labels.rows).length_eq

/-- The three replacements are one. -/
theorem escapeLabel_eq (value : String) : escapeLabel value = escape value.toList := by
  unfold escapeLabel MetricsCollector.replace escape
  rw [List.flatMap_assoc, List.flatMap_assoc]
  refine List.flatMap_congr fun c _ => ?_
  unfold escapeChar
  by_cases h₁ : c = '\\'
  · subst h₁
    decide
  · by_cases h₂ : c = '\n'
    · subst h₂
      decide
    · by_cases h₃ : c = '"'
      · subst h₃
        decide
      · simp [h₁, h₂, h₃]

/-- The name of a label has nothing to escape. -/
theorem escape_of_validLabel {name : List Char} (h : ValidLabel name) : escape name = name := by
  have hchar : ∀ c ∈ name, escapeChar c = [c] := by
    intro c hc
    have hvalid := h.2 c hc
    have hne : ∀ d, isLabelChar d = false → c ≠ d := by
      rintro d hd rfl
      rw [hvalid] at hd
      cases hd
    rw [escapeChar, if_neg (hne _ (by decide)), if_neg (hne _ (by decide)),
      if_neg (hne _ (by decide))]
  rw [escape, List.flatMap_congr hchar]
  simp

/-- The key of a series. -/
def seriesKey (s : Series) : String := String.ofList (s.1.toList ++ block s.labels)

theorem toList_seriesKey (s : Series) : (seriesKey s).toList = s.1.toList ++ block s.labels :=
  String.toList_ofList

theorem key_eq (name : String) (labels : Option Labels)
    (h : ∀ kv ∈ labelItems labels, ValidLabel kv.1.toList) :
    key name labels = seriesKey (name, labelItems labels) := by
  cases labels with
  | none => simp [key, seriesKey, labelItems, Series.labels, block]
  | some labels =>
    by_cases hrows : labels.rows = []
    · rw [(labelItems_eq_nil_iff labels).mpr hrows]
      simp [key, seriesKey, Series.labels, block, hrows]
    · have hitems := mt (labelItems_eq_nil_iff labels).mp hrows
      have hpairs : ((Cursor.sort labels.rows).map fun kv =>
          escapeLabel kv.1 ++ '=' :: '"' :: (escapeLabel kv.2 ++ ['"'])) =
          ((Cursor.sort labels.rows).map fun kv => (kv.1.toList, kv.2.toList)).map pair := by
        rw [List.map_map]
        refine List.map_congr_left fun kv hkv => ?_
        rw [escapeLabel_eq, escapeLabel_eq, escape_of_validLabel (h kv hkv)]
        rfl
      rw [key, if_neg hrows, hpairs, seriesKey, block, if_neg (by simpa [Series.labels])]
      rfl

theorem Series.Valid.labels {s : Series} (h : s.Valid) : ∀ label ∈ s.labels, ValidLabel label.1 :=
  List.forall_mem_map.mpr h.2

/-- **The keys** tell the series apart. -/
theorem seriesKey_injective {s s' : Series} (h : s.Valid) (h' : s'.Valid)
    (hkey : seriesKey s = seriesKey s') : s = s' := by
  rw [seriesKey, seriesKey, String.ofList_inj] at hkey
  obtain ⟨hname, hlabels⟩ := series_injective h.1 h'.1 h.labels h'.labels hkey
  have hinj : Function.Injective fun kv : String × String => (kv.1.toList, kv.2.toList) := by
    rintro ⟨a, b⟩ ⟨c, d⟩ heq
    simpa [String.toList_inj] using heq
  exact Prod.ext (String.toList_inj.mp hname) (hinj.list_map hlabels)

/-! ### What a collector holds -/

/-- The values of calls, each with its key, as they are added up. -/
theorem counters_run (add : PyFloat → PyFloat → PyFloat) {calls : List MetricCall}
    (h : ∀ c ∈ calls, c.series.Valid) : (run add calls).counters =
      Tally.tally 0 (· + ·) ((counted calls).map fun p => (seriesKey p.1, p.2)) := by
  induction calls using List.reverseRecOn with
  | nil => rfl
  | append_singleton calls c ih =>
    rw [List.forall_mem_append] at h
    have hrun : run add (calls ++ [c]) = (run add calls).call add c := List.foldl_concat _ _ _ _
    rw [hrun, counted, List.filterMap_append, List.map_append]
    cases c with
    | increment name labels value =>
      have hkey := key_eq name labels (h.2 _ List.mem_cons_self).2
      show Table.put _ _ = (_ ++ [_]).foldl _ _
      rw [List.foldl_concat, hkey, ih h.1]
      rfl
    | observe name value labels =>
      rw [show List.filterMap _ [MetricCall.observe name value labels] = [] from rfl, List.map_nil,
        List.append_nil]
      exact ih h.1

/-- One more value of a histogram. -/
def Slot.add (add : PyFloat → PyFloat → PyFloat) (slot : ℕ × PyFloat) (value : PyFloat) :
    ℕ × PyFloat := (countUp slot.1, add slot.2 value)

theorem histograms_run (add : PyFloat → PyFloat → PyFloat) {calls : List MetricCall}
    (h : ∀ c ∈ calls, c.series.Valid) : (run add calls).histograms =
      Tally.tally (0, floatZero) (Slot.add add)
        ((observed calls).map fun p => (seriesKey p.1, p.2)) := by
  induction calls using List.reverseRecOn with
  | nil => rfl
  | append_singleton calls c ih =>
    rw [List.forall_mem_append] at h
    have hrun : run add (calls ++ [c]) = (run add calls).call add c := List.foldl_concat _ _ _ _
    rw [hrun, observed, List.filterMap_append, List.map_append]
    cases c with
    | increment name labels value =>
      rw [show List.filterMap _ [MetricCall.increment name labels value] = [] from rfl,
        List.map_nil, List.append_nil]
      exact ih h.1
    | observe name value labels =>
      have hkey := key_eq name labels (h.2 _ List.mem_cons_self).2
      show Table.put _ _ = (_ ++ [_]).foldl _ _
      rw [List.foldl_concat, hkey, ih h.1]
      rfl

/-- A count stands still where it is too large, and a sum goes on. -/
theorem foldl_slot (add : PyFloat → PyFloat → PyFloat) (values : List PyFloat) :
    values.foldl (Slot.add add) (0, floatZero) =
      (floatCount values.length, values.foldl add floatZero) := by
  induction values using List.reverseRecOn with
  | nil => rfl
  | append_singleton values value ih =>
    rw [List.foldl_concat, List.foldl_concat, ih, Slot.add, countUp, List.length_append,
      List.length_singleton]
    refine congrArg₂ Prod.mk ?_ rfl
    unfold floatCount
    split_ifs with hlt
    · omega
    · omega

theorem valid_of_counted {calls : List MetricCall} (h : ∀ c ∈ calls, c.series.Valid) :
    ∀ s ∈ (counted calls).map Prod.fst, s.Valid := by
  refine List.forall_mem_map.mpr fun p hp => ?_
  obtain ⟨c, hc, hcp⟩ := List.mem_filterMap.mp hp
  cases c with
  | increment name labels value =>
    obtain rfl := Option.some.inj hcp
    have hvalid := h _ hc
    exact hvalid
  | observe name value labels => cases hcp

theorem valid_of_observed {calls : List MetricCall} (h : ∀ c ∈ calls, c.series.Valid) :
    ∀ s ∈ (observed calls).map Prod.fst, s.Valid := by
  refine List.forall_mem_map.mpr fun p hp => ?_
  obtain ⟨c, hc, hcp⟩ := List.mem_filterMap.mp hp
  cases c with
  | increment name labels value => cases hcp
  | observe name value labels =>
    obtain rfl := Option.some.inj hcp
    have hvalid := h _ hc
    exact hvalid

/-- The lines of what was recorded. -/
def recordedLines (add : PyFloat → PyFloat → PyFloat) (calls : List MetricCall) :
    List (List Char) :=
  (((counted calls).map Prod.fst).dedup.map fun s =>
      counterLine (seriesKey s, (Tally.under s (counted calls)).sum)) ++
    ((observed calls).map Prod.fst).dedup.flatMap fun s =>
      histogramLines (seriesKey s, floatCount (Tally.under s (observed calls)).length,
        (Tally.under s (observed calls)).foldl add floatZero)

/-- **The lines** of a collector are those of what was recorded. -/
theorem lines_perm (add : PyFloat → PyFloat → PyFloat) {calls : List MetricCall}
    (h : ∀ c ∈ calls, c.series.Valid) : (run add calls).lines.Perm (recordedLines add calls) := by
  have hcounted := valid_of_counted h
  have hobserved := valid_of_observed h
  refine List.Perm.append ?_ ?_
  · rw [counters_run add h]
    refine ((Cursor.perm_sort _).map counterLine).trans ?_
    refine ((Tally.tally_map_perm 0 (· + ·) fun s hs s' hs' =>
      seriesKey_injective (hcounted s hs) (hcounted s' hs')).map counterLine).trans ?_
    rw [List.map_map]
    refine List.Perm.of_eq (List.map_congr_left fun s _ => ?_)
    rw [Function.comp_apply, ← List.sum_eq_foldl]
  · rw [histograms_run add h]
    refine ((Cursor.perm_sort _).flatMap_right histogramLines).trans ?_
    refine ((Tally.tally_map_perm (0, floatZero) (Slot.add add) fun s hs s' hs' =>
      seriesKey_injective (hobserved s hs) (hobserved s' hs')).flatMap_right
        histogramLines).trans ?_
    rw [List.flatMap_map]
    refine List.Perm.of_eq (List.flatMap_congr fun s _ => ?_)
    rw [foldl_slot]

/-! ### The lines of series -/

/-- `istos_` before, and a suffix behind a name. -/
theorem validName_metric {s : Series} (h : s.Valid) {suffix : List Char}
    (hsuffix : ∀ c ∈ suffix, isNameChar c = true) : ValidName (s.metric suffix) := by
  refine ⟨⟨'i', rfl, by decide⟩, fun c hc => ?_⟩
  rcases List.mem_append.mp hc with hc | hc
  · exact List.all_eq_true.mp (by decide : istos.all isNameChar = true) c hc
  · rcases List.mem_append.mp hc with hc | hc
    · exact h.1.2 c hc
    · exact hsuffix c hc

theorem validName_plain {s : Series} (h : s.Valid) : ValidName (s.metric []) :=
  validName_metric h fun _ hc => absurd hc List.not_mem_nil

theorem metric_append (s : Series) (suffix cs : List Char) :
    s.metric suffix ++ cs = s.metric [] ++ (suffix ++ cs) := by
  rw [Series.metric, Series.metric, List.append_nil]
  simp only [List.append_assoc]

theorem counterLine_eq (s : Series) (n : ℤ) : counterLine (seriesKey s, n) =
    s.metric [] ++ (block s.labels ++ ' ' :: (Number.int n).text) := by
  simp only [counterLine, toList_seriesKey, Series.metric, List.append_nil, Number.text,
    List.append_assoc]

theorem sample_counterLine {s : Series} (h : s.Valid) (n : ℤ) :
    sample (counterLine (seriesKey s, n)) = some (s.sample [] (.int n)) := by
  rw [counterLine_eq, sample_text (validName_plain h) h.labels, Series.sample]

/-- The lines of a histogram with values. -/
theorem histogramLines_eq (s : Series) {n : ℕ} (hn : n ≠ 0) (x : PyFloat) :
    histogramLines (seriesKey s, n, x) =
      [s.metric [] ++ (block s.labels ++ ("_count".toList ++ ' ' :: (Number.int n).text)),
        s.metric [] ++ (block s.labels ++ ("_sum".toList ++ ' ' :: (Number.float x).text))] := by
  rw [histogramLines, if_pos hn]
  simp only [toList_seriesKey, Series.metric, List.append_nil, Number.text, List.append_assoc]

/-- Without labels a suffix is part of the name. -/
theorem sample_histogramLines {s : Series} (h : s.Valid) (hs : s.2 = []) {n : ℕ} (hn : n ≠ 0)
    (x : PyFloat) : (histogramLines (seriesKey s, n, x)).map sample =
      [some (s.sample "_count".toList (.int n)), some (s.sample "_sum".toList (.float x))] := by
  have hlabels : s.labels = [] := by rw [Series.labels, hs, List.map_nil]
  have hblock : block s.labels = [] := by rw [hlabels, block, if_pos rfl]
  have hline : ∀ (suffix : List Char) (v : Number), (∀ c ∈ suffix, isNameChar c = true) →
      sample (s.metric [] ++ (block s.labels ++ (suffix ++ ' ' :: v.text))) =
        some (s.sample suffix v) := by
    intro suffix v hsuffix
    have hread := sample_text (validName_metric h hsuffix) h.labels v
    rw [hblock, List.nil_append] at hread ⊢
    rw [← metric_append, hread, Series.sample]
  rw [histogramLines_eq s hn, List.map_cons, List.map_singleton,
    hline _ _ (List.all_eq_true.mp (by decide)),
    hline _ _ (List.all_eq_true.mp (by decide))]

/-- Behind labels it is no part of anything. -/
theorem sample_histogramLines_none {s : Series} (h : s.Valid) (hs : s.2 ≠ []) {n : ℕ} (hn : n ≠ 0)
    (x : PyFloat) : ∀ l ∈ histogramLines (seriesKey s, n, x), sample l = none := by
  have hlabels : s.labels ≠ [] := mt List.map_eq_nil_iff.mp hs
  have hcount : "_count".toList = '_' :: "count".toList := by decide
  have hsum : "_sum".toList = '_' :: "sum".toList := by decide
  rw [histogramLines_eq s hn, hcount, hsum]
  intro l hl
  rcases List.mem_cons.mp hl with rfl | hl
  · exact sample_suffix (validName_plain h) hlabels h.labels _
  · obtain rfl := List.mem_singleton.mp hl
    exact sample_suffix (validName_plain h) hlabels h.labels _

/-- A line that begins with a name, and has its labels next. -/
theorem line_of_series {s : Series} (h : s.Valid) {suffix : List Char} (hsuffix : '\n' ∉ suffix) :
    '\n' ∉ s.metric [] ++ (block s.labels ++ suffix) ∧
      ignored (s.metric [] ++ (block s.labels ++ suffix)) = false := by
  have hlf : '\n' ∉ s.metric [] := fun hmem => absurd ((validName_plain h).2 _ hmem) (by decide)
  have hrest : '\n' ∉ block s.labels ++ suffix := by
    rw [List.mem_append, not_or]
    exact ⟨lf_notMem_block h.labels, hsuffix⟩
  exact ⟨fun hmem => (List.mem_append.mp hmem).elim hlf hrest, not_ignored (validName_plain h) _⟩

theorem lf_notMem_text (v : Number) : '\n' ∉ v.text := fun h => (plain_of_mem_text h).2.1 rfl

/-- Every series that occurs has a value. -/
theorem count_ne_zero {β : Type} {s : Series} {pairs : List (Series × β)}
    (hs : s ∈ (pairs.map Prod.fst).dedup) : floatCount (Tally.under s pairs).length ≠ 0 := by
  have hne : Tally.under s pairs ≠ [] :=
    mt Tally.under_eq_nil_iff.mp (not_not.mpr (List.mem_dedup.mp hs))
  have := List.length_pos_iff.mpr hne
  unfold floatCount
  omega

theorem lf_notMem_suffix {suffix : List Char} (hsuffix : '\n' ∉ suffix) (v : Number) :
    '\n' ∉ suffix ++ ' ' :: v.text := by
  rw [List.mem_append, List.mem_cons, not_or, not_or]
  exact ⟨hsuffix, by decide, lf_notMem_text v⟩

/-- No line of a collector is broken, and none is blank or a comment. -/
theorem line_of_mem_recordedLines (add : PyFloat → PyFloat → PyFloat) {calls : List MetricCall}
    (h : ∀ c ∈ calls, c.series.Valid) {l : List Char} (hl : l ∈ recordedLines add calls) :
    '\n' ∉ l ∧ ignored l = false := by
  rcases List.mem_append.mp hl with hl | hl
  · obtain ⟨s, hs, rfl⟩ := List.mem_map.mp hl
    rw [counterLine_eq]
    exact line_of_series (valid_of_counted h s (List.mem_dedup.mp hs))
      (lf_notMem_suffix List.not_mem_nil _)
  · obtain ⟨s, hs, hl⟩ := List.mem_flatMap.mp hl
    have hvalid := valid_of_observed h s (List.mem_dedup.mp hs)
    rw [histogramLines_eq s (count_ne_zero hs)] at hl
    rcases List.mem_cons.mp hl with rfl | hl
    · exact line_of_series hvalid (lf_notMem_suffix (by decide) _)
    · obtain rfl := List.mem_singleton.mp hl
      exact line_of_series hvalid (lf_notMem_suffix (by decide) _)

/-! ### The whole text -/

/-- A reader reads the export line by line. -/
theorem parse_export (add : PyFloat → PyFloat → PyFloat) {calls : List MetricCall}
    (h : ∀ c ∈ calls, c.series.Valid) :
    parse (exportPrometheus (run add calls)).toList = (run add calls).lines.mapM sample := by
  have hlines : ∀ l ∈ (run add calls).lines, '\n' ∉ l ∧ ignored l = false :=
    fun l hl => line_of_mem_recordedLines add h ((lines_perm add h).subset hl)
  rw [exportPrometheus, String.toList_ofList,
    parse_lines (fun l hl => (hlines l hl).1) fun l hl => (hlines l hl).2]

/-- No histogram has labels. -/
def UnlabelledHistograms (calls : List MetricCall) : Prop :=
  ∀ name value labels, MetricCall.observe name value (some labels) ∈ calls → labels.rows = []

theorem unlabelled_iff {calls : List MetricCall} :
    UnlabelledHistograms calls ↔ ∀ s ∈ (observed calls).map Prod.fst, s.2 = [] := by
  rw [List.forall_mem_map]
  constructor
  · intro h p hp
    obtain ⟨c, hc, hcp⟩ := List.mem_filterMap.mp hp
    cases c with
    | increment name labels value => cases hcp
    | observe name value labels =>
      obtain rfl := Option.some.inj hcp
      cases labels with
      | none => rfl
      | some labels => exact (labelItems_eq_nil_iff labels).mpr (h name value labels hc)
  · intro h name value labels hmem
    refine (labelItems_eq_nil_iff labels).mp (h ((name, labelItems (some labels)), value) ?_)
    exact List.mem_filterMap.mpr ⟨_, hmem, rfl⟩

/-- Without labels at a histogram every line is the sample that was recorded. -/
theorem map_sample_recordedLines (add : PyFloat → PyFloat → PyFloat) {calls : List MetricCall}
    (h : ∀ c ∈ calls, c.series.Valid) (hplain : UnlabelledHistograms calls) :
    (recordedLines add calls).map sample = (recorded add calls).map some := by
  rw [recordedLines, recorded, List.map_append, List.map_append, List.map_map, List.map_map,
    List.map_flatMap, List.map_flatMap]
  refine congrArg₂ (· ++ ·) ?_ ?_
  · refine List.map_congr_left fun s hs => ?_
    rw [Function.comp_apply, Function.comp_apply]
    exact sample_counterLine (valid_of_counted h s (List.mem_dedup.mp hs)) _
  · refine List.flatMap_congr fun s hs => ?_
    have hmem := List.mem_dedup.mp hs
    have hlines := sample_histogramLines (valid_of_observed h s hmem)
      (unlabelled_iff.mp hplain s hmem) (count_ne_zero hs)
      ((Tally.under s (observed calls)).foldl add floatZero)
    refine hlines.trans ?_
    rw [List.map_cons, List.map_singleton]

/-- With labels at a histogram some line is no sample. -/
theorem exists_sample_eq_none (add : PyFloat → PyFloat → PyFloat) {calls : List MetricCall}
    (h : ∀ c ∈ calls, c.series.Valid) (hlabels : ¬ UnlabelledHistograms calls) :
    ∃ l ∈ recordedLines add calls, sample l = none := by
  rw [unlabelled_iff] at hlabels
  push Not at hlabels
  obtain ⟨s, hs, hne⟩ := hlabels
  have hdedup := List.mem_dedup.mpr hs
  have hnone := sample_histogramLines_none (valid_of_observed h s hs) hne (count_ne_zero hdedup)
    ((Tally.under s (observed calls)).foldl add floatZero)
  rw [histogramLines_eq s (count_ne_zero hdedup)] at hnone
  refine ⟨_, ?_, hnone _ List.mem_cons_self⟩
  refine List.mem_append_right _ (List.mem_flatMap.mpr ⟨s, hdedup, ?_⟩)
  rw [histogramLines_eq s (count_ne_zero hdedup)]
  exact List.mem_cons_self

/-- **The export parses back** just when no histogram has labels. -/
theorem export_parses_iff (add : PyFloat → PyFloat → PyFloat) (calls : List MetricCall)
    (h : ∀ c ∈ calls, c.series.Valid) :
    (∃ samples, parse (exportPrometheus (run add calls)).toList = some samples ∧
      samples.Perm (recorded add calls)) ↔ UnlabelledHistograms calls := by
  rw [parse_export add h]
  constructor
  · rintro ⟨samples, hparse, -⟩
    by_contra hlabels
    -- a histogram with labels has a line that no reader takes
    obtain ⟨l, hl, hnone⟩ := exists_sample_eq_none add h hlabels
    rw [Traverse.mapM_eq_none ((lines_perm add h).symm.subset hl) hnone] at hparse
    cases hparse
  · intro hplain
    have hperm := (lines_perm add h).map sample
    rw [map_sample_recordedLines add h hplain] at hperm
    exact Traverse.mapM_perm hperm

/-- A counter with labels and a histogram without. -/
theorem export_parses_plain :
    let calls : List MetricCall :=
      [.increment "requests_total" (some (Table.ofList Prod.fst [("operation", "a \"b\"")])) 1,
        .observe "request_duration_seconds" floatZero none]
    ∃ samples, parse (exportPrometheus (run (fun x _ => x) calls)).toList = some samples ∧
      samples.Perm (recorded (fun x _ => x) calls) := by
  intro calls
  refine (export_parses_iff (fun x _ => x) calls ?_).mpr ?_
  · decide +kernel
  · intro name value labels hmem
    simp [calls] at hmem

/-- One observation with a label. -/
theorem export_labelled :
    let calls : List MetricCall := [.observe "request_duration_seconds" floatZero
      (some (Table.ofList Prod.fst [("operation", "handle")]))]
    (∀ c ∈ calls, c.series.Valid) ∧
      ¬ ∃ samples, parse (exportPrometheus (run (fun x _ => x) calls)).toList = some samples ∧
        samples.Perm (recorded (fun x _ => x) calls) := by
  intro calls
  have hread : parse (exportPrometheus (run (fun x _ => x) calls)).toList = none := by
    decide +kernel
  refine ⟨by decide +kernel, ?_⟩
  rintro ⟨samples, hsamples, -⟩
  rw [hread] at hsamples
  cases hsamples

/-- **Every export is rejected** once a request went through the middleware. -/
theorem parse_eq_none_of_request (add : PyFloat → PyFloat → PyFloat) {calls : List MetricCall}
    (h : ∀ c ∈ calls, c.series.Valid) {operation path : String} {ending : HandlerEnd}
    {duration : PyFloat}
    (hcalls : ∀ c ∈ prometheusCalls operation path ending duration, c ∈ calls) :
    parse (exportPrometheus (run add calls)).toList = none := by
  have hobserve : MetricCall.observe "request_duration_seconds" duration
      (some (prometheusLabels operation path)) ∈ calls :=
    hcalls _ (List.mem_append_right _ List.mem_cons_self)
  have hlabels : ¬ UnlabelledHistograms calls := by
    intro hplain
    have hrows := hplain _ _ _ hobserve
    rw [prometheusLabels, Table.rows_ofList (by simp)] at hrows
    cases hrows
  obtain ⟨l, hl, hnone⟩ := exists_sample_eq_none add h hlabels
  rw [parse_export add h, Traverse.mapM_eq_none ((lines_perm add h).symm.subset hl) hnone]

end Istos
