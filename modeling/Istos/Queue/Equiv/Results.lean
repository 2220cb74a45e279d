import Istos.Data.Traverse
import Istos.Queue.Equiv.Budget
import Istos.Queue.Equiv.Chord
import Istos.Queue.Equiv.Token
import Istos.Queue.Results

/-!
# What becomes of a result

A completed job keeps its record, across calls and restarts, until a sweep finds it past its TTL
(`run_kept`), and base64 loses nothing; so a result arrives as it was sent.  The exception is the
empty one: `_on_ack` and `_on_chord` read a payload as `payload or None`, and an empty payload is
none (`results_intact_iff`).
-/

namespace Istos

variable {T β : Type}

/-! ### The wire -/

theorem readResult_resultReply (state : JobState) (data : Option Bytes) :
    readResult (resultReply (some state) data) = some (state.value, data) := by
  cases data with
  | none => rfl
  | some data =>
    show (Base64.b64decode (Base64.b64encode data)).map (fun d => (state.value, some d)) = _
    rw [Base64.b64decode_b64encode]
    rfl

theorem encodeChars_eq_nil_iff {data : Bytes} : Base64.encodeChars data = [] ↔ data = [] := by
  cases data using Base64.encodeChars.induct <;> simp [Base64.encodeChars]

theorem b64encode_eq_empty_iff {data : Bytes} : Base64.b64encode data = "" ↔ data = [] := by
  rw [Base64.b64encode, ← encodeChars_eq_nil_iff, ← String.toList_eq_nil_iff, String.toList_ofList]

/-- Base64 is ASCII. -/
theorem decodeAscii_b64encode (data : Bytes) :
    decodeAscii (Utf8.encode (Base64.b64encode data)) = some (Base64.b64encode data) := by
  have hascii : ∀ c ∈ (Base64.b64encode data).toList, c.toNat < 128 := by
    intro c hc
    rw [Base64.b64encode, String.toList_ofList] at hc
    rcases Base64.mem_encodeChars hc with h | rfl
    · exact Base64.alphabet_ascii c h
    · decide
  have hall : (Utf8.encode (Base64.b64encode data)).all (fun b => b.toNat < 128) = true := by
    rw [List.all_eq_true]
    intro b hb
    obtain ⟨c, hc, hb⟩ := List.mem_flatMap.mp hb
    rw [Utf8.encodeChar, if_pos (hascii c hc), List.mem_singleton] at hb
    rw [hb, decide_eq_true_eq]
    have hlt := hascii c hc
    rw [Utf8.toNat_byte (by omega)]
    exact hlt
  rw [decodeAscii, if_pos hall, Utf8.decode_encode]

/-- The owner hands the store the base64 of a return, or nothing for an empty one. -/
theorem reportedResult_b64encode (data : Bytes) :
    reportedResult (Utf8.encode (Base64.b64encode data))
      = some (if data = [] then none else some (Base64.b64encode data)) := by
  rw [reportedResult, decodeAscii_b64encode, Option.map_some, orNone]
  by_cases h : data = []
  · rw [if_pos (b64encode_eq_empty_iff.mpr h), if_pos h]
  · rw [if_neg (mt b64encode_eq_empty_iff.mp h), if_neg h]

/-- The report of `_on_chord` is one of the store. -/
theorem onChord_eq [LinearOrder T] (s : QueueStore T) (params : Params) (payload : Bytes) (now : T)
    {result : Option String} (h : reportedResult payload = some result) :
    (onChord s params payload now).map (fun x => (x.1, x.2.2)) =
      some ((s.chordReport ((params.lookup "chord_id").getD "") (asInt params "index" 0)
        (asInt params "size" 1) result now).toOption.getD (s, none)) := by
  obtain ⟨text, htext, rfl⟩ := Option.map_eq_some_iff.mp h
  unfold onChord
  rw [htext, Option.map_some, Option.map_some]
  cases s.chordReport ((params.lookup "chord_id").getD "") (asInt params "index" 0)
    (asInt params "size" 1) (orNone text) now with
  | error e => rfl
  | ok x => rfl

/-- The completing worker holds the value of a member's return, unless that was empty. -/
theorem memberResults_getElem? (w : Worker β) {results : List (Option String)} {j : ℕ}
    {data : Bytes}
    (hj : results[j]? = some (if data = [] then none else some (Base64.b64encode data)))
    {value : β} (hvalue : w.serializer.deserialize data = some value) {members : List (Option β)}
    (hmembers : w.memberResults (.arr (results.map optJson)) = some members) :
    members[j]? = some (some value) ↔ data ≠ [] := by
  have hentry : (results.map optJson)[j]?
      = some (optJson (if data = [] then none else some (Base64.b64encode data))) := by
    rw [List.getElem?_map, hj, Option.map_some]
  rw [Traverse.getElem?_mapM hmembers hentry]
  by_cases h : data = []
  · rw [if_pos h]
    exact iff_of_false (by simp [optJson, Worker.memberResult]) (not_not.mpr h)
  · rw [if_neg h]
    refine iff_of_true ?_ h
    show (Base64.b64decode (Base64.b64encode data)).bind
      (fun d => (w.serializer.deserialize d).map some) = _
    rw [Base64.b64decode_b64encode, Option.bind_some, hvalue, Option.map_some]

/-! ### A completed job -/

variable [LinearOrder T] [Zero T] [Add T] {c : QueueConfig T}

/-- A completed record stays as it is, unless a sweep finds it past its TTL. -/
theorem Move.kept {id : String} {ev : Event T} {r : JobRecord T} {r?' : Option (JobRecord T)}
    (h : Move c id ev (some r) r?') (hdone : r.state = .done) (hadd : ev.effect id ≠ some .added)
    (young : ∀ now, ev.1 = .sweep now → now < r.completedAt + c.resultTtl) : r?' = some r := by
  have hleased : ∀ {op : Op T}, ¬ r.HeldBy op := by
    intro op held
    exact JobState.noConfusion (held.leased.symm.trans hdone)
  have haged : ∀ {now r'}, r.Aged now r' → r' = r := by
    rintro now r' (rfl | ⟨hx, -⟩)
    · rfl
    · exact JobState.noConfusion ((JobRecord.expired_iff.mp hx).1.symm.trans hdone)
  cases h with
  | stay _ quiet => rfl
  | lapsed quiet clock expired =>
    exact JobState.noConfusion ((JobRecord.expired_iff.mp expired).1.symm.trans hdone)
  | added _ seq add => exact absurd (Event.effect_add add) hadd
  | claimed clock aged claimable effect =>
    obtain rfl := haged aged
    exact JobState.noConfusion ((JobRecord.claimable_iff.mp claimable).1.symm.trans hdone)
  | completed res t held effect => exact absurd held hleased
  | forgotten held effect => exact absurd held hleased
  | buried error t held last effect => exact absurd held hleased
  | requeued error t held more effect => exact absurd held hleased
  | purged sweep aged old =>
    obtain rfl := haged aged
    rcases old with hstale | ⟨ttl, -, hdead, -⟩
    · exact absurd hstale.2 (not_le.mpr (young _ sweep))
    · exact JobState.noConfusion (hdead.symm.trans hdone)

/-- **A completed job is kept** through every run, until a sweep comes past its TTL. -/
theorem run_kept {b b' : Board T} {hist : List (Event T)} (h : Board.Run c b hist b') {id : String}
    {r : JobRecord T} (hr : b id = some r) (hdone : r.state = .done) (hid : id ∉ added hist)
    (young : ∀ now, .sweep now ∈ hist.map Prod.fst → now < r.completedAt + c.resultTtl) :
    b' id = some r := by
  induction h with
  | nil b => exact hr
  | @cons b b' b'' ev evs hs hrun ih =>
    have hstep := hs id
    rw [hr] at hstep
    have hkept : b' id = some r := by
      refine hstep.kept hdone (effect_ne_added hid) fun now hnow => ?_
      exact young now (by rw [List.map_cons, hnow]; exact List.mem_cons_self)
    rw [added_cons, List.mem_append, not_or] at hid
    exact ih hkept hid.2 fun now hnow => young now (List.mem_cons_of_mem _ hnow)

/-- An accepted ack with `keep_results` completes the record. -/
theorem ack_completes (keep : c.keepResults = true) {s : QueueStore T} {id : String}
    {res : Option Bytes} {attempt : Option ℤ} {now : T}
    (hacked : (s.perform c (.ack id res attempt now)).answer = .acked true) :
    ∃ r : JobRecord T, (s.perform c (.ack id res attempt now)).store.job id
      = some (r.complete res now) := by
  rcases ack_cases c s id res attempt now with ⟨-, h⟩ | ⟨r, hr, -, ⟨-, h⟩ | ⟨hdrop, -⟩⟩
  · have hanswer : (s.ack c id res attempt now).answer = true := Answer.acked.inj hacked
    rw [h] at hanswer
    cases hanswer
  · refine ⟨r, ?_⟩
    have hid : r.id = id := QueueStore.id_of_job hr
    show (s.ack c id res attempt now).store.job id = _
    rw [h]
    have hput := get?_put_eq_update s.jobs (r := r.complete res now) hid
    exact (congrFun hput id).trans (Function.update_self _ _ _)
  · rw [keep] at hdrop
    cases hdrop

omit [Add T] in
/-- What a result query about a completed job is answered with. -/
theorem onResult_complete {s : QueueStore T} {params : Params} {r : JobRecord T}
    {res : Option Bytes} {now : T} (h : s.job (queryJob params) = some (r.complete res now)) :
    (onResult s params).bind readResult = some ("done", res) := by
  have hget : s.jobs.get? ((params.lookup "job_id").getD "") = some (r.complete res now) := h
  unfold onResult QueueStore.result
  simp only [hget]
  cases res with
  | none => rfl
  | some data =>
    show ((((Base64.b64decode (Base64.b64encode data)).map
      fun d => (some JobState.done, some d)).map fun x => resultReply x.1 x.2).bind readResult) = _
    rw [Base64.b64decode_b64encode]
    exact readResult_resultReply .done (some data)

/-! ### Results -/

/-- **Results arrive intact exactly when they are not empty.**  With `keep_results`, after an
accepted ack with the payload `data`, through all calls and restarts that follow and until a sweep
comes past the TTL, a result query is answered `done` with `data` exactly when `data` is not empty.
In the result list that a chord's completing worker gets, the entry of a member is that of the first
report counted for it, and the worker makes the value of the return of it exactly when the return
was not empty. -/
theorem results_intact_iff (role : QueueRole T) (f : FloatText T)
    (keep : role.config.keepResults = true) :
    (∀ before after params params' data x op,
      role.op f .ack params data x = some op →
      ((Node.init.run role.config before).store.perform role.config op).answer = .acked true →
      queryJob params ∉ addedIds (after.filterMap NodeAction.op?) →
      (∀ now, .call (.sweep now) ∈ after → now < x.t₁ + role.config.resultTtl) →
      queryJob params' = queryJob params →
      ((onResult
          ((((Node.init.run role.config before).step role.config (.call op)).run role.config
            after).store) params').bind readResult = some ("done", some data) ↔ data ≠ [])) ∧
    ∀ chordId size (s : QueueStore T) calls, s.chords.get? chordId = none →
      ∀ firing ∈ s.firings role.config chordId size [] calls, ∀ j : ℕ, (j : ℤ) < size →
        ∃ q, firing.counted.find? (fun r => decide (r.index = (j : ℤ))) = some q ∧
          firing.results[j]? = some q.result ∧
          ∀ data, reportedResult (Utf8.encode (Base64.b64encode data)) = some q.result →
            ∀ (β : Type) (w : Worker β) value members, w.serializer.deserialize data = some value →
              w.memberResults (((chordReply (some firing.results)).get? "results").getD .null)
                = some members →
              (members[j]? = some (some value) ↔ data ≠ []) := by
  refine ⟨?_, ?_⟩
  · intro before after params params' data x op hop hacked hfresh hyoung hsame
    obtain rfl := Option.some.inj hop
    obtain ⟨r, hr⟩ := ack_completes keep hacked
    have hm := (Node.run_board role.config (n := Node.init) mirrors_init before).1
    let ack : Op T :=
      .ack (queryJob params) (if data = [] then none else some data) (fence params) x.t₁
    obtain ⟨-, hist, -, hops, hrun⟩ := Node.run_board role.config
      (n := (Node.init.run role.config before).step role.config (.call ack))
      (perform_mirrors role.config hm ack) after
    have hkept := run_kept hrun hr rfl (by rw [added, hops]; exact hfresh) (by
      intro now hnow
      rw [hops, List.mem_filterMap] at hnow
      obtain ⟨action, hmem, haction⟩ := hnow
      cases action with
      | restart clock => cases haction
      | call op' =>
        obtain rfl := Option.some.inj haction
        exact hyoung now hmem)
    rw [← queryJob, ← hsame] at hkept
    have hanswer := onResult_complete hkept
    refine (iff_of_eq (congrArg (· = some ("done", some data)) hanswer)).trans ?_
    -- an empty result is stored as no result
    by_cases h : data = []
    · rw [if_pos h]
      exact iff_of_false (by simp) (not_not.mpr h)
    · rw [if_neg h]
      exact iff_of_true rfl h
  · intro chordId size s calls hnone firing hfiring j hj
    have hcounts : CountsIn size ([] : List (Report T)) (s.chords.get? chordId) := by
      rw [hnone]
      rfl
    have hcorrect := firings_correct role.config chordId size calls hcounts firing hfiring
    obtain ⟨q₀, hq₀, hindex⟩ := hcorrect.complete.2 j (Int.natCast_nonneg j) hj
    cases hq : firing.counted.find? (fun r => decide (r.index = (j : ℤ))) with
    | none =>
      have hno := List.find?_eq_none.mp hq q₀ hq₀
      exact absurd (decide_eq_true hindex) hno
    | some q =>
      have hentry : firing.results[j]? = some q.result := by
        rw [hcorrect.entries j hj, firstResult, hq, Option.bind_some]
      refine ⟨q, rfl, hentry, fun data hdata β w value members hvalue hmembers => ?_⟩
      rw [reportedResult_b64encode, Option.some.injEq] at hdata
      rw [← hdata] at hentry
      exact memberResults_getElem? w hentry hvalue hmembers

/-- An owner that keeps results. -/
def keepingRole : QueueRole ℤ := ⟨"jobs", 10, 3, { QueueConfig.defaults with keepResults := true }⟩

/-- A job that is being worked on. -/
def workedJob : List (NodeAction ℤ) :=
  [.call (.add ⟨[], 3, 0, 0, none, none, none⟩ "a" 0 0 0), .call (.claim 0 10)]

theorem results_intact_byte :
    ((onResult
        ((((Node.init.run keepingRole.config workedJob).step keepingRole.config
          (.call (.ack "a" (some [7]) (some 1) 5))).run keepingRole.config
            [.restart fun _ => 6]).store) [("job_id", "a")]).bind readResult
          = some ("done", some [7]) ↔ ([7] : Bytes) ≠ []) :=
  (results_intact_iff keepingRole plainTimes rfl).1 workedJob [.restart fun _ => 6]
    [("job_id", "a"), ("attempt", "1")] [("job_id", "a")] [7] fencedReadings
    (.ack "a" (some [7]) (some 1) 5) (by decide) (by decide) (by decide)
    (by intro now h; simp at h) rfl

/-- An empty result is read as a missing one. -/
theorem result_empty_missing :
    keepingRole.op plainTimes .ack [("job_id", "a"), ("attempt", "1")] [] fencedReadings
        = some (.ack "a" none (some 1) 5) ∧
      ((Node.init.run keepingRole.config workedJob).store.perform keepingRole.config
        (.ack "a" none (some 1) 5)).answer = .acked true ∧
      (onResult ((Node.init.run keepingRole.config workedJob).step keepingRole.config
        (.call (.ack "a" none (some 1) 5))).store [("job_id", "a")]).bind readResult
          = some ("done", none) ∧
      reportedResult (Utf8.encode (Base64.b64encode [])) = some none := by
  refine ⟨by decide, by decide, ?_, by decide⟩
  rfl

end Istos
