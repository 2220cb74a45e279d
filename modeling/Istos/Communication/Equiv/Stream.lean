import Istos.Communication.Equiv.Persist

/-!
# The stream of one key

The samples of one key, of which the store carries out each put before the next sample comes, are
kept in the order in which they came: the counter of their positions goes on where the clock stands.
-/

namespace Istos

variable {B : Type}

/-! ### Paths -/

/-- The objects of a key lie below it, also where the key ends with slashes. -/
theorem rstripSlash_isPrefix (key : String) :
    (rstripSlash key).toList ++ ['/'] <+: key.toList ++ ['/'] := by
  let slashes := (key.toList.reverse.takeWhile fun c => decide (c = '/')).reverse
  have hsplit : key.toList = (rstripSlash key).toList ++ slashes := by
    have hreverse := congrArg List.reverse
      (List.takeWhile_append_dropWhile (p := fun c => decide (c = '/')) (l := key.toList.reverse))
    rw [List.reverse_append, List.reverse_reverse] at hreverse
    rw [rstripSlash, String.toList_ofList]
    exact hreverse.symm
  have hslashes : ∀ c ∈ slashes, c = '/' := by
    intro c hc
    have hmem : c ∈ key.toList.reverse.takeWhile fun c => decide (c = '/') := List.mem_reverse.mp hc
    have hslash := List.mem_takeWhile_imp (p := fun c => decide (c = '/')) hmem
    exact of_decide_eq_true hslash
  rw [hsplit, List.append_assoc, List.prefix_append_right_inj]
  cases hcase : slashes with
  | nil => exact List.prefix_rfl
  | cons c rest =>
    rw [hcase] at hslashes
    obtain rfl := hslashes c List.mem_cons_self
    exact List.cons_prefix_cons.mpr ⟨rfl, List.nil_prefix⟩

theorem startsWith_key (x : Sample B) :
    startsWith x.position (rstripSlash x.key ++ "/") = true := by
  rw [startsWith_iff, toList_slash, Sample.toList_position]
  exact (rstripSlash_isPrefix x.key).trans (List.prefix_append _ _)

/-- **The history of one key**, in memory. -/
theorem ObjectStore.history_of_key {log : List (Sample B × ℕ)} {key : String}
    (hkey : ∀ x ∈ log, x.1.key = key) (hasc : Cursor.Ascending (events log))
    (since : Option String) : (ofLog .memory log).history key since = match since with
      | none => events log
      | some p => (events log).filter fun x => decide (p < x.1) := by
  have hrows : (ofLog .memory log).objects.rows = events log := by
    have hid : (events log).map StoreKind.memory.object = events log := List.map_id _
    rw [ofLog, hid]
    exact Table.rows_ofList hasc.nodup
  have hall : (ofLog .memory log).objects.rows.filter
      (fun x => decide (x.1 = key) || startsWith x.1 (rstripSlash key ++ "/")) = events log := by
    rw [hrows, List.filter_eq_self]
    intro x hx
    obtain ⟨y, hy, rfl⟩ := List.mem_map.mp hx
    rw [Bool.or_eq_true, ← hkey y hy]
    exact Or.inr (startsWith_key y.1)
  have hkind : (ofLog .memory log).kind = StoreKind.memory := rfl
  unfold history
  rw [hkind]
  dsimp only
  rw [hall]
  exact Cursor.sort_eq (ascending_after hasc since) (List.Perm.refl _)

/-! ### A run of one key -/

namespace PersistRole

/-- What happens to a role that gets these samples of a key, each with the clock, and whose store
does not suspend. -/
def stream (key : String) (samples : List (B × ℕ)) : List (PersistOp B) :=
  samples.zipIdx.flatMap fun x => [.sample key x.1.1 x.1.2, .stored x.2]

/-- What it mints. -/
def streamed (key : String) (samples : List (B × ℕ)) : List (Sample B) :=
  samples.zipIdx.map fun x => ⟨key, x.1.1, x.1.2, x.2 + 1⟩

variable {key : String} {samples : List (B × ℕ)}

theorem streamed_concat (key : String) (samples : List (B × ℕ)) (x : B × ℕ) :
    streamed key (samples ++ [x]) =
      streamed key samples ++ [⟨key, x.1, x.2, samples.length + 1⟩] := by
  simp [streamed, List.zipIdx_append]

theorem length_streamed (key : String) (samples : List (B × ℕ)) :
    (streamed key samples).length = samples.length := by
  simp [streamed]

/-- The role after a stream. -/
theorem run_stream (key : String) (samples : List (B × ℕ)) :
    ∃ r, Steps.run step (init B .memory) (stream key samples) = some r ∧ r.seq = samples.length ∧
      r.minted = streamed key samples ∧ r.log = (streamed key samples).zipIdx := by
  induction samples using List.reverseRecOn with
  | nil => exact ⟨_, rfl, rfl, rfl, rfl⟩
  | append_singleton samples x ih =>
    obtain ⟨r, hrun, hseq, hminted, hlog⟩ := ih
    have hops : stream key (samples ++ [x]) =
        stream key samples ++ [.sample key x.1 x.2, .stored samples.length] := by
      simp [stream, List.zipIdx_append]
    let next : Sample B := ⟨key, x.1, x.2, samples.length + 1⟩
    have hlength : r.minted.length = samples.length := by rw [hminted, length_streamed]
    have hnew : samples.length ∉ r.log.map Prod.snd := by
      rw [hlog, List.zipIdx_map_snd, length_streamed, List.mem_range'_1]
      omega
    have hfound : (r.minted ++ [next])[samples.length]? = some next := by
      rw [← hlength, List.getElem?_concat_length]
    let r' : PersistRole B := ⟨r.store.put next.position x.1, r.seq + 1, r.minted ++ [next],
      r.log ++ [(next, samples.length)]⟩
    have hstep : Steps.run step r [.sample key x.1 x.2, .stored samples.length] = some r' := by
      refine Steps.run_cons_eq_some.mpr ⟨_, rfl, Steps.run_cons_eq_some.mpr ⟨r', ?_, rfl⟩⟩
      rw [step]
      dsimp only
      rw [if_neg hnew, hseq, hfound]
      simp only [Option.map_some, r', next, hseq]
    refine ⟨r', ?_, by simp [r', hseq], ?_, ?_⟩
    · rw [hops]
      exact Steps.run_append_eq_some hrun hstep
    · rw [streamed_concat]
      exact congrArg (· ++ [next]) hminted
    · rw [streamed_concat, List.zipIdx_append, length_streamed, Nat.zero_add]
      exact congrArg (· ++ [(next, samples.length)]) hlog

theorem events_zipIdx (samples : List (Sample B)) :
    events samples.zipIdx = samples.map fun x => (x.position, x.payload) := by
  have hfst : events samples.zipIdx =
      (samples.zipIdx.map Prod.fst).map fun x => (x.position, x.payload) := by
    rw [List.map_map]
    rfl
  rw [hfst, List.zipIdx_map_fst]

/-- The positions of a stream ascend. -/
theorem streamed_ascending (hclock : (samples.map Prod.snd).Pairwise (· ≤ ·))
    (hbelow : ∀ x ∈ samples, x.2 < 10 ^ 13) (hcount : samples.length < 10 ^ 12) :
    Cursor.Ascending ((streamed key samples).map fun x => (x.position, x.payload)) := by
  have hclock' : samples.zipIdx.Pairwise fun x y => x.1.2 ≤ y.1.2 := by
    have hmap : samples.zipIdx.map (fun x => x.1.2) = samples.map Prod.snd := by
      have hfst : samples.zipIdx.map (fun x => x.1.2) =
          (samples.zipIdx.map Prod.fst).map Prod.snd := by
        rw [List.map_map]
        rfl
      rw [hfst, List.zipIdx_map_fst]
    rw [← hmap] at hclock
    exact List.pairwise_map.mp hclock
  have hcounter : samples.zipIdx.Pairwise fun x y => x.2 < y.2 := by
    have hindices : (samples.zipIdx.map Prod.snd).Pairwise (· < ·) := by
      rw [List.zipIdx_map_snd]
      exact List.pairwise_lt_range'
    exact List.pairwise_map.mp hindices
  have hfits : ∀ x ∈ samples.zipIdx,
      (⟨key, x.1.1, x.1.2, x.2 + 1⟩ : Sample B).Fits := by
    intro x hx
    have hget := List.mem_zipIdx_iff_getElem?.mp hx
    have hindex := (List.getElem?_eq_some_iff.mp hget).1
    have hmillis := hbelow x.1 (List.mem_of_getElem? hget)
    unfold Sample.Fits
    dsimp only
    omega
  refine List.pairwise_map.mpr (List.pairwise_map.mpr ?_)
  refine (hclock'.and hcounter).imp_of_mem fun {x y} hx hy hxy => ?_
  refine Sample.position_lt_iff.mpr ?_
  rw [Sample.Before, if_pos rfl, Sample.StampBefore, if_pos ⟨hfits x hx, hfits y hy⟩]
  dsimp only
  omega

/-- **A stream keeps its order**: the positions that are minted are distinct, the history of the key
is what was persisted, in order, and the history since a position what was persisted after it. -/
theorem stream_in_order (key : String) (samples : List (B × ℕ))
    (hclock : (samples.map Prod.snd).Pairwise (· ≤ ·)) (hbelow : ∀ x ∈ samples, x.2 < 10 ^ 13)
    (hcount : samples.length < 10 ^ 12) :
    ∃ r, Steps.run step (init B .memory) (stream key samples) = some r ∧
      r.minted.map Sample.payload = samples.map Prod.fst ∧
      (r.minted.map Sample.position).Nodup ∧
      (r.store.history key none).map Prod.snd = samples.map Prod.fst ∧
      ∀ i x, r.minted[i]? = some x → r.store.history key (some x.position) =
        (r.minted.map fun y => (y.position, y.payload)).drop (i + 1) := by
  obtain ⟨r, hrun, -, hminted, hlog⟩ := run_stream key samples
  have hpayloads : r.minted.map Sample.payload = samples.map Prod.fst := by
    rw [hminted, streamed, List.map_map]
    have hfst : samples.zipIdx.map ((fun x => x.payload) ∘
        fun x : (B × ℕ) × ℕ => (⟨key, x.1.1, x.1.2, x.2 + 1⟩ : Sample B)) =
          (samples.zipIdx.map Prod.fst).map Prod.fst := by
      rw [List.map_map]
      rfl
    exact hfst.trans (by rw [List.zipIdx_map_fst])
  have hevents : events r.log = r.minted.map fun y => (y.position, y.payload) := by
    rw [hlog, hminted, events_zipIdx]
  have hasc : Cursor.Ascending (events r.log) := by
    rw [hevents, hminted]
    exact streamed_ascending hclock hbelow hcount
  have hkey : ∀ x ∈ r.log, x.1.key = key := by
    intro x hx
    rw [hlog] at hx
    have hmem := List.mem_of_getElem? (List.mem_zipIdx_iff_getElem?.mp hx)
    obtain ⟨y, -, hy⟩ := List.mem_map.mp hmem
    rw [← hy]
  have hhistory := ObjectStore.history_of_key hkey hasc
  have hstore := (recorded_run hrun).store
  refine ⟨r, hrun, hpayloads, ?_, ?_, fun i x hx => ?_⟩
  · have hnodup := hasc.nodup
    rw [hevents, List.map_map] at hnodup
    exact hnodup
  · rw [hstore, hhistory none, hevents, List.map_map]
    exact hpayloads
  · rw [hstore, hhistory (some x.position), ← hevents]
    refine Cursor.filter_lt_eq_drop hasc (x := (x.position, x.payload)) ?_
    rw [hevents, List.getElem?_map, hx, Option.map_some]

/-- Two samples of one millisecond, and a later one. -/
theorem stream_in_order_created :
    ∃ r, Steps.run step (init String .memory)
        (stream "orders/created" [("a", 5), ("b", 5), ("c", 7)]) = some r ∧
      (r.store.history "orders/created" none).map Prod.snd = ["a", "b", "c"] ∧
      r.store.history "orders/created" (some "orders/created/0000000000005-000000000001") =
        [("orders/created/0000000000005-000000000002", "b"),
          ("orders/created/0000000000007-000000000003", "c")] := by
  obtain ⟨r, hrun, -, -, hall, hafter⟩ := stream_in_order "orders/created"
    [("a", 5), ("b", 5), ("c", 7)] (by decide) (by decide) (by decide)
  have hrun' : Steps.run step (init String .memory)
      (stream "orders/created" [("a", 5), ("b", 5), ("c", 7)]) = some _ := rfl
  obtain rfl := Option.some.inj (hrun.symm.trans hrun')
  have hfirst := hafter 0 ⟨"orders/created", "a", 5, 1⟩ rfl
  have hposition : (⟨"orders/created", "a", 5, 1⟩ : Sample String).position =
      "orders/created/0000000000005-000000000001" := by decide +kernel
  rw [hposition] at hfirst
  refine ⟨_, hrun, hall, hfirst.trans ?_⟩
  decide +kernel

end PersistRole

end Istos
