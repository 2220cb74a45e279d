import Istos.Communication.Persist
import Istos.Data.Lasts
import Istos.Data.Lex
import Mathlib.Data.List.DropRight

/-!
# Replaying the log from a cursor

Positions are compared as texts.  A cursor resumes exactly, throughout a run, just when the store
gets the matching samples in the order in which they came, the position of each is before that of
the next, and the selector meets them all (`replays_exactly_iff`).  `Sample.position_lt_iff` says
when it is: for samples of one key, when clock and counter go on; for samples of different keys it
is a matter of the keys.
-/

namespace Istos

variable {B : Type}

/-! ### The order of positions -/

namespace Sample

variable {x y : Sample B}

/-- The clock and the counter fit into their widths. -/
def Fits (x : Sample B) : Prop := 0 ≤ x.millis ∧ x.millis < 10 ^ 13 ∧ x.seq < 10 ^ 12

instance : Decidable x.Fits := inferInstanceAs (Decidable (_ ∧ _))

/-- `<millis>-<seq>` of the one is before that of the other: as numbers where they fit. -/
def StampBefore (x y : Sample B) : Prop :=
  if x.Fits ∧ y.Fits then x.millis < y.millis ∨ x.millis = y.millis ∧ x.seq < y.seq
  else x.stamp < y.stamp

/-- One of two keys is above the other. -/
def Nested (k k' : String) : Prop :=
  k.toList ++ ['/'] <+: k'.toList ++ ['/'] ∨ k'.toList ++ ['/'] <+: k.toList ++ ['/']

instance (k k' : String) : Decidable (Nested k k') := inferInstanceAs (Decidable (_ ∨ _))

/-- The one is before the other in the log: samples of one key by their stamps, samples of keys of
which neither is above the other by the texts of these keys. -/
def Before (x y : Sample B) : Prop :=
  if x.key = y.key then x.StampBefore y
  else if Nested x.key y.key then x.position < y.position
  else x.key.toList ++ ['/'] < y.key.toList ++ ['/']

instance : Decidable (x.StampBefore y) :=
  inferInstanceAs (Decidable (if x.Fits ∧ y.Fits then
    x.millis < y.millis ∨ x.millis = y.millis ∧ x.seq < y.seq else x.stamp < y.stamp))

instance : Decidable (x.Before y) :=
  inferInstanceAs (Decidable (if x.key = y.key then x.StampBefore y
    else if Nested x.key y.key then x.position < y.position
    else x.key.toList ++ ['/'] < y.key.toList ++ ['/']))

theorem stamp_eq (h : x.Fits) :
    x.stamp = Decimal.zeros 13 x.millis.toNat ++ '-' :: Decimal.zeros 12 x.seq := by
  have hmillis : x.millis = Int.ofNat x.millis.toNat := (Int.toNat_of_nonneg h.1).symm
  rw [stamp, hmillis]
  rfl

theorem stamp_lt_iff : x.stamp < y.stamp ↔ x.StampBefore y := by
  unfold StampBefore
  by_cases h : x.Fits ∧ y.Fits
  · obtain ⟨hx, hy⟩ := h
    rw [if_pos ⟨hx, hy⟩, stamp_eq hx, stamp_eq hy]
    obtain ⟨hx0, hx1, hx2⟩ := hx
    obtain ⟨hy0, hy1, hy2⟩ := hy
    have hmx : x.millis.toNat < 10 ^ 13 := by omega
    have hmy : y.millis.toNat < 10 ^ 13 := by omega
    have hlen : (Decimal.zeros 13 x.millis.toNat).length =
      (Decimal.zeros 13 y.millis.toNat).length :=
      (Decimal.length_zeros (by decide) hmx).trans (Decimal.length_zeros (by decide) hmy).symm
    rw [Lex.append_lt_append hlen, Lex.cons_lt_cons, Decimal.zeros_lt_zeros (by decide) hmx hmy,
      Decimal.zeros_inj (by decide) hmx hmy, Decimal.zeros_lt_zeros (by decide) hx2 hy2]
    simp only [lt_irrefl, true_and, false_or]
    omega
  · rw [if_neg h]

theorem toList_position (x : Sample B) : x.position.toList = x.key.toList ++ ['/'] ++ x.stamp := by
  have htext : x.position.toList = x.key.toList ++ ['/'] ++ (String.ofList x.stamp).toList := by
    rw [position, String.toList_append, String.toList_append]
    rfl
  rw [htext, String.toList_ofList]

/-- **Positions** are ordered as the samples are. -/
theorem position_lt_iff : x.position < y.position ↔ x.Before y := by
  unfold Before
  by_cases hkey : x.key = y.key
  · rw [if_pos hkey, String.lt_iff_toList_lt, toList_position, toList_position, hkey,
      Lex.append_lt_append_left, stamp_lt_iff]
  rw [if_neg hkey]
  by_cases hnested : Nested x.key y.key
  · rw [if_pos hnested]
  · rw [if_neg hnested, String.lt_iff_toList_lt, toList_position, toList_position,
      Lex.append_lt_append_of_not_isPrefix (fun h => hnested (.inl h)) fun h => hnested (.inr h)]

theorem not_slash_mem_stamp (x : Sample B) : '/' ∉ x.stamp := by
  intro h
  rcases List.mem_append.mp h with hm | hrest
  · rcases Decimal.mem_padded hm with hdigit | hminus
    · exact absurd hdigit (by decide)
    · exact absurd hminus (by decide)
  · rcases List.mem_cons.mp hrest with hminus | hq
    · exact absurd hminus (by decide)
    · rcases Decimal.mem_padded hq with hdigit | hminus
      · exact absurd hdigit (by decide)
      · exact absurd hminus (by decide)

/-- The sample's key is the path or below it. -/
def Matches (path : String) (x : Sample B) : Prop :=
  x.key = path ∨ startsWith x.key (path ++ "/") = true

instance (path : String) : Decidable (x.Matches path) := inferInstanceAs (Decidable (_ ∨ _))

end Sample

/-! ### Paths -/

theorem startsWith_iff {s start : String} :
    startsWith s start = true ↔ start.toList <+: s.toList := List.isPrefixOf_iff_prefix

theorem toList_slash (s : String) : (s ++ "/").toList = s.toList ++ ['/'] := by
  rw [String.toList_append]
  rfl

/-- The objects below a path are the samples at it and below it. -/
theorem startsWith_position {path : String} {x : Sample B} :
    startsWith x.position (path ++ "/") = true ↔ x.Matches path := by
  rw [startsWith_iff, Sample.Matches, startsWith_iff, toList_slash, Sample.toList_position]
  constructor
  · intro h
    rcases List.prefix_or_prefix_of_prefix h (List.prefix_append _ x.stamp) with hle | hge
    · rcases List.prefix_concat_iff.mp hle with heq | hbelow
      · have hlist : path.toList = x.key.toList := List.append_cancel_right heq
        exact .inl (String.toList_inj.mp hlist.symm)
      · exact .inr hbelow
    · rcases List.prefix_concat_iff.mp hge with heq | hbelow
      · have hlist : x.key.toList = path.toList := List.append_cancel_right heq
        exact .inl (String.toList_inj.mp hlist)
      · -- then a slash would stand in the stamp
        obtain ⟨rest, hrest⟩ := hbelow
        rw [← hrest, List.append_assoc, List.prefix_append_right_inj] at h
        refine absurd (h.subset (List.mem_append_right _ List.mem_cons_self)) ?_
        exact x.not_slash_mem_stamp
  · rintro (rfl | hbelow)
    · exact List.prefix_append _ _
    · exact (hbelow.trans (List.prefix_append _ _)).trans (List.prefix_append _ _)

theorem rstripSlash_slash (s : String) : rstripSlash (rstripSlash s ++ "/") = rstripSlash s := by
  rw [rstripSlash, toList_slash, rstripSlash, String.toList_ofList, List.reverse_append,
    List.reverse_reverse, List.reverse_singleton, List.singleton_append,
    List.dropWhile_cons_of_pos (by decide), List.dropWhile_idempotent]

theorem rstripSlash_rstripSlash (s : String) : rstripSlash (rstripSlash s) = rstripSlash s := by
  rw [rstripSlash, rstripSlash, String.toList_ofList, List.reverse_reverse,
    List.dropWhile_idempotent]

/-- A key expression without wildcards: chunks of which none is empty. -/
def KeyPath (path : String) : Prop :=
  PlainKey path ∧ ∀ chunk ∈ path.toList.splitOn '/', chunk ≠ []

/-- What Zenoh documents of the selector of a replay: the parameters stand behind the question mark,
and two stars are also no chunk at all. -/
structure Zenoh.Lists (z : Zenoh) : Prop where
  all : ∀ path, KeyPath path → z.parse (path ++ "/**") = some (path ++ "/**", [])
  since : ∀ path v, KeyPath path → Percent.IsQuoted v →
    z.parse (path ++ "/**" ++ "?_since=" ++ v) = some (path ++ "/**", [("_since", v)])
  self : ∀ path, KeyPath path → z.intersects (path ++ "/**") path = true

theorem rstripSlash_takeWhile {path : String} (hpath : PlainKey (rstripSlash path)) :
    rstripSlash (String.ofList ((rstripSlash path ++ "/**").toList.takeWhile
      fun c => decide (c ≠ '*'))) = rstripSlash path := by
  have hstar : ∀ c ∈ (rstripSlash path).toList, decide (c ≠ '*') = true := by
    intro c hc
    refine decide_eq_true fun heq => hpath c hc ?_
    rw [heq]
    decide
  have htake : (rstripSlash path ++ "/**").toList.takeWhile (fun c => decide (c ≠ '*'))
      = (rstripSlash path ++ "/").toList := by
    rw [String.toList_append, toList_slash, List.takeWhile_append_of_pos hstar]
    rfl
  rw [htake, String.ofList_toList, rstripSlash_slash]

/-- What a replay comes down to. -/
theorem PersistRole.replay_eq {z : Zenoh} (hz : z.Lists) {path : String}
    (hpath : KeyPath (rstripSlash path)) (r : PersistRole B) (arrival : Arrival B)
    (since : Option String) : r.replay z arrival path since =
      some (Cursor.sort (arrival.order ((r.store.history (rstripSlash path) since).takeWhile
        fun x => z.intersects (rstripSlash path ++ "/**") x.1))) := by
  unfold replay replaySelector
  cases since with
  | none =>
    dsimp only
    rw [hz.all _ hpath, Option.map_some, replies, answer, rstripSlash_takeWhile hpath.1]
    rfl
  | some p =>
    dsimp only
    rw [hz.since _ _ hpath (Percent.isQuoted_quote p), Option.map_some, replies, answer,
      rstripSlash_takeWhile hpath.1]
    have hread : PersistRole.readSince [("_since", Percent.quote p)] = some p := by
      show some (Percent.unquoteText (Percent.quote p)) = some p
      rw [Percent.unquoteText_quote]
    rw [hread]

/-! ### Object keys -/

namespace StoreKind

variable {kind : StoreKind}

/-- What an object key begins with. -/
def start : StoreKind → List Char
  | memory => []
  | s3 root => if root = "" then [] else root.toList ++ ['/']

theorem toList_objectKey (kind : StoreKind) (key : String) :
    (kind.objectKey key).toList = kind.start ++ key.toList := by
  cases kind with
  | memory => rfl
  | s3 root =>
    show (if root = "" then key else root ++ "/" ++ key).toList =
      (if root = "" then [] else root.toList ++ ['/']) ++ key.toList
    by_cases hroot : root = ""
    · rw [if_pos hroot, if_pos hroot]
      rfl
    · rw [if_neg hroot, if_neg hroot, String.toList_append, toList_slash]

theorem objectKey_lt {a b : String} : kind.objectKey a < kind.objectKey b ↔ a < b := by
  rw [String.lt_iff_toList_lt, toList_objectKey, toList_objectKey, Lex.append_lt_append_left,
    String.lt_iff_toList_lt]

theorem objectKey_inj {a b : String} : kind.objectKey a = kind.objectKey b ↔ a = b := by
  rw [← String.toList_inj, toList_objectKey, toList_objectKey, List.append_cancel_left_eq,
    String.toList_inj]

theorem startsWith_objectKey {a b : String} :
    startsWith (kind.objectKey a) (kind.objectKey b) = startsWith a b := by
  rw [Bool.eq_iff_iff, startsWith_iff, startsWith_iff, toList_objectKey, toList_objectKey,
    List.prefix_append_right_inj]

/-- A listed key without the store's own path. -/
def strip (root key : String) : String :=
  String.ofList (key.toList.drop
    (if root = "" then 0 else ((StoreKind.s3 root).objectKey "").length))

theorem strip_eq (root key : String) :
    strip root key = String.ofList (key.toList.drop (s3 root).start.length) := by
  unfold strip
  by_cases hroot : root = ""
  · rw [if_pos hroot, start, if_pos hroot]
    rfl
  · rw [if_neg hroot, ← String.length_toList, toList_objectKey, String.toList_empty,
      List.append_nil]

theorem strip_objectKey (root key : String) : strip root ((s3 root).objectKey key) = key := by
  rw [strip_eq, toList_objectKey, List.drop_left, String.ofList_toList]

/-- What begins with an object key is one. -/
theorem objectKey_strip {root key listing : String}
    (h : startsWith key ((s3 root).objectKey listing) = true) :
    (s3 root).objectKey (strip root key) = key := by
  obtain ⟨rest, hrest⟩ := startsWith_iff.mp h
  rw [toList_objectKey, List.append_assoc] at hrest
  rw [← String.toList_inj, toList_objectKey, strip_eq, String.toList_ofList, ← hrest,
    List.drop_left]

end StoreKind

/-! ### What a store lists -/

/-- What a replay yields of samples. -/
def events (samples : List (Sample B × ℕ)) : List (String × B) :=
  samples.map fun x => (x.1.position, x.1.payload)

/-- An event under its object key. -/
def StoreKind.object (kind : StoreKind) (x : String × B) : String × B := (kind.objectKey x.1, x.2)

/-- The store that has got some samples. -/
def ObjectStore.ofLog (kind : StoreKind) (log : List (Sample B × ℕ)) : ObjectStore B :=
  ⟨kind, Table.ofList Prod.fst ((events log).map kind.object)⟩

/-- The samples at a path and below it. -/
def matching (path : String) (samples : List (Sample B × ℕ)) : List (Sample B × ℕ) :=
  samples.filter fun x => decide (x.1.Matches path)

namespace ObjectStore

variable {kind : StoreKind} {log : List (Sample B × ℕ)} {path : String}

theorem mem_object {x : String × B} : x ∈ (events log).map kind.object ↔
    ∃ y ∈ log, (kind.objectKey y.1.position, y.1.payload) = x := by
  rw [events, List.map_map, List.mem_map]
  rfl

/-- Where no two matching samples have one position, what is under a test that the matching samples
pass are these. -/
theorem rows_perm (test : String → Bool)
    (hnodup : ((events (matching path log)).map Prod.fst).Nodup)
    (htest : ∀ x ∈ log, test (kind.objectKey x.1.position) = true ↔ x.1.Matches path) :
    ((ofLog kind log).objects.rows.filter fun x => test x.1).Perm
      ((events (matching path log)).map kind.object) := by
  have hfilter : ((events log).map kind.object).filter (fun x => test x.1) =
      (events (matching path log)).map kind.object := by
    rw [events, events, matching, List.map_map, List.map_map, List.filter_map]
    refine congrArg (List.map _) (List.filter_congr fun x hx => ?_)
    rw [Bool.eq_iff_iff, decide_eq_true_eq]
    exact htest x hx
  have hkeys : (((events (matching path log)).map kind.object).map Prod.fst).Nodup := by
    rw [List.map_map]
    have hcomp : (events (matching path log)).map (Prod.fst ∘ kind.object) =
        ((events (matching path log)).map Prod.fst).map kind.objectKey := by
      rw [List.map_map]
      rfl
    rw [hcomp]
    exact hnodup.map fun a b h => StoreKind.objectKey_inj.mp h
  rw [← hfilter] at hkeys ⊢
  have hrows : ((ofLog kind log).objects.rows.filter fun x => test x.1).Nodup :=
    (List.Nodup.of_map Prod.fst (ofLog kind log).objects.nodup).filter _
  rw [List.perm_ext_iff_of_nodup hrows (List.Nodup.of_map Prod.fst hkeys)]
  intro x
  rw [List.mem_filter, List.mem_filter]
  refine and_congr_left fun hx => ?_
  exact Table.mem_rows_ofList hkeys hx

/-- Ascending events after a cursor. -/
theorem ascending_after {l : List (String × B)} (h : Cursor.Ascending l) (since : Option String) :
    Cursor.Ascending (match since with
      | none => l
      | some p => l.filter fun x => decide (p < x.1)) := by
  cases since with
  | none => exact h
  | some p => exact List.Pairwise.filter _ h

/-- **The history** of an ascending log is what lies after the cursor. -/
theorem history_eq (hpath : rstripSlash path = path)
    (hasc : Cursor.Ascending (events (matching path log)))
    (hfree : kind = .memory → ∀ x ∈ log, x.1.position ≠ path) (since : Option String) :
    (ofLog kind log).history path since = match since with
      | none => events (matching path log)
      | some p => (events (matching path log)).filter fun x => decide (p < x.1) := by
  cases kind with
  | memory =>
    -- no object is the path itself, so the listing is what lies below it
    have htest : ∀ x ∈ log, (decide (StoreKind.memory.objectKey x.1.position = path) ||
        startsWith (StoreKind.memory.objectKey x.1.position) (path ++ "/")) = true ↔
          x.1.Matches path := by
      intro x hx
      rw [Bool.or_eq_true, decide_eq_true_eq]
      exact (or_iff_right (hfree rfl x hx)).trans startsWith_position
    have hperm := rows_perm (fun k => decide (k = path) || startsWith k (path ++ "/"))
      hasc.nodup htest
    have hid : (events (matching path log)).map StoreKind.memory.object =
        events (matching path log) := List.map_id _
    rw [hid] at hperm
    unfold history
    dsimp only [ofLog]
    rw [hpath]
    refine Cursor.sort_eq (ascending_after hasc since) ?_
    cases since with
    | none => exact hperm
    | some p => exact hperm.filter _
  | s3 root =>
    have htest : ∀ x ∈ log, startsWith ((StoreKind.s3 root).objectKey x.1.position)
        ((StoreKind.s3 root).objectKey (path ++ "/")) = true ↔ x.1.Matches path := by
      intro x _
      rw [StoreKind.startsWith_objectKey]
      exact startsWith_position
    have hperm := rows_perm (fun k => startsWith k ((StoreKind.s3 root).objectKey (path ++ "/")))
      hasc.nodup htest
    -- the root before every key keeps the order, and is stripped again
    have hobjects : ∀ l : List (String × B), Cursor.Ascending l →
        Cursor.Ascending (l.map (StoreKind.s3 root).object) := fun l hl =>
      List.pairwise_map.mpr (hl.imp fun h => StoreKind.objectKey_lt.mpr h)
    have hstrip : ∀ l : List (String × B), (l.map (StoreKind.s3 root).object).map
        (fun x => (StoreKind.strip root x.1, x.2)) = l := by
      intro l
      rw [List.map_map]
      refine (List.map_congr_left fun x _ => ?_).trans (List.map_id l)
      exact Prod.ext (StoreKind.strip_objectKey root x.1) rfl
    unfold history
    dsimp only [ofLog]
    rw [hpath]
    have hlisted : ∀ listed : List (String × B), listed.Perm ((match since with
        | none => events (matching path log)
        | some p => (events (matching path log)).filter fun x => decide (p < x.1)).map
          (StoreKind.s3 root).object) →
        (Cursor.sort listed).map (fun x => (StoreKind.strip root x.1, x.2)) = match since with
          | none => events (matching path log)
          | some p => (events (matching path log)).filter fun x => decide (p < x.1) := by
      intro listed hl
      rw [Cursor.sort_eq (hobjects _ (ascending_after hasc since)) hl, hstrip]
    refine hlisted _ ?_
    cases since with
    | none => exact hperm
    | some p =>
      have hcut : ((events (matching path log)).filter fun x => decide (p < x.1)).map
          (StoreKind.s3 root).object = ((events (matching path log)).map
            (StoreKind.s3 root).object).filter
              fun x => decide ((StoreKind.s3 root).objectKey p < x.1) := by
        rw [List.filter_map]
        refine congrArg (List.map _) (List.filter_congr fun x _ => ?_)
        exact decide_eq_decide.mpr StoreKind.objectKey_lt.symm
      dsimp only
      rw [hcut]
      exact hperm.filter _

/-- No two objects of a history have one key. -/
theorem nodup_history (s : ObjectStore B) (since : Option String) :
    ((s.history path since).map Prod.fst).Nodup := by
  have hsort : ∀ l : List (String × B), l.Sublist s.objects.rows →
      ((Cursor.sort l).map Prod.fst).Nodup := fun l hl =>
    ((Cursor.perm_sort l).map Prod.fst).nodup_iff.mpr (s.objects.nodup.sublist (hl.map Prod.fst))
  unfold history
  cases s.kind with
  | memory =>
    dsimp only
    refine hsort _ ?_
    cases since with
    | none => exact List.filter_sublist
    | some p => exact List.filter_sublist.trans List.filter_sublist
  | s3 root =>
    dsimp only
    have hlisted : ∀ listed : List (String × B), listed.Sublist (s.objects.rows.filter fun x =>
        startsWith x.1 ((StoreKind.s3 root).objectKey (rstripSlash path ++ "/"))) →
        (((Cursor.sort listed).map fun x => (StoreKind.strip root x.1,
            x.2)).map Prod.fst).Nodup := by
      intro listed hl
      have hkeys := hsort listed (hl.trans List.filter_sublist)
      have hcomp : ((Cursor.sort listed).map fun x => (StoreKind.strip root x.1,
          x.2)).map Prod.fst =
          ((Cursor.sort listed).map Prod.fst).map (StoreKind.strip root) := by
        rw [List.map_map, List.map_map]
        rfl
      rw [hcomp]
      have hback : ∀ k ∈ (Cursor.sort listed).map Prod.fst,
          (StoreKind.s3 root).objectKey (StoreKind.strip root k) = k := by
        intro k hk
        obtain ⟨x, hx, rfl⟩ := List.mem_map.mp hk
        have hmem := hl.subset ((Cursor.perm_sort listed).mem_iff.mp hx)
        exact StoreKind.objectKey_strip (List.mem_filter.mp hmem).2
      refine List.Nodup.map_on ?_ hkeys
      intro a ha b hb hab
      rw [← hback a ha, ← hback b hb, hab]
    refine hlisted _ ?_
    cases since with
    | none => exact List.Sublist.refl _
    | some p => exact List.filter_sublist

/-- An object whose key is the path is listed in memory. -/
theorem mem_history_memory {x : Sample B × ℕ} (hx : x ∈ log) (hpath : x.1.position = path) :
    path ∈ ((ofLog .memory log).history path none).map Prod.fst := by
  have hkey : path ∈ (ofLog .memory log).objects.keys := by
    refine Table.mem_keys_ofList.mpr ?_
    rw [List.mem_map]
    exact ⟨(path, x.1.payload), mem_object.mpr ⟨x, hx, Prod.ext hpath rfl⟩, rfl⟩
  obtain ⟨y, hy, hname⟩ := List.mem_map.mp hkey
  refine List.mem_map.mpr ⟨y, ?_, hname⟩
  show y ∈ Cursor.sort _
  rw [(Cursor.perm_sort _).mem_iff, List.mem_filter]
  exact ⟨hy, by rw [hname, decide_eq_true rfl, Bool.true_or]⟩

/-- What is listed in memory is at the path or a matching sample. -/
theorem of_mem_history_memory {x : String × B} (hpath : rstripSlash path = path)
    (hx : x ∈ (ofLog .memory log).history path none) :
    x.1 = path ∨ ∃ y ∈ matching path log, y.1.position = x.1 := by
  unfold history at hx
  dsimp only [ofLog] at hx
  rw [(Cursor.perm_sort _).mem_iff, List.mem_filter, hpath, Bool.or_eq_true,
    decide_eq_true_eq] at hx
  obtain ⟨hrow, heq | hbelow⟩ := hx
  · exact .inl heq
  · obtain ⟨y, hy, rfl⟩ := mem_object.mp
      ((Table.lasts_sublist _).subset (Table.mem_ofList_iff.mp hrow))
    exact .inr ⟨y, List.mem_filter.mpr ⟨hy, decide_eq_true (startsWith_position.mp hbelow)⟩, rfl⟩

end ObjectStore

/-! ### Runs of a role -/

namespace PersistRole

/-- The samples that the store has got at a path and below it, in the order in which they came. -/
def published (path : String) (r : PersistRole B) : List (Sample B × ℕ) :=
  r.minted.zipIdx.filter fun x => decide (x.1.Matches path) && decide (x.2 ∈ r.log.map Prod.snd)

/-- The store has what was logged, and every sample was logged once. -/
structure Recorded (kind : StoreKind) (r : PersistRole B) : Prop where
  store : r.store = .ofLog kind r.log
  minted : ∀ x ∈ r.log, r.minted[x.2]? = some x.1
  nodup : (r.log.map Prod.snd).Nodup

/-- Nothing of a role is forgotten. -/
structure Extends (r r' : PersistRole B) : Prop where
  minted : r.minted <+: r'.minted
  log : r.log <+: r'.log

variable {kind : StoreKind} {r r' : PersistRole B} {ops : List (PersistOp B)} {path : String}

theorem recorded_init : Recorded kind (init B kind) :=
  ⟨rfl, fun _ hx => absurd hx List.not_mem_nil, List.nodup_nil⟩

theorem Recorded.step {op : PersistOp B} (h : Recorded kind r) (hstep : r.step op = some r') :
    Recorded kind r' := by
  cases op with
  | sample key payload millis =>
    obtain rfl := Option.some.inj hstep
    refine ⟨h.store, fun x hx => ?_, h.nodup⟩
    have hold := h.minted x hx
    have hlt := (List.getElem?_eq_some_iff.mp hold).1
    exact (List.getElem?_append_left hlt).trans hold
  | stored i =>
    rw [PersistRole.step] at hstep
    split at hstep
    · cases hstep
    rename_i hnew
    obtain ⟨x, hx, rfl⟩ := Option.map_eq_some_iff.mp hstep
    refine ⟨?_, fun y hy => ?_, ?_⟩
    · dsimp only
      rw [h.store, ObjectStore.put, ObjectStore.ofLog, ObjectStore.ofLog, events, events,
        List.map_append, List.map_append, List.map_singleton, List.map_singleton,
        Table.ofList_concat]
      rfl
    · rcases List.mem_append.mp hy with hold | hlast
      · exact h.minted y hold
      · obtain rfl := List.mem_singleton.mp hlast
        exact hx
    · dsimp only
      rw [List.map_append, List.map_singleton, List.nodup_append]
      refine ⟨h.nodup, List.nodup_singleton i, ?_⟩
      rintro a ha b hb rfl
      have hi : a = i := List.mem_singleton.mp hb
      exact hnew (hi ▸ ha)
  | restart =>
    obtain rfl := Option.some.inj hstep
    exact ⟨h.store, h.minted, h.nodup⟩

theorem recorded_run (hrun : Steps.run step (init B kind) ops = some r) : Recorded kind r :=
  Steps.run_invariant_true (fun _ _ _ hstep h => Recorded.step h hstep) hrun recorded_init

theorem Extends.refl (r : PersistRole B) : Extends r r := ⟨List.prefix_rfl, List.prefix_rfl⟩

theorem Extends.trans {r'' : PersistRole B} (h : Extends r r') (h' : Extends r' r'') :
    Extends r r'' :=
  ⟨h.minted.trans h'.minted, h.log.trans h'.log⟩

theorem extends_step {op : PersistOp B} (hstep : r.step op = some r') : Extends r r' := by
  cases op with
  | sample key payload millis =>
    obtain rfl := Option.some.inj hstep
    exact ⟨List.prefix_append _ _, List.prefix_rfl⟩
  | stored i =>
    rw [PersistRole.step] at hstep
    split at hstep
    · cases hstep
    obtain ⟨x, -, rfl⟩ := Option.map_eq_some_iff.mp hstep
    exact ⟨List.prefix_rfl, List.prefix_append _ _⟩
  | restart =>
    obtain rfl := Option.some.inj hstep
    exact ⟨List.prefix_rfl, List.prefix_rfl⟩

theorem extends_run (hrun : Steps.run step r ops = some r') : Extends r r' :=
  Steps.run_invariant_true (fun _ _ _ hstep h => Extends.trans h (extends_step hstep)) hrun
    (.refl r)

/-! ### The log and the samples -/

theorem mem_published_iff (h : Recorded kind r) {x : Sample B × ℕ} :
    x ∈ r.published path ↔ x ∈ matching path r.log := by
  rw [published, matching, List.mem_filter, List.mem_filter, List.mem_zipIdx_iff_getElem?,
    Bool.and_eq_true, decide_eq_true_eq, decide_eq_true_eq]
  constructor
  · rintro ⟨hx, hmatch, hlog⟩
    obtain ⟨y, hy, hindex⟩ := List.mem_map.mp hlog
    have hsame := h.minted y hy
    rw [hindex, hx] at hsame
    obtain rfl : x = y := Prod.ext (Option.some.inj hsame) hindex.symm
    exact ⟨hy, hmatch⟩
  · rintro ⟨hlog, hmatch⟩
    exact ⟨h.minted x hlog, hmatch, List.mem_map_of_mem hlog⟩

theorem published_ordered (path : String) (r : PersistRole B) :
    (r.published path).Pairwise fun x y => x.2 < y.2 := by
  have hindices : (r.minted.zipIdx.map Prod.snd).Pairwise (· < ·) := by
    rw [List.zipIdx_map_snd]
    exact List.pairwise_lt_range'
  exact List.Pairwise.filter _ (List.pairwise_map.mp hindices)

/-- The store got the matching samples in the order in which they came, and their positions ascend.
-/
def InOrder (path : String) (r : PersistRole B) : Prop :=
  (matching path r.log).Pairwise fun x y => x.1.Before y.1 ∧ x.2 < y.2

instance : Decidable (r.InOrder path) :=
  inferInstanceAs (Decidable ((matching path r.log).Pairwise fun x y => x.1.Before y.1 ∧ x.2 < y.2))

/-- The path is not the position of a sample, where the store lists that too. -/
def Free (kind : StoreKind) (path : String) (r : PersistRole B) : Prop :=
  kind = .memory → ∀ x ∈ r.log, x.1.position ≠ path

/-- The selector of a replay meets the matching samples. -/
def Reached (z : Zenoh) (path : String) (r : PersistRole B) : Prop :=
  ∀ x ∈ matching path r.log, z.intersects (path ++ "/**") x.1.position = true

instance {z : Zenoh} : Decidable (r.Reached z path) :=
  inferInstanceAs (Decidable (∀ x ∈ matching path r.log, _))

/-- What a replay has to meet to be exact: the order of the matching samples, the path and the
selector. -/
structure Replayable (z : Zenoh) (kind : StoreKind) (path : String) (r : PersistRole B) : Prop where
  inOrder : r.InOrder path
  free : r.Free kind path
  reached : r.Reached z path

theorem matching_mono (h : Extends r r') : matching path r.log <+: matching path r'.log :=
  h.log.filter _

theorem InOrder.mono (h : r'.InOrder path) (hext : Extends r r') : r.InOrder path :=
  h.sublist (matching_mono hext).sublist

theorem Free.mono (h : r'.Free kind path) (hext : Extends r r') : r.Free kind path :=
  fun hkind x hx => h hkind x (hext.log.subset hx)

theorem Replayable.mono {z : Zenoh} (h : r'.Replayable z kind path) (hext : Extends r r') :
    r.Replayable z kind path :=
  ⟨h.inOrder.mono hext, h.free.mono hext, fun x hx => h.reached x ((matching_mono hext).subset hx)⟩

theorem InOrder.ascending (h : r.InOrder path) : Cursor.Ascending (events (matching path r.log)) :=
  List.pairwise_map.mpr (h.imp fun h => Sample.position_lt_iff.mpr h.1)

theorem InOrder.published_eq (h : r.InOrder path) (hr : Recorded kind r) :
    r.published path = matching path r.log := by
  have hnodup : ∀ {l : List (Sample B × ℕ)}, l.Pairwise (fun x y => x.2 < y.2) → l.Nodup :=
    fun hl => hl.imp fun hlt heq => absurd (heq ▸ hlt) (lt_irrefl _)
  have hlog : (matching path r.log).Pairwise fun x y => x.2 < y.2 := h.imp And.right
  have hanti : ∀ x y : Sample B × ℕ, x ∈ r.published path → y ∈ matching path r.log →
      x.2 < y.2 → y.2 < x.2 → x = y := fun x y _ _ hxy hyx => absurd hyx (lt_asymm hxy)
  refine List.Perm.eq_of_pairwise hanti (published_ordered path r) hlog ?_
  rw [List.perm_ext_iff_of_nodup (hnodup (published_ordered path r)) (hnodup hlog)]
  exact fun x => mem_published_iff hr

/-! ### Reading on -/

/-- A replay yields the matching samples that the store has got, and one with the position of any of
them those that came to the store after it. -/
structure Resumes (z : Zenoh) (path : String) (r : PersistRole B) : Prop where
  all : ∀ arrival, r.replay z arrival path none =
    some (events (matching (rstripSlash path) r.log))
  since : ∀ arrival i x, (matching (rstripSlash path) r.log)[i]? = some x →
    r.replay z arrival path (some x.1.position) =
      some (events ((matching (rstripSlash path) r.log).drop (i + 1)))

/-- Throughout a run replays resume, and what a consumer has read at any points of it, and then
reads on, is every matching sample that the store has got, once, in the order in which they came. -/
structure ReplaysExactly (z : Zenoh) (kind : StoreKind) (path : String) (ops : List (PersistOp B)) :
    Prop where
  resumed : ∀ ops' r, ops' <+: ops → Steps.run step (init B kind) ops' = some r → r.Resumes z path
  joined : ∀ reads r cursor processed, (reads.flatMap Prod.fst) <+: ops →
    consume z path (init B kind) none [] reads = some (r, cursor, processed) →
    ∀ arrival, ∃ rest, r.replay z arrival path cursor = some rest ∧
      processed ++ rest = events (r.published (rstripSlash path))

variable {z : Zenoh}

/-- What is replied of matching samples. -/
theorem Reached.takeWhile_eq {l : List (String × B)} (h : r.Reached z path)
    (hl : l ⊆ events (matching path r.log)) :
    (l.takeWhile fun x => z.intersects (path ++ "/**") x.1) = l := by
  refine List.takeWhile_eq_self_iff.mpr fun x hx => ?_
  obtain ⟨y, hy, rfl⟩ := List.mem_map.mp (hl hx)
  exact h y hy

theorem resumes_of (hz : z.Lists) (hpath : KeyPath (rstripSlash path)) (hr : Recorded kind r)
    (h : r.Replayable z kind (rstripSlash path)) : r.Resumes z path where
  all := by
    intro arrival
    rw [replay_eq hz hpath, hr.store, ObjectStore.history_eq (rstripSlash_rstripSlash path)
      h.inOrder.ascending h.free]
    dsimp only
    rw [h.reached.takeWhile_eq (List.Subset.refl _)]
    exact congrArg some (Cursor.sort_eq h.inOrder.ascending (arrival.perm _))
  since := by
    intro arrival i x hx
    rw [replay_eq hz hpath, hr.store, ObjectStore.history_eq (rstripSlash_rstripSlash path)
      h.inOrder.ascending h.free]
    have hevent : (events (matching (rstripSlash path) r.log))[i]? =
        some (x.1.position, x.1.payload) := by
      rw [events, List.getElem?_map, hx]
      rfl
    have hdrop := Cursor.filter_lt_eq_drop h.inOrder.ascending hevent
    have hdrop' : (events (matching (rstripSlash path) r.log)).drop (i + 1) =
        events ((matching (rstripSlash path) r.log).drop (i + 1)) := List.map_drop.symm
    dsimp only at hdrop ⊢
    rw [hdrop, h.reached.takeWhile_eq (List.drop_subset _ _), hdrop']
    refine congrArg some (Cursor.sort_eq ?_ (arrival.perm _))
    rw [← hdrop']
    exact List.Pairwise.sublist (List.drop_sublist _ _) h.inOrder.ascending

/-- What a consumer has: it has read the first of the samples, and its cursor is the last of these.
-/
def Consumed (samples : List (Sample B × ℕ)) (cursor : Option String)
    (processed : List (String × B)) : Prop :=
  ∃ n ≤ samples.length, processed = events (samples.take n) ∧
    cursor = (samples.take n).getLast?.map fun x => x.1.position

theorem Consumed.mono {samples samples' : List (Sample B × ℕ)} {cursor : Option String}
    {processed : List (String × B)} (h : Consumed samples cursor processed)
    (hmono : samples <+: samples') : Consumed samples' cursor processed := by
  obtain ⟨n, hn, hprocessed, hcursor⟩ := h
  obtain ⟨more, rfl⟩ := hmono
  refine ⟨n, ?_, ?_, ?_⟩
  · rw [List.length_append]
    omega
  · rw [List.take_append_of_le_length hn]
    exact hprocessed
  · rw [List.take_append_of_le_length hn]
    exact hcursor

/-- It reads on where it stopped. -/
theorem replay_of_consumed (h : r.Resumes z path) {cursor : Option String}
    {processed : List (String × B)}
    (hc : Consumed (matching (rstripSlash path) r.log) cursor processed) (arrival : Arrival B) :
    ∃ n, processed = events ((matching (rstripSlash path) r.log).take n) ∧
      cursor = ((matching (rstripSlash path) r.log).take n).getLast?.map (fun x => x.1.position) ∧
      r.replay z arrival path cursor =
        some (events ((matching (rstripSlash path) r.log).drop n)) := by
  obtain ⟨n, hn, hprocessed, hcursor⟩ := hc
  refine ⟨n, hprocessed, hcursor, ?_⟩
  cases n with
  | zero =>
    rw [hcursor]
    exact h.all arrival
  | succ n =>
    have hx := List.getElem?_eq_getElem (l := matching (rstripSlash path) r.log) (i := n) (by omega)
    have hlast : ((matching (rstripSlash path) r.log).take (n + 1)).getLast? =
        (matching (rstripSlash path) r.log)[n]? := by
      rw [List.take_add_one, hx, Option.toList_some, List.getLast?_concat]
    rw [hcursor, hlast, hx]
    exact h.since arrival n _ hx

/-- One read, of which the consumer processes some events. -/
theorem Consumed.read (h : r.Resumes z path) {cursor : Option String}
    {processed : List (String × B)}
    (hc : Consumed (matching (rstripSlash path) r.log) cursor processed) {arrival : Arrival B}
    {read : List (String × B)} (hread : r.replay z arrival path cursor = some read) (stop : ℕ) :
    Consumed (matching (rstripSlash path) r.log)
      (((read.take stop).getLast?.map Prod.fst).or cursor) (processed ++ read.take stop) := by
  obtain ⟨n, hprocessed, hcursor, hreplay⟩ := replay_of_consumed h hc arrival
  rw [hreplay] at hread
  obtain rfl := Option.some.inj hread
  set samples := matching (rstripSlash path) r.log with hsamples
  have htake : samples.take (n + stop) = samples.take n ++ (samples.drop n).take stop :=
    List.take_add
  have hread' : (events (samples.drop n)).take stop = events ((samples.drop n).take stop) :=
    List.map_take.symm
  have hmin : samples.take (min (n + stop) samples.length) = samples.take (n + stop) := by
    rw [← List.take_eq_take_min]
  refine ⟨min (n + stop) samples.length, min_le_right _ _, ?_, ?_⟩
  · rw [hmin, htake, hprocessed, hread', events, events, events, List.map_append]
  · rw [hmin, htake, List.getLast?_append, hread', hcursor, events, List.getLast?_map]
    cases ((samples.drop n).take stop).getLast? <;> rfl

/-- Every read of a run in order. -/
theorem consumed_of_consume {ops : List (PersistOp B)} (hz : z.Lists)
    (hpath : KeyPath (rstripSlash path)) {last : PersistRole B}
    (hlast : Steps.run step (init B kind) ops = some last)
    (hreplay : last.Replayable z kind (rstripSlash path))
    (reads : List (List (PersistOp B) × Arrival B × ℕ)) :
    ∀ (before : List (PersistOp B)) (r r' : PersistRole B) (cursor cursor' : Option String)
      (processed processed' : List (String × B)),
    before ++ reads.flatMap Prod.fst <+: ops → Steps.run step (init B kind) before = some r →
    Consumed (matching (rstripSlash path) r.log) cursor processed →
    consume z path r cursor processed reads = some (r', cursor', processed') →
    Steps.run step (init B kind) (before ++ reads.flatMap Prod.fst) = some r' ∧
      Consumed (matching (rstripSlash path) r'.log) cursor' processed' := by
  induction reads with
  | nil =>
    intro before r r' cursor cursor' processed processed' hprefix hrun hc h
    cases h
    rw [List.flatMap_nil, List.append_nil]
    exact ⟨hrun, hc⟩
  | cons x reads ih =>
    obtain ⟨now, arrival, stop⟩ := x
    intro before r r' cursor cursor' processed processed' hprefix hrun hc h
    obtain ⟨r₁, hnow, h⟩ := Option.bind_eq_some_iff.mp h
    obtain ⟨read, hread, h⟩ := Option.bind_eq_some_iff.mp h
    have hrun₁ := Steps.run_append_eq_some hrun hnow
    rw [List.flatMap_cons, ← List.append_assoc] at hprefix ⊢
    have hext : Extends r₁ last := by
      obtain ⟨after, hafter⟩ := hprefix
      rw [← hafter, List.append_assoc] at hlast
      obtain ⟨s, hs, hrest⟩ := Steps.exists_run_append hlast
      obtain rfl := Option.some.inj (hrun₁.symm.trans hs)
      exact extends_run hrest
    have hresumes := resumes_of hz hpath (recorded_run hrun₁) (hreplay.mono hext)
    exact ih _ r₁ r' _ cursor' _ processed' hprefix hrun₁
      ((hc.mono (matching_mono (extends_run hnow))).read hresumes hread stop) h

theorem replaysExactly_of (hz : z.Lists) (hpath : KeyPath (rstripSlash path))
    (hrun : Steps.run step (init B kind) ops = some r)
    (h : r.Replayable z kind (rstripSlash path)) : ReplaysExactly z kind path ops where
  resumed := by
    rintro ops' r' ⟨after, rfl⟩ hrun'
    obtain ⟨s, hs, hrest⟩ := Steps.exists_run_append hrun
    obtain rfl := Option.some.inj (hrun'.symm.trans hs)
    have hext := extends_run hrest
    exact resumes_of hz hpath (recorded_run hrun') (h.mono hext)
  joined := by
    intro reads r' cursor processed hprefix hconsume arrival
    have hstart : Consumed (matching (rstripSlash path) (init B kind).log) none [] :=
      ⟨0, Nat.le_refl 0, rfl, rfl⟩
    obtain ⟨hrun', hc⟩ := consumed_of_consume hz hpath hrun h reads [] (init B kind) r' none
      cursor [] processed hprefix rfl hstart hconsume
    have hext : Extends r' r := by
      obtain ⟨after, hafter⟩ := hprefix
      rw [← hafter] at hrun
      obtain ⟨s, hs, hrest⟩ := Steps.exists_run_append hrun
      obtain rfl := Option.some.inj (hrun'.symm.trans hs)
      exact extends_run hrest
    have hrec := recorded_run hrun'
    have hresumes := resumes_of hz hpath hrec (h.mono hext)
    obtain ⟨n, hprocessed, -, hreplay⟩ := replay_of_consumed hresumes hc arrival
    refine ⟨_, hreplay, ?_⟩
    rw [hprocessed, (h.inOrder.mono hext).published_eq hrec, events, events, events,
      ← List.map_append, List.take_append_drop]

/-! ### What exact replays say of the log -/

theorem ascending_of_resumes (hz : z.Lists) (hpath : KeyPath (rstripSlash path))
    (h : r.Resumes z path) : Cursor.Ascending (events (matching (rstripSlash path) r.log)) := by
  have hall := h.all ⟨id, List.Perm.refl⟩
  rw [replay_eq hz hpath] at hall
  rw [← Option.some.inj hall]
  exact Cursor.ascending_sort
    ((r.store.nodup_history none).sublist ((List.takeWhile_sublist _).map Prod.fst))

theorem reached_of_resumes (hz : z.Lists) (hpath : KeyPath (rstripSlash path))
    (h : r.Resumes z path) : r.Reached z (rstripSlash path) := by
  intro x hx
  have hall := h.all ⟨id, List.Perm.refl⟩
  rw [replay_eq hz hpath] at hall
  have hmem : (x.1.position, x.1.payload) ∈ events (matching (rstripSlash path) r.log) :=
    List.mem_map_of_mem hx
  rw [← Option.some.inj hall, (Cursor.perm_sort _).mem_iff] at hmem
  exact List.mem_takeWhile_imp
    (p := fun y : String × B => z.intersects (rstripSlash path ++ "/**") y.1) hmem

theorem free_of_resumes (hz : z.Lists) (hpath : KeyPath (rstripSlash path)) (hr : Recorded kind r)
    (h : r.Resumes z path) : r.Free kind (rstripSlash path) := by
  rintro rfl x hx heq
  have hmem := ObjectStore.mem_history_memory hx heq
  have hreached := reached_of_resumes hz hpath h
  -- the selector meets all that is listed: the path itself and the matching samples
  have htake : (((ObjectStore.ofLog .memory r.log).history (rstripSlash path) none).takeWhile
      fun x => z.intersects (rstripSlash path ++ "/**") x.1) =
        (ObjectStore.ofLog .memory r.log).history (rstripSlash path) none := by
    refine List.takeWhile_eq_self_iff.mpr fun y hy => ?_
    rcases ObjectStore.of_mem_history_memory (rstripSlash_rstripSlash path) hy with hself | hbelow
    · rw [hself]
      exact hz.self _ hpath
    · obtain ⟨w, hw, hposition⟩ := hbelow
      rw [← hposition]
      exact hreached w hw
  have hall := h.all ⟨id, List.Perm.refl⟩
  rw [replay_eq hz hpath, hr.store, htake] at hall
  have hsorted : Cursor.sort ((ObjectStore.ofLog .memory r.log).history (rstripSlash path) none) =
      events (matching (rstripSlash path) r.log) := Option.some.inj hall
  have hperm := Cursor.perm_sort
    ((ObjectStore.ofLog .memory r.log).history (rstripSlash path) none)
  rw [← (hperm.map Prod.fst).mem_iff, hsorted, events, List.map_map, List.mem_map] at hmem
  obtain ⟨y, hy, hname⟩ := hmem
  -- a matching sample stands below the path
  have hbelow := startsWith_iff.mp
    (startsWith_position.mpr (of_decide_eq_true (List.mem_filter.mp hy).2))
  have hlen := hbelow.length_le
  have hposition : y.1.position = rstripSlash path := hname
  rw [hposition, toList_slash, List.length_append, List.length_singleton] at hlen
  omega

/-- A list is another one if all its members are there, and both have the same under a function that
tells them apart. -/
theorem eq_of_map_eq {α β : Type*} {f : α → β} {l l' : List α} (hnodup : (l.map f).Nodup)
    (hsub : ∀ x ∈ l', x ∈ l) (h : l.map f = l'.map f) : l = l' := by
  have hlen : l.length = l'.length := by
    rw [← List.length_map (f := f), h, List.length_map]
  refine List.ext_getElem hlen fun i hi hi' => ?_
  refine List.inj_on_of_nodup_map hnodup (List.getElem_mem hi) (hsub _ (List.getElem_mem hi')) ?_
  have hget : (l.map f)[i]? = (l'.map f)[i]? := by rw [h]
  rw [List.getElem?_map, List.getElem?_map, List.getElem?_eq_getElem hi,
    List.getElem?_eq_getElem hi'] at hget
  exact Option.some.inj hget

theorem inOrder_of (hz : z.Lists) (hpath : KeyPath (rstripSlash path))
    (hrun : Steps.run step (init B kind) ops = some r) (h : ReplaysExactly z kind path ops) :
    r.InOrder (rstripSlash path) := by
  have hresumes := h.resumed ops r List.prefix_rfl hrun
  have hasc := ascending_of_resumes hz hpath hresumes
  have hrec := recorded_run hrun
  -- a consumer that only reads at the end
  have hconsume : consume z path (init B kind) none [] [(ops, ⟨id, List.Perm.refl⟩, 0)] =
      some (r, none, []) := by
    rw [consume, hrun]
    show (r.replay z _ path none).bind _ = _
    rw [hresumes.all]
    rfl
  have hops : [(ops, (⟨id, List.Perm.refl⟩ : Arrival B), 0)].flatMap Prod.fst = ops :=
    List.append_nil ops
  obtain ⟨rest, hrest, hjoined⟩ := h.joined [(ops, ⟨id, List.Perm.refl⟩, 0)] r none []
    ⟨[], (List.append_nil _).trans hops⟩ hconsume ⟨id, List.Perm.refl⟩
  rw [hresumes.all] at hrest
  obtain rfl := Option.some.inj hrest
  have heq : matching (rstripSlash path) r.log = r.published (rstripSlash path) := by
    refine eq_of_map_eq (List.Nodup.of_map Prod.fst hasc.nodup)
      (fun x hx => (mem_published_iff hrec).mp hx) hjoined
  have hindices : (matching (rstripSlash path) r.log).Pairwise fun x y => x.2 < y.2 := by
    rw [heq]
    exact published_ordered _ r
  have hpositions := List.pairwise_map.mp hasc
  exact (hpositions.and hindices).imp fun h => ⟨Sample.position_lt_iff.mp h.1, h.2⟩

/-- **Replays are exact** just when the store gets the matching samples in the order in which they
came, each comes before the next in the log, the selector meets them all, and, in memory, the path
is not itself the position of a sample. -/
theorem replays_exactly_iff (hz : z.Lists) (hpath : KeyPath (rstripSlash path))
    (hrun : Steps.run step (init B kind) ops = some r) : ReplaysExactly z kind path ops ↔
      r.Replayable z kind (rstripSlash path) := by
  constructor
  · intro h
    have hresumes := h.resumed ops r List.prefix_rfl hrun
    exact ⟨inOrder_of hz hpath hrun h, free_of_resumes hz hpath (recorded_run hrun) hresumes,
      reached_of_resumes hz hpath hresumes⟩
  · exact replaysExactly_of hz hpath hrun

/-! ### Runs of two roles -/

theorem not_mem_selector {path : String} (hpath : KeyPath path) : '?' ∉ (path ++ "/**").toList := by
  rw [String.toList_append]
  intro h
  rcases List.mem_append.mp h with hm | hm
  · exact hpath.1 '?' hm List.mem_cons_self
  · exact absurd hm (by decide)

/-- Zenoh that splits a selector at its separators and matches key expressions chunk by chunk. -/
theorem chunked_lists : Zenoh.chunked.Lists where
  all := fun path hpath => Zenoh.literal_splitsText.bare _ (not_mem_selector hpath)
  since := by
    intro path v hpath hv
    have hname := Percent.isQuoted_quote "_since"
    rw [show Percent.quote "_since" = "_since" by decide] at hname
    have hquoted : ∀ p ∈ [("_since", v)], Percent.IsQuoted p.1 ∧ Percent.IsQuoted p.2 :=
      fun p hp => List.mem_singleton.mp hp ▸ ⟨hname, hv⟩
    have htext : path ++ "/**" ++ "?_since=" ++ v =
        path ++ "/**" ++ "?" ++ ";".intercalate
          ([("_since", v)].map fun p => p.1 ++ "=" ++ p.2) := by
      rw [← String.toList_inj, List.map_singleton, String.intercalate_singleton]
      simp
    rw [htext]
    exact Zenoh.literal_splitsText.parse (not_mem_selector hpath) (List.cons_ne_nil _ []) hquoted
  self := fun path hpath => Zenoh.chunked_self hpath.1

/-- Two samples of a wildcard, the second of the key that sorts first. -/
def wildcardRun : List (PersistOp String) :=
  [.sample "orders/b" "first" 1, .stored 0, .sample "orders/a" "second" 2, .stored 1]

theorem keyPath_orders : KeyPath "orders" := ⟨by decide, by decide⟩

/-- A cursor behind the first passes the second by. -/
theorem wildcardRun_not_exact : ¬ReplaysExactly Zenoh.chunked .memory "orders" wildcardRun := by
  intro h
  have hpath : rstripSlash "orders" = "orders" := by decide
  have hrun : Steps.run step (init String .memory) wildcardRun = some _ := rfl
  have horder := inOrder_of chunked_lists (hpath ▸ keyPath_orders) hrun h
  rw [hpath] at horder
  revert horder
  decide

/-- A key of which samples come before and after a restart. -/
def restartRun : List (PersistOp String) :=
  [.sample "orders/created" "a" 5, .stored 0, .sample "orders/created" "b" 5, .stored 1, .restart,
    .sample "orders/created" "c" 6, .stored 2]

theorem restartRun_exact : ReplaysExactly Zenoh.chunked .memory "orders/" restartRun := by
  have hpath : rstripSlash "orders/" = "orders" := by decide
  refine (replays_exactly_iff chunked_lists (hpath ▸ keyPath_orders) rfl).mpr ?_
  rw [hpath]
  exact ⟨by decide, fun _ => by decide, by decide⟩

end PersistRole

end Istos
