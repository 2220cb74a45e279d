import Istos.Communication.Equiv.Persist
import Istos.Data.Lasts

/-!
# Which samples a history query is answered with

The store lists the samples below what stands before the first star of the selector, in the order of
their keys, and the replies end at the first listed sample that does not match the selector.
`replies_iff` says when these are the samples that match.
-/

namespace Istos

variable {B : Type}

/-! ### What a store lists -/

/-- What stands before the first star, without slashes at its end. -/
def listingPath (keyExpr : String) : String :=
  rstripSlash (String.ofList (keyExpr.toList.takeWhile fun c => decide (c ≠ '*')))

/-- A store lists a key below a path; one in memory also the path itself. -/
def StoreKind.lists : StoreKind → String → String → Bool
  | memory, path, key => decide (key = path) || startsWith key (rstripSlash path ++ "/")
  | s3 _, path, key => startsWith key (rstripSlash path ++ "/")

/-- The position of a logged sample. -/
def loggedPosition (x : Sample B × ℕ) : String := x.1.position

/-- The samples of a log that no later one has overwritten. -/
def survivors (log : List (Sample B × ℕ)) : List (Sample B × ℕ) := Table.lasts loggedPosition log

namespace ObjectStore

variable {kind : StoreKind} {log : List (Sample B × ℕ)}

theorem rows_ofLog (kind : StoreKind) (log : List (Sample B × ℕ)) :
    (ofLog kind log).objects.rows.Perm ((events (survivors log)).map kind.object) := by
  have hlasts : Table.lasts Prod.fst ((events log).map kind.object) =
      (events (survivors log)).map kind.object := by
    rw [events, events, List.map_map, List.map_map, Table.lasts_map, survivors]
    refine congrArg (List.map _) (Table.lasts_congr fun x y => ?_)
    exact StoreKind.objectKey_inj
  exact hlasts ▸ Table.ofList_perm _

/-- What passes a test of the keys. -/
theorem filter_rows_ofLog (kind : StoreKind) (log : List (Sample B × ℕ))
    (test test' : String → Bool) (h : ∀ key, test (kind.objectKey key) = test' key) :
    ((ofLog kind log).objects.rows.filter fun x => test x.1).Perm
      (((events (survivors log)).filter fun x => test' x.1).map kind.object) := by
  refine ((rows_ofLog kind log).filter _).trans ?_
  rw [List.filter_map]
  have hcongr : (events (survivors log)).filter ((fun x => test x.1) ∘ kind.object) =
      (events (survivors log)).filter fun x => test' x.1 :=
    List.filter_congr fun x _ => h x.1
  rw [hcongr]

/-- **The history** of a path. -/
theorem history_none (kind : StoreKind) (log : List (Sample B × ℕ)) (path : String) :
    ((ofLog kind log).history path none).Perm
        ((events (survivors log)).filter fun x => kind.lists path x.1) ∧
      Cursor.Ascending ((ofLog kind log).history path none) := by
  cases kind with
  | memory =>
    have hperm := filter_rows_ofLog .memory log
      (fun key => decide (key = path) || startsWith key (rstripSlash path ++ "/"))
      (StoreKind.memory.lists path) fun key => rfl
    have hid : ∀ l : List (String × B), l.map StoreKind.memory.object = l := fun l => List.map_id l
    rw [hid] at hperm
    refine ⟨(Cursor.perm_sort _).trans hperm, Cursor.ascending_sort ?_⟩
    exact (ofLog .memory log).objects.nodup.sublist (List.filter_sublist.map _)
  | s3 root =>
    have hperm := filter_rows_ofLog (.s3 root) log
      (fun key => startsWith key ((StoreKind.s3 root).objectKey (rstripSlash path ++ "/")))
      ((StoreKind.s3 root).lists path) fun key => StoreKind.startsWith_objectKey
    constructor
    · have hstrip : ∀ l : List (String × B), (l.map (StoreKind.s3 root).object).map
          (fun x => (StoreKind.strip root x.1, x.2)) = l := by
        intro l
        rw [List.map_map]
        refine (List.map_congr_left fun x _ => ?_).trans (List.map_id l)
        exact Prod.ext (StoreKind.strip_objectKey root x.1) rfl
      have hall := ((Cursor.perm_sort _).trans hperm).map fun x => (StoreKind.strip root x.1, x.2)
      rw [hstrip] at hall
      exact hall
    · have hsorted := Cursor.ascending_sort ((ofLog (.s3 root) log).objects.nodup.sublist
        (List.filter_sublist.map Prod.fst : (List.map Prod.fst
          ((ofLog (.s3 root) log).objects.rows.filter fun x =>
            startsWith x.1 ((StoreKind.s3 root).objectKey (rstripSlash path ++ "/")))).Sublist _))
      refine List.pairwise_map.mpr (hsorted.imp_of_mem fun {x y} hx hy hxy => ?_)
      have hbelow : ∀ {x : String × B}, x ∈ Cursor.sort
          ((ofLog (.s3 root) log).objects.rows.filter fun x =>
            startsWith x.1 ((StoreKind.s3 root).objectKey (rstripSlash path ++ "/"))) →
          (StoreKind.s3 root).objectKey (StoreKind.strip root x.1) = x.1 := by
        intro x hx
        rw [(Cursor.perm_sort _).mem_iff, List.mem_filter] at hx
        exact StoreKind.objectKey_strip hx.2
      rw [← hbelow hx, ← hbelow hy] at hxy
      exact StoreKind.objectKey_lt.mp hxy

end ObjectStore

/-! ### What is due -/

namespace PersistRole

variable {z : Zenoh} {kind : StoreKind} {r : PersistRole B} {ops : List (PersistOp B)}
  {keyExpr : String}

/-- The samples that the store holds, in the order in which they came. -/
def held (r : PersistRole B) : List (Sample B × ℕ) :=
  r.minted.zipIdx.filter fun x => decide (x.2 ∈ (survivors r.log).map Prod.snd)

/-- Those of them that match a selector. -/
def due (z : Zenoh) (r : PersistRole B) (keyExpr : String) : List (Sample B × ℕ) :=
  r.held.filter fun x => z.intersects keyExpr x.1.position

/-- A selector that is answered with what is due. -/
structure Answerable (z : Zenoh) (kind : StoreKind) (r : PersistRole B) (keyExpr : String) :
    Prop where
  /-- what matches lies below what stands before the first star -/
  listed : ∀ x ∈ r.held, z.intersects keyExpr x.1.position = true →
    kind.lists (listingPath keyExpr) x.1.position = true
  /-- what lies there and does not match comes after all that matches -/
  unmixed : ∀ x ∈ r.held, ∀ y ∈ r.held, kind.lists (listingPath keyExpr) x.1.position = true →
    z.intersects keyExpr x.1.position = false → z.intersects keyExpr y.1.position = true →
      y.1.position ≤ x.1.position
  /-- the samples that match came in the order of their keys and their clock -/
  inOrder : (r.due z keyExpr).Pairwise fun x y => x.1.Before y.1

theorem mem_held_iff (h : Recorded kind r) {x : Sample B × ℕ} :
    x ∈ r.held ↔ x ∈ survivors r.log := by
  rw [held, List.mem_filter, List.mem_zipIdx_iff_getElem?, decide_eq_true_eq]
  constructor
  · rintro ⟨hx, hlog⟩
    obtain ⟨y, hy, hindex⟩ := List.mem_map.mp hlog
    have hsame := h.minted y ((Table.lasts_sublist r.log).subset hy)
    rw [hindex, hx] at hsame
    obtain rfl : x = y := Prod.ext (Option.some.inj hsame) hindex.symm
    exact hy
  · intro hx
    exact ⟨h.minted x ((Table.lasts_sublist r.log).subset hx), List.mem_map_of_mem hx⟩

theorem nodup_zipIdx {α : Type*} (l : List α) : l.zipIdx.Nodup := by
  refine List.Nodup.of_map Prod.snd ?_
  rw [List.zipIdx_map_snd]
  exact List.nodup_range'

theorem held_perm (h : Recorded kind r) : r.held.Perm (survivors r.log) := by
  have hheld : r.held.Nodup := (nodup_zipIdx r.minted).filter _
  have hsurvivors : (survivors r.log).Nodup :=
    List.Nodup.of_map loggedPosition (Table.nodup_lasts r.log)
  rw [List.perm_ext_iff_of_nodup hheld hsurvivors]
  exact fun x => mem_held_iff h

/-- **When a history query is answered** with the stored samples that match it, each once and in the
order in which they came. -/
theorem replies_iff {params : Params} (hsince : readSince params = none)
    (hrun : Steps.run step (init B kind) ops = some r) :
    r.replies z keyExpr params = events (r.due z keyExpr) ↔ r.Answerable z kind keyExpr := by
  have hr := recorded_run hrun
  obtain ⟨hread, hasc⟩ := ObjectStore.history_none kind r.log (listingPath keyExpr)
  have hanswer : r.answer keyExpr params =
      (ObjectStore.ofLog kind r.log).history (listingPath keyExpr) none := by
    rw [answer, hsince, hr.store]
    rfl
  have hheld : (events (survivors r.log)).Perm (events r.held) := (held_perm hr).symm.map _
  have hdue : (events (r.due z keyExpr)).Perm
      ((events r.held).filter fun x => z.intersects keyExpr x.1) := by
    rw [events, events, List.filter_map]
    exact List.Perm.refl _
  rw [replies, hanswer]
  refine (Cursor.takeWhile_eq_iff (hread.trans (hheld.filter _)) hasc hdue).trans ?_
  have hascending : Cursor.Ascending (events (r.due z keyExpr)) ↔
      (r.due z keyExpr).Pairwise fun x y => x.1.Before y.1 := by
    rw [Cursor.Ascending, events, List.pairwise_map]
    exact List.Pairwise.iff fun x y => Sample.position_lt_iff
  rw [hascending]
  simp only [events, List.forall_mem_map]
  exact ⟨fun h => ⟨h.1, h.2.1, h.2.2⟩, fun h => ⟨h.listed, h.unmixed, h.inOrder⟩⟩

/-- Samples of two keys, in the order of these keys. -/
def twoOrders : List (PersistOp String) :=
  [.sample "orders/a/x" "first" 1, .stored 0, .sample "orders/b/y" "second" 2, .stored 1]

/-- The role that has persisted them. -/
def ordersRole : PersistRole String :=
  (Steps.run step (init String .memory) twoOrders).getD (init String .memory)

theorem replies_iff_twoOrders : ordersRole.Answerable .chunked .memory "orders/**" ∧
    ordersRole.replies .chunked "orders/**" [] =
      [("orders/a/x/0000000000001-000000000001", "first"),
        ("orders/b/y/0000000000002-000000000002", "second")] := by
  have hanswerable : ordersRole.Answerable .chunked .memory "orders/**" :=
    ⟨by decide +kernel, by decide +kernel, by decide +kernel⟩
  have hrun : Steps.run step (init String .memory) twoOrders = some ordersRole := rfl
  refine ⟨hanswerable, ((replies_iff rfl hrun).mpr hanswerable).trans ?_⟩
  decide +kernel

/-- Nothing is listed for a selector that starts with a star, or has one within a chunk; and a
listed sample that does not match keeps the matching one behind it from being replied. -/
theorem replies_incomplete_twoOrders :
    Steps.run step (init String .memory) twoOrders = some ordersRole ∧
      ordersRole.replies .chunked "*/a/**" [] = [] ∧
      events (ordersRole.due .chunked "*/a/**") =
        [("orders/a/x/0000000000001-000000000001", "first")] ∧
      ordersRole.replies .chunked "orders/b$*/**" [] = [] ∧
      events (ordersRole.due .chunked "orders/b$*/**") =
        [("orders/b/y/0000000000002-000000000002", "second")] ∧
      ordersRole.replies .chunked "orders/*/y/*" [] = [] ∧
      events (ordersRole.due .chunked "orders/*/y/*") =
        [("orders/b/y/0000000000002-000000000002", "second")] := by
  refine ⟨rfl, ?_⟩
  decide +kernel

end PersistRole

end Istos
