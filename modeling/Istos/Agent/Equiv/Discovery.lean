import Istos.Agent.Discovery
import Istos.Data.Traverse
import Mathlib.Data.Option.Defs

/-!
# Which discovered tools wait for a human

The catalogue has one tool for each selected handle prefix, and the tool is built from the first
entry of that prefix: the manifests come in the order of their services.  So a mark on a later entry
is lost.  `tools_from_discovery_iff`: the marks survive just when no prefix is marked after its
first entry only.
-/

namespace Istos

/-! ### The entry of a tool -/

@[simp]
theorem MeshTool.requiresApproval_ofJson (name : String) (j : Json) :
    MeshTool.requiresApproval ⟨name, .ofJson j⟩ = j.truthy := by
  cases j <;> rfl

theorem truthy_orElse (value : Option Json) (b : Bool) :
    (orElse value (.bool b)).truthy = (value.any Json.truthy || b) := by
  cases value with
  | none => rfl
  | some j =>
    rw [orElse, Option.any_some]
    split_ifs with h
    · rw [h, Bool.true_or]
    · rw [Bool.eq_false_iff.mpr h, Bool.false_or]
      rfl

/-- A tool waits for a human if its entry is marked, or if the caller has listed its prefix. -/
theorem remoteTool_spec {approval : Option (List String)} {key : String} {entry : Json}
    {t : RemoteTool} (h : remoteTool approval key entry = some t) :
    t.key = key ∧ t.requiresApproval = (marked entry || (approval.getD []).contains key) := by
  obtain ⟨description, -, rfl⟩ := Option.map_eq_some_iff.mp h
  exact ⟨rfl, (MeshTool.requiresApproval_ofJson _ _).trans (truthy_orElse _ _)⟩

/-! ### The entries of the catalogue -/

section

variable (manifests : List (String × Manifest)) (services prefixes : Option (List String))

/-- A manifest that the caller selects has an entry for the handle of a prefix. -/
def Selected (key : String) (entry : Json) : Prop :=
  ∃ service manifest entries, (service, manifest) ∈ manifests ∧
    (∀ wanted, services = some wanted → service ∈ wanted) ∧
    manifest.capabilities = some entries ∧ entry ∈ entries ∧ handlePrefix prefixes entry = some key

/-- The selected entries in the order of the services, and within a manifest in its own. -/
def selectedHandles : List (String × Json) :=
  (wantedManifests services manifests).flatMap fun x =>
    Manifest.handles prefixes (x.2.capabilities.getD [])

/-- The first of the selected entries of a prefix. -/
def firstEntry (key : String) : Option Json :=
  ((selectedHandles manifests services prefixes).find? fun x => decide (x.1 = key)).map Prod.snd

end

section

variable {manifests : List (String × Manifest)} {services prefixes approval : Option (List String)}

theorem mem_wantedManifests {x : String × Manifest} :
    x ∈ wantedManifests services manifests ↔
      x ∈ manifests ∧ ∀ wanted, services = some wanted → x.1 ∈ wanted := by
  rw [wantedManifests, List.mem_filter, (Cursor.perm_sort manifests).mem_iff]
  refine and_congr_right fun _ => ?_
  cases services with
  | none => exact iff_of_true rfl nofun
  | some wanted =>
    rw [Option.all_some, List.contains_iff_mem]
    exact ⟨fun h _ hwanted => Option.some.inj hwanted ▸ h, fun h => h wanted rfl⟩

theorem mem_selectedHandles {key : String} {entry : Json} :
    (key, entry) ∈ selectedHandles manifests services prefixes ↔
      Selected manifests services prefixes key entry := by
  rw [selectedHandles, List.mem_flatMap]
  constructor
  · rintro ⟨⟨service, manifest⟩, hx, hentry⟩
    obtain ⟨hmem, hwanted⟩ := mem_wantedManifests.mp hx
    obtain ⟨entry', hentry', heq⟩ := List.mem_filterMap.mp hentry
    obtain ⟨key', hkey, heq⟩ := Option.map_eq_some_iff.mp heq
    obtain ⟨rfl, rfl⟩ := Prod.mk.inj heq
    cases hcap : manifest.capabilities with
    | none =>
      rw [hcap] at hentry'
      cases hentry'
    | some entries =>
      rw [hcap] at hentry'
      exact ⟨service, manifest, entries, hmem, hwanted, hcap, hentry', hkey⟩
  · rintro ⟨service, manifest, entries, hmem, hwanted, hcap, hentry, hkey⟩
    refine ⟨(service, manifest), mem_wantedManifests.mpr ⟨hmem, hwanted⟩, ?_⟩
    rw [hcap]
    exact List.mem_filterMap.mpr ⟨entry, hentry, by rw [hkey, Option.map_some]⟩

/-- The catalogue keeps the first tool of each prefix, out of one tool for each selected entry. -/
theorem toolsFromDiscovery_eq_some {tools : List RemoteTool}
    (h : toolsFromDiscovery manifests services prefixes approval = some tools) :
    ∃ found, List.Forall₂ (fun x t => remoteTool approval x.1 x.2 = some t)
        (selectedHandles manifests services prefixes) found ∧
      tools = First.kept RemoteTool.key found := by
  obtain ⟨found, hfound, rfl⟩ := Option.map_eq_some_iff.mp h
  refine ⟨found.flatten, ?_, rfl⟩
  rw [selectedHandles, List.flatMap_def]
  refine List.rel_flatten (List.forall₂_map_left_iff.mpr ?_)
  refine (Traverse.forall₂_of_mapM hfound).imp fun x tools htools => ?_
  obtain ⟨entries, hentries, htools⟩ := Option.bind_eq_some_iff.mp htools
  rw [hentries]
  exact Traverse.forall₂_of_mapM htools

/-- Two lists related entry by entry are searched alike. -/
theorem rel_find? {α γ : Type} {R : α → γ → Prop} {l : List α} {l' : List γ} {p : α → Bool}
    {q : γ → Bool} (h : List.Forall₂ R l l') (hpq : ∀ a c, R a c → p a = q c) :
    Option.Rel R (l.find? p) (l'.find? q) := by
  induction h with
  | nil => exact .none
  | @cons a c l l' hac _ ih =>
    rw [List.find?_cons, List.find?_cons, hpq a c hac]
    cases q c with
    | true => exact .some hac
    | false => exact ih

/-- The tool of a prefix is built from the first selected entry of it. -/
theorem mem_toolsFromDiscovery {tools : List RemoteTool}
    (h : toolsFromDiscovery manifests services prefixes approval = some tools) {t : RemoteTool}
    (ht : t ∈ tools) : ∃ entry, firstEntry manifests services prefixes t.key = some entry ∧
      remoteTool approval t.key entry = some t := by
  obtain ⟨found, hfound, rfl⟩ := toolsFromDiscovery_eq_some h
  have hfind := (First.mem_kept RemoteTool.key found t).mp ht
  have hrel := rel_find? (p := fun x => decide (x.1 = t.key)) (q := fun y => decide (y.key = t.key))
    hfound fun x y hx => by rw [(remoteTool_spec hx).1]
  rw [hfind] at hrel
  cases hx : (selectedHandles manifests services prefixes).find? fun x => decide (x.1 = t.key) with
  | none =>
    rw [hx] at hrel
    cases hrel
  | some x =>
    rw [hx] at hrel
    cases hrel with
    | some htool =>
      have hkey : x.1 = t.key := (remoteTool_spec htool).1.symm
      exact ⟨x.2, by rw [firstEntry, hx, Option.map_some], hkey ▸ htool⟩

/-- A prefix has a tool just when some selected entry has it. -/
theorem mem_map_toolsFromDiscovery {tools : List RemoteTool}
    (h : toolsFromDiscovery manifests services prefixes approval = some tools) {key : String} :
    key ∈ tools.map RemoteTool.key ↔ ∃ entry, Selected manifests services prefixes key entry := by
  obtain ⟨found, hfound, rfl⟩ := toolsFromDiscovery_eq_some h
  have hkeys : found.map RemoteTool.key =
    (selectedHandles manifests services prefixes).map Prod.fst := by
    refine List.forall₂_eq_eq_eq.symm ▸ ?_
    rw [List.forall₂_map_left_iff, List.forall₂_map_right_iff]
    exact hfound.flip.imp fun t x hx => (remoteTool_spec hx).1
  rw [First.mem_map_kept, hkeys, List.mem_map]
  constructor
  · rintro ⟨⟨key, entry⟩, hx, rfl⟩
    exact ⟨entry, mem_selectedHandles.mp hx⟩
  · rintro ⟨entry, hx⟩
    exact ⟨(key, entry), mem_selectedHandles.mpr hx, rfl⟩

/-! ### The marks of the owners -/

variable (manifests services prefixes approval) in
/-- What a catalogue owes to the manifests that the caller selects. -/
structure ExactCatalogue (tools : List RemoteTool) : Prop where
  once : (tools.map RemoteTool.key).Nodup
  complete : ∀ key, key ∈ tools.map RemoteTool.key ↔
    ∃ entry, Selected manifests services prefixes key entry
  gated : ∀ t ∈ tools, (∃ entry, Selected manifests services prefixes t.key entry ∧
    marked entry = true) ∨ t.key ∈ approval.getD [] → t.requiresApproval = true

/-- The catalogue is exact just when each marked prefix is marked in its first selected entry, or
else listed by the caller. -/
theorem tools_from_discovery_iff {tools : List RemoteTool}
    (h : toolsFromDiscovery manifests services prefixes approval = some tools) :
    ExactCatalogue manifests services prefixes approval tools ↔
      ∀ key entry, Selected manifests services prefixes key entry → marked entry = true →
        key ∉ approval.getD [] →
        ∃ first, firstEntry manifests services prefixes key = some first ∧ marked first = true := by
  have honce : (tools.map RemoteTool.key).Nodup := by
    obtain ⟨found, -, rfl⟩ := toolsFromDiscovery_eq_some h
    exact First.nodup_kept RemoteTool.key found
  constructor
  · intro hexact key entry hentry hmarked hlisted
    obtain ⟨t, ht, rfl⟩ := List.mem_map.mp ((hexact.complete key).mpr ⟨entry, hentry⟩)
    obtain ⟨first, hfirst, htool⟩ := mem_toolsFromDiscovery h ht
    have hgated := hexact.gated t ht (.inl ⟨entry, hentry, hmarked⟩)
    rw [(remoteTool_spec htool).2, Bool.or_eq_true, List.contains_iff_mem] at hgated
    exact ⟨first, hfirst, hgated.resolve_right hlisted⟩
  · intro hmarks
    refine ⟨honce, fun key => mem_map_toolsFromDiscovery h, fun t ht hwhy => ?_⟩
    obtain ⟨first, hfirst, htool⟩ := mem_toolsFromDiscovery h ht
    rw [(remoteTool_spec htool).2, Bool.or_eq_true, List.contains_iff_mem]
    -- the tool has the flag of the first entry of its key
    by_cases hlisted : t.key ∈ approval.getD []
    · exact .inr hlisted
    · obtain ⟨entry, hentry, hmarked⟩ := hwhy.resolve_right hlisted
      obtain ⟨first', hfirst', hmarked'⟩ := hmarks t.key entry hentry hmarked hlisted
      obtain rfl := Option.some.inj (hfirst.symm.trans hfirst')
      exact .inl hmarked'

end

/-! ### A mark that is lost -/

/-- A manifest with one handle. -/
def refundManifest (approval : Json) : Manifest :=
  [("capabilities", .arr [.obj [("prefix", .str "billing/refund"), ("kind", .str "handle"),
    ("approval", approval)]])]

/-- The tool of that handle. -/
def refundTool (approval : ApprovalFlag) : RemoteTool :=
  ⟨⟨"billing-refund", approval⟩, "billing/refund", "billing-refund",
    .obj [("type", .str "object"), ("properties", .obj [])]⟩

theorem selected_refund {manifests : List (String × Manifest)} {service : String} {approval : Json}
    (h : (service, refundManifest approval) ∈ manifests) :
    Selected manifests none none "billing/refund" (.obj [("prefix", .str "billing/refund"),
      ("kind", .str "handle"), ("approval", approval)]) :=
  ⟨service, _, _, h, nofun, rfl, List.mem_singleton.mpr rfl, rfl⟩

/-- The mark of the first of two versions reaches a caller that finds both. -/
theorem tools_from_discovery_marked :
    ExactCatalogue [("billing", refundManifest (.str "moves real money")),
      ("billing-v2", refundManifest .null)] none none none
      [refundTool (.reason "moves real money")] := by
  refine (tools_from_discovery_iff rfl).mpr fun key entry hentry _ _ => ?_
  have hmem := mem_selectedHandles.mpr hentry
  rcases List.mem_cons.mp hmem with hfirst | hmem
  · obtain ⟨rfl, rfl⟩ := Prod.mk.inj hfirst
    exact ⟨_, rfl, rfl⟩
  · obtain ⟨rfl, rfl⟩ := Prod.mk.inj (List.mem_singleton.mp hmem)
    exact ⟨_, rfl, rfl⟩

/-- Of two versions of a service the first has no mark yet, and the mark of the second is lost. -/
theorem tools_from_discovery_unmarked :
    ¬ ∀ (manifests : List (String × Manifest)) (services prefixes approval : Option (List String))
      (tools : List RemoteTool),
      toolsFromDiscovery manifests services prefixes approval = some tools →
      ExactCatalogue manifests services prefixes approval tools := by
  intro h
  have hexact := h [("billing", refundManifest .null), ("billing-v2", refundManifest (.bool true))]
    none none none [refundTool (.flag false)] rfl
  have hgated := hexact.gated _ (List.mem_singleton.mpr rfl)
    (.inl ⟨_, selected_refund (List.mem_cons_of_mem _ (List.mem_singleton.mpr rfl)), rfl⟩)
  exact Bool.noConfusion hgated

end Istos
