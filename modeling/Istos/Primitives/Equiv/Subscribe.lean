import Istos.Data.Assoc
import Istos.Primitives.Subscribe

/-!
# Deduplication and lost samples

A sample is dropped for one of two reasons: a sample with its bytes was delivered, or one is being
delivered.  The first drop loses nothing.  The second is decided while the fate of the other
delivery is open, and if that delivery raises then nothing with these bytes is dispatched any more.

`Deliveries.Tracked` ties the window and the set of fingerprints in flight to what happened so far;
`dedup_lossless_iff` is the exact condition under which no message is lost.
-/

namespace Istos

open Delivery

variable {D : Type}

/-- A delivery of the bytes has succeeded. -/
def Succeeded (es : List (Delivery D)) (raw : Bytes) : Prop :=
  ∃ d, sample d raw ∈ es ∧ settled d true ∈ es

/-- A delivery of the bytes has begun and has not ended. -/
def InProgress (es : List (Delivery D)) (d : D) (raw : Bytes) : Prop :=
  sample d raw ∈ es ∧ ∀ ok, settled d ok ∉ es

/-- The name of the sample that an event brings. -/
def Delivery.arriving : Delivery D → Option D
  | sample d _ => some d
  | settled _ _ => none

variable [DecidableEq D]

/-- A sample is dropped only if a delivery of its bytes has succeeded, or is in progress and goes on
to succeed. -/
def Lossless (sha256 : Bytes → String) (dedup : Dedup) (es : List (Delivery D)) : Prop :=
  ∀ pre d raw post s, es = pre ++ sample d raw :: post →
    Steps.run (Deliveries.step sha256) (.init dedup) pre = some s → s.Drops sha256 raw →
    Succeeded pre raw ∨ ∃ d', InProgress pre d' raw ∧ settled d' true ∈ post

/-- All that began has ended. -/
def Deliveries.Complete (sha256 : Bytes → String) (dedup : Dedup) (es : List (Delivery D)) : Prop :=
  ∃ s, Steps.run (Deliveries.step sha256) (.init dedup) es = some s ∧ s.running = []

variable {sha256 : Bytes → String}

/-! ### The two steps -/

omit [DecidableEq D] in
theorem SubscribeWrapper.mem_seen_recordDelivered {w : SubscribeWrapper} {fp x : String}
    (h : x ∈ (w.recordDelivered fp).seen) : x = fp ∨ x ∈ w.seen := by
  have hmem : x ∈ (if fp ∈ w.seen then w.seen else w.seen ++ [fp]) := by
    unfold recordDelivered at h
    generalize (if fp ∈ w.seen then w.seen else w.seen ++ [fp]) = seen at h ⊢
    dsimp only at h
    split at h
    · exact List.mem_of_mem_tail h
    · exact h
  split at hmem
  · exact Or.inr hmem
  · exact (List.mem_append.mp hmem).symm.imp_left List.mem_singleton.mp

/-- What `_deliver` does with a sample when there is a window. -/
theorem SubscribeWrapper.deliver_cases {w : SubscribeWrapper} (hw : w.dedupWindow ≠ 0)
    (raw : Bytes) :
    (∃ seen, w.deliver sha256 raw = (none, { w with seen := seen }) ∧
        (∀ x ∈ seen, x ∈ w.seen) ∧ (sha256 raw ∈ w.seen ∨ sha256 raw ∈ w.inflight)) ∨
      w.deliver sha256 raw = (some (some (sha256 raw)),
          { w with inflight := insert (sha256 raw) w.inflight }) ∧
        sha256 raw ∉ w.seen ∧ sha256 raw ∉ w.inflight := by
  unfold SubscribeWrapper.deliver SubscribeWrapper.fingerprint
  rw [if_neg hw]
  by_cases hs : sha256 raw ∈ w.seen
  · refine Or.inl ⟨w.seen.erase (sha256 raw) ++ [sha256 raw], ?_, fun x hx => ?_, Or.inl hs⟩
    · simp only [SubscribeWrapper.isDuplicate, if_pos hs]
    · rcases List.mem_append.mp hx with hx | hx
      · exact List.mem_of_mem_erase hx
      · rwa [List.mem_singleton.mp hx]
  · by_cases hi : sha256 raw ∈ w.inflight
    · refine Or.inl ⟨w.seen, ?_, fun x hx => hx, Or.inr hi⟩
      simp only [SubscribeWrapper.isDuplicate, if_neg hs, decide_eq_true hi]
    · refine Or.inr ⟨?_, hs, hi⟩
      simp only [SubscribeWrapper.isDuplicate, if_neg hs, decide_eq_false hi]

/-! ### The invariant -/

/-- What a subscriber knows of what happened so far. -/
structure Deliveries.Tracked (sha256 : Bytes → String) (before : List (Delivery D))
    (s : Deliveries D) : Prop where
  window : s.wrapper.dedupWindow ≠ 0
  /-- what is running began and did not end -/
  running : ∀ d fp, (d, fp) ∈ s.running → ∃ raw, InProgress before d raw ∧ fp = some (sha256 raw)
  inflight : ∀ fp, fp ∈ s.wrapper.inflight ↔ ∃ d, (d, some fp) ∈ s.running
  /-- no two deliveries of one fingerprint run at a time -/
  apart : ∀ d d' fp, (d, fp) ∈ s.running → (d', fp) ∈ s.running → d = d'
  single : ∀ d fp fp', (d, fp) ∈ s.running → (d, fp') ∈ s.running → fp = fp'
  /-- what ended began -/
  begun : ∀ d ok, settled d ok ∈ before → ∃ raw, sample d raw ∈ before
  /-- what was seen was delivered -/
  seen : ∀ fp ∈ s.wrapper.seen, ∃ raw, Succeeded before raw ∧ fp = sha256 raw

omit [DecidableEq D] in
theorem tracked_init {dedup : Dedup} (h : dedup.window ≠ 0) :
    (Deliveries.init dedup : Deliveries D).Tracked sha256 [] where
  window := h
  running := fun d fp hm => absurd hm List.not_mem_nil
  inflight := by
    intro fp
    simp [Deliveries.init, SubscribeWrapper.init]
  apart := fun d d' fp hm => absurd hm List.not_mem_nil
  single := fun d fp fp' hm => absurd hm List.not_mem_nil
  begun := fun d ok hm => absurd hm List.not_mem_nil
  seen := fun fp hm => absurd hm List.not_mem_nil

omit [DecidableEq D] in
theorem Succeeded.append {es : List (Delivery D)} {raw : Bytes} (h : Succeeded es raw)
    (es' : List (Delivery D)) : Succeeded (es ++ es') raw := by
  obtain ⟨d, h₁, h₂⟩ := h
  exact ⟨d, List.mem_append_left _ h₁, List.mem_append_left _ h₂⟩

/-- **One step** keeps the subscriber's knowledge right, if a sample brings a new name. -/
theorem step_tracked {before : List (Delivery D)} {s s' : Deliveries D} {e : Delivery D}
    (hstep : s.step sha256 e = some s') (h : s.Tracked sha256 before)
    (hnew : ∀ d, e.arriving = some d → ∀ raw, sample d raw ∉ before) :
    s'.Tracked sha256 (before ++ [e]) := by
  cases e with
  | sample d raw =>
    have hbegun : ∀ d' ok, settled d' ok ∈ before ++ [sample d raw] →
        ∃ raw', sample d' raw' ∈ before ++ [sample d raw] := by
      intro d' ok hm
      rcases List.mem_append.mp hm with hm | hm
      · obtain ⟨raw', hs⟩ := h.begun d' ok hm
        exact ⟨raw', List.mem_append_left _ hs⟩
      · cases List.mem_singleton.mp hm
    -- what is under way stays so: this event settles nothing
    have hkept : ∀ d' fp, (d', fp) ∈ s.running →
        ∃ raw', InProgress (before ++ [sample d raw]) d' raw' ∧ fp = some (sha256 raw') := by
      intro d' fp hm
      obtain ⟨raw', ⟨hs, hn⟩, hfp⟩ := h.running d' fp hm
      refine ⟨raw', ⟨List.mem_append_left _ hs, fun ok hbad => ?_⟩, hfp⟩
      rcases List.mem_append.mp hbad with hbad | hbad
      · exact hn ok hbad
      · cases List.mem_singleton.mp hbad
    rcases @SubscribeWrapper.deliver_cases sha256 _ h.window raw with
      ⟨seen, hd, hseen, -⟩ | ⟨hd, -, hfree⟩
    · simp only [Deliveries.step, hd] at hstep
      obtain rfl := Option.some.inj hstep
      refine ⟨h.window, hkept, h.inflight, h.apart, h.single, hbegun, fun fp hfp => ?_⟩
      obtain ⟨raw', hok, hfp'⟩ := h.seen fp (hseen fp hfp)
      exact ⟨raw', hok.append _, hfp'⟩
    · simp only [Deliveries.step, hd] at hstep
      obtain rfl := Option.some.inj hstep
      -- it is taken, so its fingerprint is not in flight, and its name is new
      have hidle : ∀ d', (d', some (sha256 raw)) ∉ s.running := fun d' hm =>
        hfree ((h.inflight _).mpr ⟨d', hm⟩)
      have hout : ∀ fp, (d, fp) ∉ s.running := by
        intro fp hm
        obtain ⟨raw', ⟨hs, -⟩, -⟩ := h.running d fp hm
        exact hnew d rfl raw' hs
      refine ⟨h.window, fun d' fp hm => ?_, fun fp => ?_, fun d₁ d₂ fp h₁ h₂ => ?_,
        fun d' fp fp' h₁ h₂ => ?_, hbegun, fun fp hfp => ?_⟩
      · rcases List.mem_cons.mp hm with heq | hm
        · obtain ⟨rfl, rfl⟩ := Prod.mk.inj heq
          refine ⟨raw, ⟨List.mem_append_right _ (List.mem_singleton.mpr rfl), fun ok hbad => ?_⟩,
            rfl⟩
          rcases List.mem_append.mp hbad with hbad | hbad
          · obtain ⟨raw', hs⟩ := h.begun _ ok hbad
            exact hnew _ rfl raw' hs
          · cases List.mem_singleton.mp hbad
        · exact hkept d' fp hm
      · rw [Finset.mem_insert, h.inflight]
        constructor
        · rintro (rfl | ⟨d', hm⟩)
          · exact ⟨d, List.mem_cons_self⟩
          · exact ⟨d', List.mem_cons_of_mem _ hm⟩
        · rintro ⟨d', hm⟩
          rcases List.mem_cons.mp hm with heq | hm
          · exact Or.inl (Option.some.inj (Prod.mk.inj heq).2)
          · exact Or.inr ⟨d', hm⟩
      · rcases List.mem_cons.mp h₁ with heq | h₁
        · obtain ⟨rfl, rfl⟩ := Prod.mk.inj heq
          rcases List.mem_cons.mp h₂ with heq | h₂
          · exact (Prod.mk.inj heq).1.symm
          · exact absurd h₂ (hidle d₂)
        · rcases List.mem_cons.mp h₂ with heq | h₂
          · exact absurd ((Prod.mk.inj heq).2 ▸ h₁) (hidle d₁)
          · exact h.apart d₁ d₂ fp h₁ h₂
      · rcases List.mem_cons.mp h₁ with heq | h₁
        · rcases List.mem_cons.mp h₂ with heq' | h₂
          · exact (Prod.mk.inj heq).2.trans (Prod.mk.inj heq').2.symm
          · exact absurd ((Prod.mk.inj heq).1 ▸ h₂) (hout fp')
        · rcases List.mem_cons.mp h₂ with heq | h₂
          · exact absurd ((Prod.mk.inj heq).1 ▸ h₁) (hout fp)
          · exact h.single d' fp fp' h₁ h₂
      · obtain ⟨raw', hok, hfp'⟩ := h.seen fp hfp
        exact ⟨raw', hok.append _, hfp'⟩
  | settled d ok =>
    simp only [Deliveries.step, Option.map_eq_some_iff] at hstep
    obtain ⟨fp₀, hlook, rfl⟩ := hstep
    have hmem : (d, fp₀) ∈ s.running := Assoc.mem_of_lookup hlook
    obtain ⟨raw, ⟨hbegan, -⟩, rfl⟩ := h.running d fp₀ hmem
    have hrest : ∀ {x : D × Option String},
        x ∈ s.running.filter (fun x => x.1 ≠ d) ↔ x ∈ s.running ∧ x.1 ≠ d := by
      intro x
      rw [List.mem_filter, decide_eq_true_eq]
    have hwindow : (s.wrapper.settle (some (sha256 raw)) ok).dedupWindow = s.wrapper.dedupWindow ∧
        (s.wrapper.settle (some (sha256 raw)) ok).inflight
          = s.wrapper.inflight.erase (sha256 raw) := by
      cases ok <;> exact ⟨rfl, rfl⟩
    refine ⟨hwindow.1 ▸ h.window, fun d' fp hm => ?_, fun fp => ?_, fun d₁ d₂ fp h₁ h₂ => ?_,
      fun d' fp fp' h₁ h₂ => h.single d' fp fp' (hrest.mp h₁).1 (hrest.mp h₂).1,
      fun d' ok' hm => ?_, fun fp hfp => ?_⟩
    · obtain ⟨hm, hne⟩ := hrest.mp hm
      obtain ⟨raw', ⟨hs, hn⟩, hfp⟩ := h.running d' fp hm
      refine ⟨raw', ⟨List.mem_append_left _ hs, fun ok' hbad => ?_⟩, hfp⟩
      rcases List.mem_append.mp hbad with hbad | hbad
      · exact hn ok' hbad
      · obtain ⟨rfl, -⟩ := settled.inj (List.mem_singleton.mp hbad)
        exact hne rfl
    · show fp ∈ (s.wrapper.settle (some (sha256 raw)) ok).inflight ↔ _
      rw [hwindow.2, Finset.mem_erase, h.inflight]
      constructor
      · rintro ⟨hne, d', hm⟩
        refine ⟨d', hrest.mpr ⟨hm, ?_⟩⟩
        rintro rfl
        exact hne (Option.some.inj (h.single d' _ _ hm hmem))
      · rintro ⟨d', hm⟩
        obtain ⟨hm, hne⟩ := hrest.mp hm
        refine ⟨?_, d', hm⟩
        rintro rfl
        exact hne (h.apart d' d _ hm hmem)
    · exact h.apart d₁ d₂ fp (hrest.mp h₁).1 (hrest.mp h₂).1
    · rcases List.mem_append.mp hm with hm | hm
      · obtain ⟨raw', hs⟩ := h.begun d' ok' hm
        exact ⟨raw', List.mem_append_left _ hs⟩
      · obtain ⟨rfl, -⟩ := settled.inj (List.mem_singleton.mp hm)
        exact ⟨raw, List.mem_append_left _ hbegan⟩
    -- the window gains a fingerprint by a success alone
    · have hold : fp = sha256 raw ∧ ok = true ∨ fp ∈ s.wrapper.seen := by
        cases ok with
        | false => exact Or.inr hfp
        | true => exact (SubscribeWrapper.mem_seen_recordDelivered hfp).imp_left fun h => ⟨h, rfl⟩
      rcases hold with ⟨rfl, rfl⟩ | hold
      · exact ⟨raw, ⟨d, List.mem_append_left _ hbegan,
          List.mem_append_right _ (List.mem_singleton.mpr rfl)⟩, rfl⟩
      · obtain ⟨raw', hok, hfp'⟩ := h.seen fp hold
        exact ⟨raw', hok.append _, hfp'⟩

/-! ### Runs -/

/-- The names of the samples that arrive, in order. -/
def arrivals (es : List (Delivery D)) : List D := es.filterMap Delivery.arriving

omit [DecidableEq D] in
theorem mem_arrivals {es : List (Delivery D)} {d : D} : d ∈ arrivals es ↔
    ∃ raw, sample d raw ∈ es := by
  rw [arrivals, List.mem_filterMap]
  constructor
  · rintro ⟨e, he, hd⟩
    cases e with
    | sample d' raw =>
      obtain rfl := Option.some.inj hd
      exact ⟨raw, he⟩
    | settled d' ok => cases hd
  · rintro ⟨raw, he⟩
    exact ⟨_, he, rfl⟩

omit [DecidableEq D] in
theorem arrivals_append (es es' : List (Delivery D)) :
    arrivals (es ++ es') = arrivals es ++ arrivals es' := List.filterMap_append

omit [DecidableEq D] in
/-- A name is that of one sample. -/
theorem one_payload {es : List (Delivery D)} (h : (arrivals es).Nodup) {d : D} {raw raw' : Bytes}
    (h₁ : sample d raw ∈ es) (h₂ : sample d raw' ∈ es) : raw = raw' := by
  induction es with
  | nil => exact absurd h₁ List.not_mem_nil
  | cons e es ih =>
    rw [← List.singleton_append, arrivals_append] at h
    obtain ⟨-, htail, hcross⟩ := List.nodup_append.mp h
    have hhead : ∀ {r r'}, sample d r = e → sample d r' ∉ es := by
      rintro r r' rfl hm
      exact hcross d (mem_arrivals.mpr ⟨r, List.mem_cons_self⟩) d (mem_arrivals.mpr ⟨r', hm⟩) rfl
    rcases List.mem_cons.mp h₁ with heq | h₁
    · rcases List.mem_cons.mp h₂ with heq' | h₂
      · exact (sample.inj (heq.trans heq'.symm)).2
      · exact absurd h₂ (hhead heq)
    · rcases List.mem_cons.mp h₂ with heq | h₂
      · exact absurd h₁ (hhead heq)
      · exact ih htail h₁ h₂

theorem run_tracked {before es : List (Delivery D)} {s s' : Deliveries D}
    (hrun : Steps.run (Deliveries.step sha256) s es = some s') (h : s.Tracked sha256 before)
    (hids : (arrivals (before ++ es)).Nodup) : s'.Tracked sha256 (before ++ es) := by
  induction es generalizing s before with
  | nil =>
    obtain rfl := Option.some.inj hrun
    rwa [List.append_nil]
  | cons e es ih =>
    obtain ⟨s₁, hstep, hrest⟩ := Steps.run_cons_eq_some.mp hrun
    rw [List.append_cons] at hids ⊢
    refine ih hrest (step_tracked hstep h fun d hd raw hmem => ?_) hids
    rw [arrivals_append, arrivals_append] at hids
    have hd' : d ∈ arrivals [e] := by
      rw [arrivals, List.filterMap_cons_some hd]
      exact List.mem_cons_self
    exact (List.nodup_append.mp (List.nodup_append.mp hids).1).2.2 d (mem_arrivals.mpr ⟨raw, hmem⟩)
      d hd' rfl

/-- What a step leaves running. -/
theorem running_step {s s' : Deliveries D} {e : Delivery D} (hstep : s.step sha256 e = some s')
    {d : D} (hne : ∀ raw, e ≠ sample d raw) {fp : Option String} :
    (d, fp) ∈ s'.running ↔ (d, fp) ∈ s.running ∧ ∀ ok, e ≠ settled d ok := by
  cases e with
  | sample d' raw =>
    have hd : d ≠ d' := by
      rintro rfl
      exact hne raw rfl
    have hall : ∀ ok, sample d' raw ≠ settled d ok := fun ok hbad => by cases hbad
    simp only [Deliveries.step] at hstep
    split at hstep
    · obtain rfl := Option.some.inj hstep
      exact (and_iff_left hall).symm
    · obtain rfl := Option.some.inj hstep
      rw [and_iff_left hall]
      refine ⟨fun hm => (List.mem_cons.mp hm).resolve_left ?_, List.mem_cons_of_mem _⟩
      exact fun heq => hd (Prod.mk.inj heq).1
  | settled d' ok =>
    simp only [Deliveries.step, Option.map_eq_some_iff] at hstep
    obtain ⟨fp₀, -, rfl⟩ := hstep
    rw [List.mem_filter, decide_eq_true_eq]
    refine and_congr_right fun _ => ⟨?_, ?_⟩
    · rintro hd ok' hbad
      exact hd (settled.inj hbad).1.symm
    · rintro hall rfl
      exact hall ok rfl

/-- What ends was running, unless it began in between. -/
theorem running_of_settled {es : List (Delivery D)} {s s' : Deliveries D}
    (hrun : Steps.run (Deliveries.step sha256) s es = some s') {d : D} {ok : Bool}
    (hmem : settled d ok ∈ es) (hout : d ∉ arrivals es) : ∃ fp, (d, fp) ∈ s.running := by
  induction es generalizing s with
  | nil => exact absurd hmem List.not_mem_nil
  | cons e es ih =>
    obtain ⟨s₁, hstep, hrest⟩ := Steps.run_cons_eq_some.mp hrun
    rw [← List.singleton_append, arrivals_append, List.mem_append, not_or] at hout
    have hne : ∀ raw, e ≠ sample d raw := by
      rintro raw rfl
      exact hout.1 (mem_arrivals.mpr ⟨raw, List.mem_cons_self⟩)
    rcases List.mem_cons.mp hmem with rfl | hmem
    · simp only [Deliveries.step, Option.map_eq_some_iff] at hstep
      obtain ⟨fp, hlook, -⟩ := hstep
      exact ⟨fp, Assoc.mem_of_lookup hlook⟩
    · obtain ⟨fp, hm⟩ := ih hrest hmem hout.2
      exact ⟨fp, ((running_step hstep hne).mp hm).1⟩

/-- A delivery ends once. -/
theorem settled_once {es : List (Delivery D)} {s s' : Deliveries D}
    (hrun : Steps.run (Deliveries.step sha256) s es = some s') {d : D} {ok ok' : Bool}
    (h : settled d ok ∈ es) (h' : settled d ok' ∈ es) (hout : d ∉ arrivals es) : ok = ok' := by
  induction es generalizing s with
  | nil => exact absurd h List.not_mem_nil
  | cons e es ih =>
    obtain ⟨s₁, hstep, hrest⟩ := Steps.run_cons_eq_some.mp hrun
    rw [← List.singleton_append, arrivals_append, List.mem_append, not_or] at hout
    have hne : ∀ raw, e ≠ sample d raw := by
      rintro raw rfl
      exact hout.1 (mem_arrivals.mpr ⟨raw, List.mem_cons_self⟩)
    have hlater : ∀ {b}, settled d b ∈ es → ∀ b', e ≠ settled d b' := by
      intro b hb
      obtain ⟨fp, hm⟩ := running_of_settled hrest hb hout.2
      exact ((running_step hstep hne).mp hm).2
    rcases List.mem_cons.mp h with heq | h
    · rcases List.mem_cons.mp h' with heq' | h'
      · exact (settled.inj (heq.trans heq'.symm)).2
      · exact absurd heq.symm (hlater h' ok)
    · rcases List.mem_cons.mp h' with heq | h'
      · exact absurd heq.symm (hlater h ok')
      · exact ih hrest h h' hout.2

/-- What is running ends, if at last nothing runs. -/
theorem settles {es : List (Delivery D)} {s s' : Deliveries D}
    (hrun : Steps.run (Deliveries.step sha256) s es = some s') (hend : s'.running = []) {d : D}
    {fp : Option String} (hm : (d, fp) ∈ s.running) (hout : d ∉ arrivals es) :
    ∃ ok, settled d ok ∈ es := by
  induction es generalizing s with
  | nil =>
    obtain rfl := Option.some.inj hrun
    rw [hend] at hm
    exact absurd hm List.not_mem_nil
  | cons e es ih =>
    obtain ⟨s₁, hstep, hrest⟩ := Steps.run_cons_eq_some.mp hrun
    rw [← List.singleton_append, arrivals_append, List.mem_append, not_or] at hout
    have hne : ∀ raw, e ≠ sample d raw := by
      rintro raw rfl
      exact hout.1 (mem_arrivals.mpr ⟨raw, List.mem_cons_self⟩)
    by_cases he : ∃ ok, e = settled d ok
    · obtain ⟨ok, rfl⟩ := he
      exact ⟨ok, List.mem_cons_self⟩
    · have hm' : (d, fp) ∈ s₁.running :=
        (running_step hstep hne).mpr ⟨hm, fun ok hbad => he ⟨ok, hbad⟩⟩
      obtain ⟨ok, hok⟩ := ih hrest hm' hout.2
      exact ⟨ok, List.mem_cons_of_mem _ hok⟩

/-! ### No message is lost -/

/-- The condition on what arrives: while a delivery that is going to fail is in progress, no sample
with its bytes arrives, unless these bytes were delivered before. -/
def NoFailingOverlap (es : List (Delivery D)) : Prop :=
  ∀ pre d raw post, es = pre ++ sample d raw :: post →
    ∀ d', sample d' raw ∈ pre → settled d' false ∈ post → Succeeded pre raw

/-- **Deduplication loses no message** in a run exactly when no sample overlaps a delivery of its
bytes that goes on to fail. -/
theorem dedup_lossless_iff (sha256 : Bytes → String) (dedup : Dedup) (enabled : dedup.window ≠ 0)
    (es : List (Delivery D)) (named : (arrivals es).Nodup)
    (collisionFree : ∀ d raw d' raw', sample d raw ∈ es → sample d' raw' ∈ es →
      sha256 raw = sha256 raw' → raw = raw')
    (complete : Deliveries.Complete sha256 dedup es) :
    Lossless sha256 dedup es ↔ NoFailingOverlap es := by
  obtain ⟨last, hlast, hend⟩ := complete
  -- the state in which a sample arrives
  have hat : ∀ {pre d raw post}, es = pre ++ sample d raw :: post →
      ∃ s s', Steps.run (Deliveries.step sha256) (.init dedup) pre = some s ∧
        s.Tracked sha256 pre ∧ s.step sha256 (sample d raw) = some s' ∧
        Steps.run (Deliveries.step sha256) s' post = some last ∧
        (∀ d', d' ∈ arrivals pre → d' ∉ arrivals (sample d raw :: post)) ∧
        ∀ d' raw', sample d' raw' ∈ pre → sha256 raw' = sha256 raw → raw' = raw := by
    rintro pre d raw post rfl
    obtain ⟨s, hpre, hpost⟩ := Steps.exists_run_append hlast
    obtain ⟨s', hstep, hrest⟩ := Steps.run_cons_eq_some.mp hpost
    have hsplit := named
    rw [arrivals_append] at hsplit
    refine ⟨s, s', hpre, ?_, hstep, hrest, fun d' hd' hbad => ?_, fun d' raw' hm heq => ?_⟩
    · exact run_tracked hpre (tracked_init enabled) (List.nodup_append.mp hsplit).1
    · exact (List.nodup_append.mp hsplit).2.2 d' hd' d' hbad rfl
    · exact collisionFree d' raw' d raw (List.mem_append_left _ hm)
        (List.mem_append_right _ List.mem_cons_self) heq
  constructor
  · intro h pre d raw post hes d' hbegan hfails
    obtain ⟨s, s', hpre, ht, hstep, hrest, hout, -⟩ := hat hes
    have hnames : (arrivals pre).Nodup := by
      rw [hes, arrivals_append] at named
      exact (List.nodup_append.mp named).1
    have hrun := Steps.run_cons_eq_some.mpr ⟨s', hstep, hrest⟩
    have hfind : ∀ {d₁ ok}, sample d₁ raw ∈ pre → settled d₁ ok ∈ post →
        d₁ ∉ arrivals (sample d raw :: post) ∧ (d₁, some (sha256 raw)) ∈ s.running := by
      intro d₁ ok hd₁ hok
      have hnot := hout d₁ (mem_arrivals.mpr ⟨raw, hd₁⟩)
      obtain ⟨fp, hm⟩ := running_of_settled hrun (List.mem_cons_of_mem _ hok) hnot
      obtain ⟨raw₁, ⟨hd₁', -⟩, rfl⟩ := ht.running d₁ fp hm
      obtain rfl := one_payload hnames hd₁ hd₁'
      exact ⟨hnot, hm⟩
    obtain ⟨hout', hm⟩ := hfind hbegan hfails
    -- the first delivery is under way, so the second is dropped
    have hdrops : s.Drops sha256 raw := by
      rcases @SubscribeWrapper.deliver_cases sha256 _ ht.window raw with
        ⟨seen, hd, -, -⟩ | ⟨-, -, hfree⟩
      · exact congrArg Prod.fst hd
      · exact absurd ((ht.inflight _).mpr ⟨d', hm⟩) hfree
    -- the delivery under way is the only one that could save the payload, and it fails
    refine (h pre d raw post s hes hpre hdrops).resolve_right ?_
    rintro ⟨d₂, ⟨hd₂, -⟩, hok⟩
    obtain rfl := ht.apart d₂ d' _ (hfind hd₂ hok).2 hm
    exact Bool.false_ne_true (settled_once hrun (List.mem_cons_of_mem _ hfails)
      (List.mem_cons_of_mem _ hok) hout')
  · intro h pre d raw post s hes hpre hdrops
    obtain ⟨s₀, s', hpre₀, ht, hstep, hrest, hout, hsame⟩ := hat hes
    obtain rfl := Option.some.inj (hpre₀.symm.trans hpre)
    rcases @SubscribeWrapper.deliver_cases sha256 _ ht.window raw with
      ⟨seen, hd, -, hwhy⟩ | ⟨hd, -, -⟩
    -- it was dropped for a delivery that succeeded, or for one under way
    · rcases hwhy with hseen | hfl
      · obtain ⟨raw', hok, hfp⟩ := ht.seen _ hseen
        obtain ⟨d', hbegan, -⟩ := id hok
        obtain rfl := hsame d' raw' hbegan hfp.symm
        exact Or.inl hok
      · obtain ⟨d', hm⟩ := (ht.inflight _).mp hfl
        obtain ⟨raw', hprog, hfp⟩ := ht.running d' _ hm
        obtain rfl := hsame d' raw' hprog.1 (Option.some.inj hfp).symm
        have hrun := Steps.run_cons_eq_some.mpr ⟨s', hstep, hrest⟩
        obtain ⟨ok, hok⟩ := settles hrun hend hm (hout d' (mem_arrivals.mpr ⟨_, hprog.1⟩))
        have hok' : settled d' ok ∈ post := (List.mem_cons.mp hok).resolve_left fun hbad => by
          cases hbad
        cases ok with
        | true => exact Or.inr ⟨d', hprog, hok'⟩
        | false => exact Or.inl (h pre d raw' post hes d' hprog.1 hok')
    · rw [Deliveries.Drops, hd] at hdrops
      cases hdrops

/-- The digest, as far as the following runs need it. -/
def digestOfOne (raw : Bytes) : String :=
  if raw = [1] then "4bf5122f344554c53bde2ebb8cd2b7e3d1600ad631c385a5d7cce23c7785459a" else ""

/-- A redelivery comes after the first delivery has failed. -/
def redelivered : List (Delivery ℕ) :=
  [sample 0 [1], settled 0 false, sample 1 [1], settled 1 true, sample 2 [1]]

theorem dedup_lossless_redelivered :
    Lossless digestOfOne (.flag true) redelivered ↔ NoFailingOverlap redelivered := by
  refine dedup_lossless_iff digestOfOne (.flag true) (by decide) redelivered (by decide) ?_
    ⟨_, rfl, rfl⟩
  intro d raw d' raw' h h' _
  simp only [redelivered, List.mem_cons, sample.injEq, reduceCtorEq, List.not_mem_nil, or_false,
    false_or] at h h'
  obtain ⟨-, rfl⟩ | ⟨-, rfl⟩ | ⟨-, rfl⟩ := h <;> obtain ⟨-, rfl⟩ | ⟨-, rfl⟩ | ⟨-, rfl⟩ := h' <;> rfl

/-- The redelivery comes while the first delivery, which is going to fail, is in progress. -/
def overlapping : List (Delivery ℕ) := [sample 0 [1], sample 1 [1], settled 0 false]

theorem dedup_loses_overlapping :
    Deliveries.Complete digestOfOne (.flag true) overlapping ∧
      ¬ Lossless digestOfOne (.flag true) overlapping := by
  refine ⟨⟨_, rfl, rfl⟩, fun h => ?_⟩
  rcases h [sample 0 [1]] 1 [1] [settled 0 false] _ rfl rfl rfl with
    ⟨d, -, hbad⟩ | ⟨d, -, hbad⟩
  · simp at hbad
  · simp at hbad

end Istos
