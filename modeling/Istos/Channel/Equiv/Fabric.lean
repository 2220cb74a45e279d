import Istos.Channel.Fabric

/-!
# Isolation of the sessions of a channel

A teardown means one session and finds another when a later session has taken its id.  As long as no
handshake is admitted for an id that is still in the map, nor after `unbind`, and no teardown comes
when the id of its session stands for a later one, each session is torn down alone
(`sessions_isolated`).  A run in which all handlers end is isolated in no other case.
-/

namespace Istos

open ChannelEvent

namespace FabricChannelServer

variable {graceful : Bool}

/-- The condition on an event. -/
def Safe (s : FabricChannelServer) : ChannelEvent → Prop
  | .accept i => s.unbound = false ∧ ∀ sid, s.opening[i]? = some sid → s.sessions.get? sid = none
  | .ends n => ∀ x, s.all[n]? = some x → x.started = true →
      ∀ m, s.sessions.get? x.sid = some (x.sid, m) → m = n
  | .drop n => ∀ x, s.all[n]? = some x → ∀ m, s.sessions.get? x.sid = some (x.sid, m) → m = n
  | _ => True

/-- The sessions in the map are the open ones. -/
structure Indexed (s : FabricChannelServer) : Prop where
  entry : ∀ sid n, s.sessions.get? sid = some (sid, n) → ∃ x, s.all[n]? = some x ∧ x.sid = sid ∧
    x.closed = false ∧ x.subscribed = true ∧ x.cancelled = false ∧ x.timer = false ∧ x.done = false
  rest : ∀ n x, s.all[n]? = some x → s.sessions.get? x.sid ≠ some (x.sid, n) →
    x.closed = true ∧ x.subscribed = false
  unbound : s.unbound = true → ∀ sid, s.sessions.get? sid = none

theorem indexed_init : init.Indexed where
  entry := fun sid n h => by cases h
  rest := fun n x h => by cases h
  unbound := fun h => by cases h

/-! ### The teardown -/

theorem getElem?_modify (s : FabricChannelServer) (n : ℕ) (f : ServerSession → ServerSession)
    (m : ℕ) :
    (s.modify n f).all[m]? = if n = m then s.all[m]?.map f else s.all[m]? := by
  rw [modify, List.getElem?_modify]
  split
  · rfl
  · exact congrFun Option.map_id s.all[m]?

/-- An entry of the map has the id under which it is found. -/
theorem get?_eq {s : FabricChannelServer} {sid sid' : String} {n : ℕ}
    (h : s.sessions.get? sid = some (sid', n)) : sid' = sid := Table.key_of_get? h

theorem get?_teardown (s : FabricChannelServer) (current : Option ℕ) (sid sid' : String) :
    (s.teardown graceful current sid).sessions.get? sid' =
      if sid' = sid then none else s.sessions.get? sid' := by
  unfold teardown
  cases h : s.sessions.get? sid with
  | none =>
    by_cases hsid : sid' = sid
    · rw [if_pos hsid, hsid]
      exact h
    · rw [if_neg hsid]
  | some y => exact Table.get?_erase s.sessions sid sid'

/-- It changes the session that the map has under the id, and no other. -/
theorem getElem?_teardown (s : FabricChannelServer) (current : Option ℕ) (sid : String) (m : ℕ) :
    (s.teardown graceful current sid).all[m]? =
      if s.sessions.get? sid = some (sid, m)
      then s.all[m]?.map (.release graceful (current = some m)) else s.all[m]? := by
  unfold teardown
  cases h : s.sessions.get? sid with
  | none => rw [if_neg (by simp)]
  | some y =>
    obtain ⟨sid', n⟩ := y
    obtain rfl := get?_eq h
    rw [getElem?_modify]
    by_cases hn : n = m
    · subst hn
      rw [if_pos rfl, if_pos rfl]
    · rw [if_neg hn, if_neg (by simpa using hn)]

theorem unbound_teardown (s : FabricChannelServer) (current : Option ℕ) (sid : String) :
    (s.teardown graceful current sid).unbound = s.unbound := by
  unfold teardown
  split <;> rfl

theorem release_flags (graceful current : Bool) (x : ServerSession) :
    (x.release graceful current).sid = x.sid ∧ (x.release graceful current).closed = true ∧
      (x.release graceful current).subscribed = false ∧
      (x.release graceful current).done = x.done := by
  unfold ServerSession.release
  dsimp only
  split
  · exact ⟨rfl, rfl, rfl, rfl⟩
  · split <;> exact ⟨rfl, rfl, rfl, rfl⟩

/-- Sessions under different ids are different. -/
theorem Indexed.ne_of_sid {s : FabricChannelServer} (h : s.Indexed) {sid sid' : String} {n n' : ℕ}
    (hn : s.sessions.get? sid = some (sid, n)) (hn' : s.sessions.get? sid' = some (sid', n'))
    (hne : sid ≠ sid') : n ≠ n' := by
  rintro rfl
  obtain ⟨x, hx, hsid, -⟩ := h.entry sid n hn
  obtain ⟨x', hx', hsid', -⟩ := h.entry sid' n hn'
  obtain rfl := Option.some.inj (hx.symm.trans hx')
  exact hne (hsid.symm.trans hsid')

theorem Indexed.teardown {s : FabricChannelServer} (h : s.Indexed) (current : Option ℕ)
    (sid : String) : (s.teardown graceful current sid).Indexed where
  entry := by
    intro sid' n hn
    rw [get?_teardown] at hn
    split at hn
    · cases hn
    · rename_i hne
      rw [getElem?_teardown]
      rw [if_neg fun hsid => h.ne_of_sid hn hsid hne rfl]
      exact h.entry sid' n hn
  rest := by
    intro n x hx hout
    rw [getElem?_teardown] at hx
    rw [get?_teardown] at hout
    split at hx
    · obtain ⟨y, -, rfl⟩ := Option.map_eq_some_iff.mp hx
      obtain ⟨-, hclosed, hsub, -⟩ := release_flags graceful (current = some n) y
      exact ⟨hclosed, hsub⟩
    · rename_i hno
      refine h.rest n x hx fun hbad => ?_
      by_cases hsid : x.sid = sid
      · exact hno (hsid ▸ hbad)
      · rw [if_neg hsid] at hout
        exact hout hbad
  unbound := by
    intro hu sid'
    rw [get?_teardown, h.unbound (by rwa [unbound_teardown] at hu)]
    split <;> rfl

/-- Flags of a session that is not in the map may change. -/
theorem Indexed.modify {s : FabricChannelServer} (h : s.Indexed) {n : ℕ}
    {f : ServerSession → ServerSession}
    (keeps : ∀ x, (f x).sid = x.sid ∧ (f x).closed = x.closed ∧ (f x).subscribed = x.subscribed)
    (quiet : (∀ sid, s.sessions.get? sid ≠ some (sid, n)) ∨
      ∀ x, (f x).cancelled = x.cancelled ∧ (f x).timer = x.timer ∧ (f x).done = x.done) :
    (s.modify n f).Indexed where
  entry := by
    intro sid m hm
    have hm' : s.sessions.get? sid = some (sid, m) := hm
    obtain ⟨x, hx, hsid, hclosed, hsub, hcancelled, htimer, hdone⟩ := h.entry sid m hm'
    rw [getElem?_modify]
    split
    · rename_i heq
      subst heq
      obtain ⟨k₁, k₂, k₃⟩ := keeps x
      rcases quiet with hout | hsame
      · exact absurd hm' (hout sid)
      · obtain ⟨k₄, k₅, k₆⟩ := hsame x
        refine ⟨f x, by rw [hx, Option.map_some], k₁.trans hsid, k₂.trans hclosed, k₃.trans hsub,
          k₄.trans hcancelled, k₅.trans htimer, k₆.trans hdone⟩
    · exact ⟨x, hx, hsid, hclosed, hsub, hcancelled, htimer, hdone⟩
  rest := by
    intro m x hx hout
    rw [getElem?_modify] at hx
    split at hx
    · obtain ⟨y, hy, rfl⟩ := Option.map_eq_some_iff.mp hx
      obtain ⟨k₁, k₂, k₃⟩ := keeps y
      rw [k₂, k₃]
      rw [k₁] at hout
      exact h.rest m y hy hout
    · exact h.rest m x hx hout
  unbound := h.unbound

/-! ### `unbind` -/

theorem foldl_teardown (sids : List String) (s : FabricChannelServer) (h : s.Indexed) :
    (sids.foldl (fun s sid => s.teardown false none sid) s).Indexed ∧
      ∀ sid, (sids.foldl (fun s sid => s.teardown false none sid) s).sessions.get? sid
        = if sid ∈ sids then none else s.sessions.get? sid := by
  induction sids generalizing s with
  | nil => exact ⟨h, fun sid => (if_neg List.not_mem_nil).symm⟩
  | cons sid sids ih =>
    obtain ⟨hi, hget⟩ := ih (s.teardown false none sid) (h.teardown none sid)
    refine ⟨hi, fun sid' => ?_⟩
    rw [List.foldl_cons, hget, get?_teardown]
    by_cases hsid : sid' = sid
    · rw [if_pos hsid, if_pos (List.mem_cons.mpr (Or.inl hsid)), ite_self]
    · rw [if_neg hsid]
      by_cases hmem : sid' ∈ sids
      · rw [if_pos hmem, if_pos (List.mem_cons_of_mem _ hmem)]
      · rw [if_neg hmem, if_neg (by simp [hsid, hmem])]

/-! ### One event -/

/-- What the end of a handler leaves: its session is gone, in the map and outside. -/
theorem ends_cases {s s' : FabricChannelServer} {n : ℕ} (h : s.step graceful (ends n) = some s') :
    ∃ x, s.all[n]? = some x ∧ x.done = false ∧
      (x.started = true ∧
          s' = (s.teardown graceful (some n) x.sid).modify n (fun x => { x with done := true }) ∨
        x.started = false ∧ x.cancelled = true ∧
          s' = s.modify n fun x => { x with done := true }) := by
  simp only [step] at h
  cases hx : s.all[n]? with
  | none =>
    rw [hx] at h
    cases h
  | some x =>
    simp only [hx] at h
    refine ⟨x, rfl, ?_⟩
    by_cases hdone : x.done = true
    · rw [if_pos hdone] at h
      cases h
    · rw [if_neg hdone] at h
      refine ⟨Bool.eq_false_iff.mpr hdone, ?_⟩
      by_cases hstarted : x.started = true
      · rw [if_pos hstarted] at h
        exact Or.inl ⟨hstarted, (Option.some.inj h).symm⟩
      · rw [if_neg hstarted] at h
        by_cases hcancelled : x.cancelled = true
        · rw [if_pos hcancelled] at h
          exact Or.inr ⟨Bool.eq_false_iff.mpr hstarted, hcancelled, (Option.some.inj h).symm⟩
        · rw [if_neg hcancelled] at h
          cases h

theorem drop_cases {s s' : FabricChannelServer} {n : ℕ} (h : s.step graceful (drop n) = some s') :
    ∃ x, s.all[n]? = some x ∧ s' = s.teardown graceful none x.sid := by
  obtain ⟨x, hx, rfl⟩ := Option.map_eq_some_iff.mp h
  exact ⟨x, hx, rfl⟩

theorem timer_cases {s s' : FabricChannelServer} {n : ℕ} (h : s.step graceful (timer n) = some s') :
    ∃ x, s.all[n]? = some x ∧ x.timer = true ∧
      s' = s.modify n fun x => { x with timer := false, cancelled := x.cancelled || !x.done } := by
  simp only [step] at h
  cases hx : s.all[n]? with
  | none =>
    rw [hx] at h
    cases h
  | some x =>
    simp only [hx] at h
    by_cases ht : x.timer = true
    · rw [if_pos ht] at h
      exact ⟨x, rfl, ht, (Option.some.inj h).symm⟩
    · rw [if_neg ht] at h
      cases h

/-- A session that is to be cancelled, or is done, is not in the map. -/
theorem Indexed.out {s : FabricChannelServer} (h : s.Indexed) {n : ℕ} {x : ServerSession}
    (hx : s.all[n]? = some x) (hflag : x.cancelled = true ∨ x.timer = true ∨ x.done = true)
    (sid : String) : s.sessions.get? sid ≠ some (sid, n) := by
  intro hbad
  obtain ⟨y, hy, -, -, -, hcancelled, htimer, hdone⟩ := h.entry sid n hbad
  obtain rfl := Option.some.inj (hx.symm.trans hy)
  rcases hflag with hf | hf | hf
  · rw [hcancelled] at hf
    cases hf
  · rw [htimer] at hf
    cases hf
  · rw [hdone] at hf
    cases hf

/-- After a teardown by its own id a session is not in the map, if it was there under no other
number's name. -/
theorem Indexed.out_teardown {s : FabricChannelServer} (h : s.Indexed) {n : ℕ} {x : ServerSession}
    (hx : s.all[n]? = some x) (current : Option ℕ) (sid : String) :
    (s.teardown graceful current x.sid).sessions.get? sid ≠ some (sid, n) := by
  rw [get?_teardown]
  split
  · exact fun hbad => by cases hbad
  · rename_i hne
    intro hbad
    obtain ⟨y, hy, hsid, -⟩ := h.entry sid n hbad
    obtain rfl := Option.some.inj (hx.symm.trans hy)
    exact hne hsid.symm

/-- **One event** keeps the map right, if it is safe. -/
theorem Indexed.step {s s' : FabricChannelServer} {e : ChannelEvent} (h : s.Indexed)
    (hstep : s.step graceful e = some s') (hsafe : s.Safe e) : s'.Indexed := by
  cases e with
  | request sid =>
    simp only [FabricChannelServer.step] at hstep
    split at hstep
    · cases hstep
    · obtain rfl := Option.some.inj hstep
      exact ⟨h.entry, h.rest, h.unbound⟩
  | accept i =>
    obtain ⟨sid, hsid, rfl⟩ := Option.map_eq_some_iff.mp hstep
    obtain ⟨hbound, hfree⟩ := hsafe
    -- the id is free, so no session loses its entry
    have hnone := hfree sid hsid
    refine ⟨fun sid' n hn => ?_, fun n x hx hout => ?_, fun hu => ?_⟩
    · dsimp only at hn
      rw [Table.get?_put] at hn
      split at hn
      · rename_i heq
        obtain ⟨-, rfl⟩ := Prod.mk.inj (Option.some.inj hn)
        refine ⟨.opened sid, ?_, heq.symm, rfl, rfl, rfl, rfl, rfl⟩
        rw [List.getElem?_append_right (Nat.le_refl _), Nat.sub_self]
        rfl
      · obtain ⟨x, hx, hrest⟩ := h.entry sid' n hn
        exact ⟨x, (List.getElem?_append_left (List.getElem?_eq_some_iff.mp hx).1).trans hx, hrest⟩
    · dsimp only at hout hx
      rw [Table.get?_put] at hout
      rcases Nat.lt_or_ge n s.all.length with hlt | hge
      · rw [List.getElem?_append_left hlt] at hx
        split at hout
        · rename_i heq
          refine h.rest n x hx fun hbad => ?_
          rw [heq, hnone] at hbad
          cases hbad
        · exact h.rest n x hx hout
      · rw [List.getElem?_append_right hge] at hx
        obtain ⟨hlt, rfl⟩ := List.getElem?_eq_some_iff.mp hx
        obtain rfl : n = s.all.length := by
          rw [List.length_singleton] at hlt
          omega
        rw [List.getElem_singleton] at hout
        exact absurd (if_pos rfl) hout
    · rw [hbound] at hu
      cases hu
  | deny i =>
    obtain ⟨sid, -, rfl⟩ := Option.map_eq_some_iff.mp hstep
    exact ⟨h.entry, h.rest, h.unbound⟩
  | starts n =>
    simp only [FabricChannelServer.step] at hstep
    split at hstep
    · cases hstep
    · split at hstep
      · cases hstep
      · obtain rfl := Option.some.inj hstep
        exact h.modify (fun x => ⟨rfl, rfl, rfl⟩) (Or.inr fun x => ⟨rfl, rfl, rfl⟩)
  | ends n =>
    obtain ⟨x, hx, -, ⟨-, rfl⟩ | ⟨-, hcancelled, rfl⟩⟩ := ends_cases hstep
    · exact (h.teardown (some n) x.sid).modify (fun x => ⟨rfl, rfl, rfl⟩)
        (Or.inl (h.out_teardown hx (some n)))
    · exact h.modify (fun x => ⟨rfl, rfl, rfl⟩) (Or.inl (h.out hx (Or.inl hcancelled)))
  | drop n =>
    obtain ⟨x, hx, rfl⟩ := drop_cases hstep
    exact h.teardown none x.sid
  | timer n =>
    obtain ⟨x, hx, htimer, rfl⟩ := timer_cases hstep
    exact h.modify (fun x => ⟨rfl, rfl, rfl⟩) (Or.inl (h.out hx (Or.inr (Or.inl htimer))))
  | unbind =>
    obtain rfl := Option.some.inj hstep
    obtain ⟨hi, hget⟩ := foldl_teardown s.sessions.keys s h
    refine ⟨hi.entry, hi.rest, fun _ sid => ?_⟩
    show (s.sessions.keys.foldl (fun s sid => s.teardown false none sid) s).sessions.get? sid = none
    rw [hget]
    split
    · rfl
    · rename_i hno
      exact Table.get?_eq_none_iff.mpr hno

/-- **One event** of a session changes no other, if it is safe. -/
theorem step_alone {s s' : FabricChannelServer} {e : ChannelEvent} {n : ℕ}
    (hstep : s.step graceful e = some s') (hsafe : s.Safe e) (he : e.session? = some n) {m : ℕ}
    (hm : m ≠ n) : s'.all[m]? = s.all[m]? := by
  cases e with
  | ends n' =>
    obtain rfl := Option.some.inj he
    obtain ⟨x, hx, -, ⟨hstarted, rfl⟩ | ⟨-, -, rfl⟩⟩ := ends_cases hstep
    · rw [getElem?_modify, if_neg hm.symm, getElem?_teardown,
        if_neg fun hbad => hm (hsafe x hx hstarted m hbad)]
    · rw [getElem?_modify, if_neg hm.symm]
  | drop n' =>
    obtain rfl := Option.some.inj he
    obtain ⟨x, hx, rfl⟩ := drop_cases hstep
    rw [getElem?_teardown, if_neg fun hbad => hm (hsafe x hx m hbad)]
  | timer n' =>
    obtain rfl := Option.some.inj he
    obtain ⟨x, -, -, rfl⟩ := timer_cases hstep
    rw [getElem?_modify, if_neg hm.symm]
  | request sid => cases he
  | accept i => cases he
  | deny i => cases he
  | starts n' => cases he
  | unbind => cases he

/-- The end of a handler, and the drop of a token, tear the session down. -/
theorem Indexed.torn {s s' : FabricChannelServer} (h : s.Indexed) {n : ℕ} {e : ChannelEvent}
    (he : e = ends n ∨ e = drop n) (hstep : s.step graceful e = some s') {x : ServerSession}
    (hx : s'.all[n]? = some x) : x.closed = true ∧ x.subscribed = false := by
  have hfalls : ∀ {current : Option ℕ} {y z : ServerSession}, s.all[n]? = some y →
      (s.teardown graceful current y.sid).all[n]? = some z → z.closed = true ∧
          z.subscribed = false :=
    fun hy hz => (h.teardown _ _).rest n _ hz (h.out_teardown hy _ _)
  obtain rfl | rfl := he
  · obtain ⟨y, hy, -, ⟨-, rfl⟩ | ⟨-, hcancelled, rfl⟩⟩ := ends_cases hstep
    · rw [getElem?_modify, if_pos rfl] at hx
      obtain ⟨z, hz, rfl⟩ := Option.map_eq_some_iff.mp hx
      have hz' := hfalls hy hz
      exact hz'
    · rw [getElem?_modify, if_pos rfl] at hx
      obtain ⟨z, hz, rfl⟩ := Option.map_eq_some_iff.mp hx
      obtain rfl := Option.some.inj (hy.symm.trans hz)
      exact h.rest n y hy (h.out hy (Or.inl hcancelled) _)
  · obtain ⟨y, hy, rfl⟩ := drop_cases hstep
    exact hfalls hy hx

/-! ### Sessions that nobody will tear down -/

/-- A session with an up-subscriber that is not in the map. -/
def Orphan (s : FabricChannelServer) (m : ℕ) : Prop :=
  (∃ x, s.all[m]? = some x ∧ x.subscribed = true) ∧ ∀ sid, s.sessions.get? sid ≠ some (sid, m)

theorem Orphan.teardown {s : FabricChannelServer} {m : ℕ} (h : s.Orphan m) (current : Option ℕ)
    (sid : String) : (s.teardown graceful current sid).Orphan m := by
  obtain ⟨⟨x, hx, hsub⟩, hout⟩ := h
  refine ⟨⟨x, by rw [getElem?_teardown, if_neg (hout sid), hx], hsub⟩, fun sid' hbad => ?_⟩
  rw [get?_teardown] at hbad
  split at hbad
  · cases hbad
  · exact hout sid' hbad

theorem Orphan.modify {s : FabricChannelServer} {m : ℕ} (h : s.Orphan m) (n : ℕ)
    {f : ServerSession → ServerSession} (keeps : ∀ x, (f x).subscribed = x.subscribed) :
    (s.modify n f).Orphan m := by
  obtain ⟨⟨x, hx, hsub⟩, hout⟩ := h
  refine ⟨?_, hout⟩
  rw [getElem?_modify, hx]
  split
  · exact ⟨f x, rfl, (keeps x).trans hsub⟩
  · exact ⟨x, rfl, hsub⟩

/-- It stays so. -/
theorem Orphan.step {s s' : FabricChannelServer} {m : ℕ} {e : ChannelEvent} (h : s.Orphan m)
    (hstep : s.step graceful e = some s') : s'.Orphan m := by
  cases e with
  | request sid =>
    simp only [FabricChannelServer.step] at hstep
    split at hstep
    · cases hstep
    · obtain rfl := Option.some.inj hstep
      exact h
  | accept i =>
    obtain ⟨sid, -, rfl⟩ := Option.map_eq_some_iff.mp hstep
    obtain ⟨⟨x, hx, hsub⟩, hout⟩ := h
    have hlt := (List.getElem?_eq_some_iff.mp hx).1
    refine ⟨⟨x, (List.getElem?_append_left hlt).trans hx, hsub⟩, fun sid' hbad => ?_⟩
    dsimp only at hbad
    rw [Table.get?_put] at hbad
    split at hbad
    · have hm : s.all.length = m := (Prod.mk.inj (Option.some.inj hbad)).2
      omega
    · exact hout sid' hbad
  | deny i =>
    obtain ⟨sid, -, rfl⟩ := Option.map_eq_some_iff.mp hstep
    exact h
  | starts n =>
    simp only [FabricChannelServer.step] at hstep
    split at hstep
    · cases hstep
    · split at hstep
      · cases hstep
      · obtain rfl := Option.some.inj hstep
        exact h.modify n fun x => rfl
  | ends n =>
    obtain ⟨x, -, -, ⟨-, rfl⟩ | ⟨-, -, rfl⟩⟩ := ends_cases hstep
    · exact (h.teardown (some n) x.sid).modify n fun x => rfl
    · exact h.modify n fun x => rfl
  | drop n =>
    obtain ⟨x, -, rfl⟩ := drop_cases hstep
    exact h.teardown none x.sid
  | timer n =>
    obtain ⟨x, -, -, rfl⟩ := timer_cases hstep
    exact h.modify n fun x => rfl
  | unbind =>
    obtain rfl := Option.some.inj hstep
    have hall : ∀ (sids : List String) (t : FabricChannelServer), t.Orphan m →
        (sids.foldl (fun s sid => s.teardown false none sid) t).Orphan m := by
      intro sids
      induction sids with
      | nil => exact fun t ht => ht
      | cons sid sids ih => exact fun t ht => ih _ (ht.teardown none sid)
    exact hall s.sessions.keys s h

/-! ### Runs -/

/-- A sequence of events. -/
def run (graceful : Bool) (es : List ChannelEvent) : Option FabricChannelServer :=
  Steps.run (step graceful) init es

/-- **The sessions are isolated** in a run. -/
structure Isolated (graceful : Bool) (es : List ChannelEvent) : Prop where
  /-- the end of a handler, the drop of a token and the end of a grace change one session -/
  alone : ∀ pre e post s s' n, es = pre ++ e :: post → run graceful pre = some s →
    s.step graceful e = some s' → e.session? = some n → ∀ m, m ≠ n → s'.all[m]? = s.all[m]?
  /-- the end of a handler and the drop of a token close the session and undeclare its subscriber -/
  torn : ∀ pre e post s s' n x, es = pre ++ e :: post → run graceful pre = some s →
    s.step graceful e = some s' → e = ends n ∨ e = drop n → s'.all[n]? = some x →
    x.closed = true ∧ x.subscribed = false
  /-- no session whose handler is over has an up-subscriber -/
  unsubscribed : ∀ pre s, pre <+: es → run graceful pre = some s →
    ∀ x ∈ s.all, x.done = true → x.subscribed = false
  /-- after `unbind` no session is open, and no up-subscriber is declared -/
  unbound : ∀ pre s, pre <+: es → run graceful pre = some s → s.unbound = true →
    (∀ sid, s.sessions.get? sid = none) ∧ ∀ x ∈ s.all, x.closed = true ∧ x.subscribed = false

theorem run_indexed {es : List ChannelEvent} {s : FabricChannelServer}
    (hrun : run graceful es = some s) (hsafe : Steps.Along (step graceful) Safe init es) :
    s.Indexed :=
  Steps.run_invariant (fun _ _ _ hstep hcond h => h.step hstep hcond) hrun hsafe indexed_init

theorem run_isolated {es : List ChannelEvent}
    (hsafe : Steps.Along (step graceful) Safe init es) : Isolated graceful es where
  alone := by
    rintro pre e post s s' n rfl hpre hstep he m hm
    exact step_alone hstep (hsafe.split hpre).2 he hm
  torn := by
    rintro pre e post s s' n x rfl hpre hstep he hx
    exact (run_indexed hpre (hsafe.split hpre).1).torn he hstep hx
  unsubscribed := by
    rintro pre s ⟨post, rfl⟩ hpre x hx hdone
    have h := run_indexed hpre hsafe.of_append
    obtain ⟨n, hn⟩ := List.mem_iff_getElem?.mp hx
    exact (h.rest n x hn (h.out hn (Or.inr (Or.inr hdone)) _)).2
  unbound := by
    rintro pre s ⟨post, rfl⟩ hpre hunbound
    have h := run_indexed hpre hsafe.of_append
    refine ⟨h.unbound hunbound, fun x hx => ?_⟩
    obtain ⟨n, hn⟩ := List.mem_iff_getElem?.mp hx
    refine h.rest n x hn ?_
    rw [h.unbound hunbound]
    exact (Option.some_ne_none _).symm

/-- An orphan's handler ends, and its up-subscriber stays. -/
theorem not_isolated_of_orphan {pre post : List ChannelEvent} {s last : FabricChannelServer} {m : ℕ}
    (hpre : run graceful pre = some s) (h : s.Orphan m)
    (hrun : run graceful (pre ++ post) = some last)
    (hended : ∀ x ∈ last.all, x.done = true) : ¬ Isolated graceful (pre ++ post) := by
  intro hiso
  obtain ⟨s', hpre', hpost⟩ := Steps.exists_run_append hrun
  obtain rfl := Option.some.inj (hpre.symm.trans hpre')
  have hkept : ∀ t e t', step graceful t e = some t' → t.Orphan m → t'.Orphan m :=
    fun _ _ _ hstep h => h.step hstep
  have horphan : last.Orphan m := Steps.run_invariant_true hkept hpost h
  obtain ⟨⟨x, hx, hsub⟩, -⟩ := horphan
  have hmem : x ∈ last.all := List.mem_of_getElem? hx
  rw [hiso.unsubscribed _ last (List.prefix_refl _) hrun x hmem (hended x hmem)] at hsub
  cases hsub

/-- A teardown that finds another session changes it. -/
theorem teardown_other {s : FabricChannelServer} (h : s.Indexed) {sid : String} {m : ℕ}
    (hm : s.sessions.get? sid = some (sid, m)) (current : Option ℕ) :
    (s.teardown graceful current sid).all[m]? ≠ s.all[m]? := by
  obtain ⟨y, hy, -, hclosed, -⟩ := h.entry sid m hm
  rw [getElem?_teardown, if_pos hm, hy, Option.map_some]
  intro hbad
  have hreleased := (release_flags graceful (current = some m) y).2.1
  rw [Option.some.inj hbad, hclosed] at hreleased
  cases hreleased

/-- **Sessions of a channel are isolated** in every run whose events are safe; and a run in which
every handler ends is isolated in no other case. -/
theorem sessions_isolated (graceful : Bool) (es : List ChannelEvent) {last : FabricChannelServer}
    (hrun : run graceful es = some last) :
    (Steps.Along (step graceful) Safe init es → Isolated graceful es) ∧
      ((∀ x ∈ last.all, x.done = true) → Isolated graceful es →
        Steps.Along (step graceful) Safe init es) := by
  refine ⟨run_isolated, fun hended hiso => ?_⟩
  by_contra hno
  obtain ⟨pre, e, post, s, rfl, hpre, hsafe, hunsafe⟩ := Steps.exists_first_failure hrun hno
  have h := run_indexed hpre hsafe
  obtain ⟨t, hpre', hpost⟩ := Steps.exists_run_append hrun
  obtain rfl := Option.some.inj (hpre.symm.trans hpre')
  obtain ⟨s', hstep, hrest⟩ := Steps.run_cons_eq_some.mp hpost
  have hone : run graceful (pre ++ [e]) = some s' :=
    Steps.run_append_eq_some hpre (Steps.run_cons_eq_some.mpr ⟨s', hstep, rfl⟩)
  cases e with
  | accept i =>
    obtain ⟨sid, hsid, rfl⟩ := Option.map_eq_some_iff.mp hstep
    cases hunbound : s.unbound with
    | true =>
      -- a session that is opened after `unbind` is not closed by it
      have hnew : ServerSession.opened sid ∈ s.all ++ [.opened sid] :=
        List.mem_append_right _ List.mem_cons_self
      have hclosed := ((hiso.unbound _ _ ⟨post, by rw [List.append_assoc]; rfl⟩ hone hunbound).2 _
        hnew).1
      cases hclosed
    | false =>
      -- the id is in use: its session is overwritten, and no end of a handler finds it
      obtain ⟨m, hm⟩ : ∃ m, s.sessions.get? sid = some (sid, m) := by
        by_contra hnone
        refine hunsafe ⟨hunbound, fun sid' hsid' => ?_⟩
        obtain rfl := Option.some.inj (hsid.symm.trans hsid')
        cases hget : s.sessions.get? sid with
        | none => rfl
        | some y =>
          obtain ⟨sid', m⟩ := y
          obtain rfl := get?_eq hget
          exact absurd ⟨m, hget⟩ hnone
      obtain ⟨y, hy, hysid, -, hsub, -⟩ := h.entry sid m hm
      have hlt := (List.getElem?_eq_some_iff.mp hy).1
      refine @not_isolated_of_orphan _ _ post _ last m hone
        ⟨⟨y, (List.getElem?_append_left hlt).trans hy, hsub⟩, fun sid' hbad => ?_⟩ ?_ hended ?_
      · dsimp only at hbad
        rw [Table.get?_put] at hbad
        split at hbad
        · have hm' : s.all.length = m := (Prod.mk.inj (Option.some.inj hbad)).2
          omega
        · rename_i hne
          exact h.ne_of_sid hm hbad (fun heq => hne heq.symm) rfl
      · rw [List.append_assoc]
        exact hrun
      · rw [List.append_assoc]
        exact hiso
  | ends n =>
    -- the id has been reopened, and the end of the first handler tears the new session down
    simp only [Safe, not_forall] at hunsafe
    obtain ⟨x, hx, hstarted, m, hm, hne⟩ := hunsafe
    obtain ⟨y, hy, -, ⟨-, rfl⟩ | ⟨hnot, -, -⟩⟩ := ends_cases hstep
    · obtain rfl := Option.some.inj (hx.symm.trans hy)
      have hsame := hiso.alone pre (ends n) post s _ n rfl hpre hstep rfl m hne
      rw [getElem?_modify, if_neg fun heq => hne heq.symm] at hsame
      exact teardown_other h hm (some n) hsame
    · obtain rfl := Option.some.inj (hx.symm.trans hy)
      rw [hstarted] at hnot
      cases hnot
  | drop n =>
    simp only [Safe, not_forall] at hunsafe
    obtain ⟨x, hx, m, hm, hne⟩ := hunsafe
    obtain ⟨y, hy, rfl⟩ := drop_cases hstep
    obtain rfl := Option.some.inj (hx.symm.trans hy)
    exact teardown_other h hm none (hiso.alone pre (drop n) post s _ n rfl hpre hstep rfl m hne)
  | request sid => exact hunsafe trivial
  | deny i => exact hunsafe trivial
  | starts n => exact hunsafe trivial
  | timer n => exact hunsafe trivial
  | unbind => exact hunsafe trivial

/-- Two sessions one after the other under one id. -/
def reopened : List ChannelEvent :=
  [request "a", accept 0, starts 0, ends 0, request "a", accept 0, starts 1, drop 1, ends 1, unbind]

theorem isolated_reopened : Isolated true reopened := by
  refine (sessions_isolated true reopened rfl).1 ⟨trivial, ⟨rfl, fun sid h => ?_⟩, trivial,
    fun x hx _ m hm => ?_, trivial, ⟨rfl, fun sid h => ?_⟩, trivial, fun x hx m hm => ?_,
    fun x hx _ m hm => ?_, trivial, trivial⟩
  · obtain rfl := Option.some.inj h
    rfl
  · obtain rfl := Option.some.inj hx
    exact (Prod.mk.inj (Option.some.inj hm)).2.symm
  · obtain rfl := Option.some.inj h
    rfl
  · obtain rfl := Option.some.inj hx
    exact (Prod.mk.inj (Option.some.inj hm)).2.symm
  · obtain rfl := Option.some.inj hx
    cases hm

/-- An id is used a second time, and the end of the first handler tears the second session down. -/
def stolen : List ChannelEvent :=
  [request "a", accept 0, starts 0, request "a", accept 0, starts 1, ends 0]

theorem not_isolated_stolen : (run true stolen).isSome = true ∧ ¬ Isolated true stolen := by
  refine ⟨rfl, fun h => ?_⟩
  have hsame := h.alone [request "a", accept 0, starts 0, request "a", accept 0, starts 1] (ends 0)
    [] _ _ 0 rfl rfl rfl rfl 1 (by decide)
  revert hsame
  decide

end FabricChannelServer

end Istos
