import Istos.Channel.Inbox
import Mathlib.Data.List.ReduceOption

/-!
# A closed channel stays closed

Where no message is put into the queue behind the mark of the end, the queue holds the messages that
are still to be received, and the mark behind them once the channel is closed.
-/

namespace Istos

namespace ChannelEnd

variable {M C : Type}

/-- The messages that were received, in order. -/
def delivered (s : ChannelEnd M C) : List M := s.log.filterMap fun x => x.2.message?

/-- A `receive` has raised `ChannelClosed`. -/
def Raised (s : ChannelEnd M C) : Prop := ∃ c, (c, .closed) ∈ s.log

/-- The law of an end of a channel. -/
structure Lawful (s : ChannelEnd M C) : Prop where
  /-- what was queued before the close is received once and in order, as far as it is not queued
  still -/
  inOrder : s.delivered ++ s.inbound.items.reduceOption = s.queued
  /-- a `receive` raises when all of it is received -/
  all : s.Raised → s.delivered = s.queued
  /-- after one has raised, all raise -/
  final : ∀ before c after, s.log = before ++ (c, .closed) :: after → ∀ x ∈ after, x.2 = .closed
  /-- a `receive` that begins then raises at once -/
  unblocked : s.Raised → s.inbound.items.head? = some none
  /-- and one that has waited is woken -/
  awake : s.Raised → s.inbound.woken = [] → s.inbound.waiting = []

/-! ### The invariant -/

/-- The queue holds what is pending, and the mark once the channel is closed; so many calls have
raised. -/
structure Holds (s : ChannelEnd M C) (pending : List M) (raised : ℕ) : Prop where
  items : s.inbound.items = pending.map some ++ if s.closed then [none] else []
  log : s.log.map Prod.snd = s.delivered.map .message ++ List.replicate raised .closed
  queued : s.delivered ++ pending = s.queued
  last : 0 < raised → s.closed = true ∧ pending = []
  awake : s.inbound.Awake

namespace Holds

variable {s : ChannelEnd M C} {pending : List M} {raised : ℕ}

theorem putNowait (h : s.Holds pending raised) (hopen : s.closed = false) (m : M) :
    (s.putNowait m).Holds (pending ++ [m]) raised where
  items := by
    have hitems := h.items
    rw [hopen] at hitems
    show (s.inbound.put (some m)).items = (pending ++ [m]).map some ++ if s.closed
      then [none] else []
    rw [AsyncQueue.items_put, hitems, hopen]
    simp
  log := h.log
  queued := by
    show s.delivered ++ (pending ++ [m]) = if s.closed then s.queued else s.queued ++ [m]
    rw [hopen, if_neg Bool.false_ne_true, ← h.queued, List.append_assoc]
  last := fun hraised => absurd ((h.last hraised).1.symm.trans hopen) (by decide)
  awake := h.awake.put _

theorem close (h : s.Holds pending raised) : s.close.Holds pending raised := by
  unfold ChannelEnd.close
  split
  · exact h
  · rename_i hopen
    rw [Bool.not_eq_true] at hopen
    have hitems := h.items
    rw [hopen] at hitems
    refine ⟨?_, h.log, h.queued, fun hraised => ⟨rfl, (h.last hraised).2⟩, h.awake.put _⟩
    show (s.inbound.put none).items = pending.map some ++ [none]
    rw [AsyncQueue.items_put, hitems]
    simp

/-- Another state of those who wait. -/
theorem inbound (h : s.Holds pending raised) {q : AsyncQueue (Option M) C}
    (hitems : q.items = s.inbound.items) (hawake : q.Awake) :
    { s with inbound := q }.Holds pending raised :=
  ⟨hitems.trans h.items, h.log, h.queued, h.last, hawake⟩

/-- **What a `receive` does** with the first item, or without one. -/
theorem take (h : s.Holds pending raised) (c : C) {q : AsyncQueue (Option M) C}
    (hitems : q.items = s.inbound.items.tail) (hawake : q.Awake) :
    ∃ pending' raised', (s.take c (s.inbound.items.head?, q)).Holds pending' raised' := by
  have hall := h.items
  cases hpending : pending with
  | cons m rest =>
    rw [hpending, List.map_cons, List.cons_append] at hall
    have hraised : raised = 0 := by
      by_contra hne
      have hnil := (h.last (Nat.pos_of_ne_zero hne)).2
      rw [hpending] at hnil
      exact List.cons_ne_nil m rest hnil
    have hdelivered : delivered (s.take c (some (some m), q)) = s.delivered ++ [m] := by
      simp [delivered, ChannelEnd.take, Received.message?]
    have hlog := h.log
    rw [hraised, List.replicate_zero, List.append_nil] at hlog
    rw [hall, List.tail_cons] at hitems
    rw [hall, List.head?_cons]
    refine ⟨rest, 0, hitems, ?_, ?_, fun hzero => absurd hzero (Nat.lt_irrefl 0), hawake⟩
    · rw [hdelivered, List.map_append, List.replicate_zero, List.append_nil, ← hlog]
      exact List.map_append
    · rw [hdelivered, List.append_assoc, List.singleton_append, ← hpending]
      exact h.queued
  | nil =>
    rw [hpending, List.map_nil, List.nil_append] at hall
    cases hclosed : s.closed with
    | false =>
      rw [hclosed, if_neg Bool.false_ne_true] at hall
      rw [hall]
      refine ⟨pending, raised, h.inbound ?_ hawake⟩
      rw [hitems, hall, List.tail_nil]
    | true =>
      rw [hclosed, if_pos rfl] at hall
      have hdelivered : delivered (s.take c (some none, q)) = s.delivered := by
        simp [delivered, ChannelEnd.take, Received.message?]
      have hlog : (s.log ++ [(c, Received.closed)]).map Prod.snd =
          s.delivered.map .message ++ List.replicate (raised + 1) .closed := by
        rw [List.map_append, h.log, List.append_assoc, List.replicate_succ']
        rfl
      rw [hall, List.head?_cons]
      refine ⟨[], raised + 1, ?_, ?_, ?_, fun _ => ⟨hclosed, rfl⟩, hawake.put _⟩
      · show (q.put none).items = [].map some ++ if s.closed then [none] else []
        rw [AsyncQueue.items_put, hitems, hall, hclosed]
        rfl
      · rw [hdelivered]
        exact hlog
      · rw [hdelivered, ← hpending]
        exact h.queued

/-- Nothing but `ChannelClosed` follows it. -/
theorem log_pairwise (h : s.Holds pending raised) :
    s.log.Pairwise fun x y => x.2 = .closed → y.2 = .closed := by
  have hmessage : ∀ x ∈ s.delivered.map Received.message, x ≠ .closed := by
    intro x hx hbad
    obtain ⟨m, -, rfl⟩ := List.mem_map.mp hx
    cases hbad
  have hresults : (s.log.map Prod.snd).Pairwise fun a b => a = .closed → b = .closed := by
    rw [h.log, List.pairwise_append]
    refine ⟨?_, List.pairwise_replicate.mpr (Or.inr fun _ => rfl), ?_⟩
    · exact List.Pairwise.imp_of_mem (fun hx _ _ hbad => absurd hbad (hmessage _ hx))
        (List.pairwise_of_forall fun _ _ => trivial)
    · exact fun x hx y _ hbad => absurd hbad (hmessage x hx)
  exact List.pairwise_map.mp hresults

/-- The law holds. -/
theorem lawful (h : s.Holds pending raised) : s.Lawful := by
  have hlast : s.Raised → s.closed = true ∧ pending = [] := by
    rintro ⟨c, hc⟩
    have hmem : Received.closed ∈ s.log.map Prod.snd := List.mem_map_of_mem hc
    rw [h.log, List.mem_append] at hmem
    rcases hmem with hmem | hmem
    · obtain ⟨m, -, hm⟩ := List.mem_map.mp hmem
      cases hm
    · exact h.last (Nat.pos_of_ne_zero (List.mem_replicate.mp hmem).1)
  have hmark : s.Raised → s.inbound.items = [none] := by
    intro hraised
    obtain ⟨hclosed, hnone⟩ := hlast hraised
    rw [h.items, hclosed, hnone]
    rfl
  refine ⟨?_, fun hraised => ?_, fun before c after hlog x hx => ?_, fun hraised => ?_,
    fun hraised hwoken => ?_⟩
  · have hpending : s.inbound.items.reduceOption = pending := by
      rw [h.items]
      cases s.closed <;> simp [List.reduceOption]
    rw [hpending, h.queued]
  · rw [← h.queued, (hlast hraised).2, List.append_nil]
  · have hpairwise := h.log_pairwise
    rw [hlog, List.pairwise_append] at hpairwise
    exact List.rel_of_pairwise_cons hpairwise.2.1 hx rfl
  · rw [hmark hraised, List.head?_cons]
  · by_contra hwaiting
    have hle := h.awake hwaiting
    rw [hmark hraised, hwoken] at hle
    exact Nat.not_succ_le_zero 0 hle

end Holds

variable [DecidableEq C] {side : ChannelSide}

end ChannelEnd

end Istos
