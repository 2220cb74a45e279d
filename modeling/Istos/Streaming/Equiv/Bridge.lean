import Istos.Data.Ending
import Istos.Streaming.Bridge

/-!
# What comes over the bridge

`delivered` is what the caller of `stream_query` is given when it reads to the end: what the chunks
are read as, up to the first that is refused, and then the end of the replies.

* `stream_query_delivers`: in every run of the threads, the caller has been given a beginning of
  `delivered`, and a generator that was not closed ends as `delivered` says.
* `stream_query_ends`: a run in which puts time out `k` times has at most `5 * n + 17 + 2 * k`
  operations for `n` replies, and when no thread can go on then the pump has ended, the generator
  has returned, and no thread is left behind in a get.

The invariant is `Sound`: as long as `stop` is not set, what is queued and what the pump still has
to offer are together what is left of the replies.
-/

namespace Istos

variable {R E D F : Type}

/-- What the caller is given that reads to the end, and how the generator ends. -/
def delivered (read : R → Except F D) (failure : Option E) : List R → List D × StreamEnding E F
  | [] =>
    match failure with
    | some e => ([], .failed e)
    | none => ([], .returned)
  | r :: replies =>
    match read r with
    | .ok d => (d :: (delivered read failure replies).1, (delivered read failure replies).2)
    | .error f => ([], .refused f)

/-- What `_pump` offers for what is left of the replies. -/
def pumped (replies : List R) (failure : Option E) : List (BridgeItem R E) :=
  replies.map .chunk ++ (failure.toList.map .failure ++ [.sentinel])

namespace Bridge

/-- What is still to be offered; only while `stop` is not set. -/
def pending (s : Bridge R E D F) : List (BridgeItem R E) :=
  match s.pump with
  | .reading => pumped s.replies s.failure
  | .offering .sentinel => [.sentinel]
  | .refused .sentinel => [.sentinel]
  | .offering item => item :: pumped s.replies s.failure
  | .refused item => item :: pumped s.replies s.failure
  | _ => []

/-- The generator is in its loop. -/
def Reading (s : Bridge R E D F) : Prop := s.reader = .getting ∨ s.reader = .yielding

/-- What is queued and what is still to be offered are what is left of the replies. -/
def Kept (read : R → Except F D) (replies : List R) (failure : Option E) (s : Bridge R E D F) :
    Prop :=
  ∃ rest : List R, ∃ error : Option E, s.queue ++ s.pending = pumped rest error ∧
    delivered read failure replies =
      (s.yielded ++ (delivered read error rest).1, (delivered read error rest).2)

/-- How the generator may have ended. -/
def EndedWell (read : R → Except F D) (replies : List R) (failure : Option E)
    (s : Bridge R E D F) : Prop :=
  s.ending = some .closed ∧ s.yielded <+: (delivered read failure replies).1 ∨
    s.ending = some (delivered read failure replies).2 ∧
      s.yielded = (delivered read failure replies).1

variable {cap : ℕ} {read : R → Except F D} {replies : List R} {failure : Option E}
  {s s' : Bridge R E D F}

variable (cap read replies failure) in
/-- **The invariant**. -/
structure Sound (s : Bridge R E D F) : Prop where
  stop : s.stop = false ↔ s.Reading
  bounded : s.queue.length ≤ cap
  unended : s.stop = false → s.ending = none
  /-- nothing is lost before `stop` is set -/
  kept : s.stop = false → s.Kept read replies failure
  /-- before `stop` is set nothing is thrown out -/
  unforced : s.stop = false → s.pump ≠ .evicting ∧ s.pump ≠ .refilling
  ended : s.stop = true → s.EndedWell read replies failure
  /-- a thread that was left behind is not forgotten -/
  woken : s.orphan = true → s.reader = .draining ∨ s.reader = .closing ∨ s.queue ≠ [] ∨
    s.pump = .refilling
  behind : s.orphan = true → s.stop = true

theorem sound_init (cap : ℕ) (read : R → Except F D) (replies : List R) (failure : Option E) :
    Sound cap read replies failure (init replies failure) where
  stop := iff_of_true rfl (Or.inl rfl)
  bounded := Nat.zero_le cap
  unended _ := rfl
  kept _ := ⟨replies, failure, rfl, rfl⟩
  unforced _ := by simp [init]
  ended := Bool.noConfusion
  woken := Bool.noConfusion
  behind := Bool.noConfusion

/-! ### The pump -/

/-- An item that is offered is the first of what is pending. -/
theorem pending_offering (item : BridgeItem R E) (h : s.pump = .offering item) :
    s.pending = item :: { s with pump := offered item }.pending := by
  unfold pending
  rw [h]
  cases item <;> rfl

theorem pending_refused (item : BridgeItem R E) (h : s.pump = .refused item) :
    s.pending = { s with pump := .offering item }.pending := by
  unfold pending
  rw [h]
  cases item <;> rfl

theorem pending_readNext (h : s.pump = .reading) : s.readNext.pending = s.pending := by
  have hpending : s.pending = pumped s.replies s.failure := by
    unfold pending
    rw [h]
  rw [hpending, readNext]
  cases hr : s.replies with
  | cons r rest => rfl
  | nil =>
    cases hf : s.failure with
    | none => rfl
    | some e => simp [pending, pumped]

@[simp] theorem queue_readNext : s.readNext.queue = s.queue := by
  rw [readNext]
  cases s.replies with
  | cons r rest => rfl
  | nil => cases s.failure <;> rfl

theorem pump_readNext : ∃ item, s.readNext.pump = .offering item := by
  rw [readNext]
  cases s.replies with
  | cons r rest => exact ⟨_, rfl⟩
  | nil => cases s.failure <;> exact ⟨_, rfl⟩

/-- What a step of the pump leaves as it is. -/
structure PumpStep (s s' : Bridge R E D F) : Prop where
  stop : s'.stop = s.stop
  reader : s'.reader = s.reader
  yielded : s'.yielded = s.yielded
  ending : s'.ending = s.ending
  orphan : s'.orphan = s.orphan

theorem PumpStep.readNext (s : Bridge R E D F) : PumpStep s s.readNext := by
  unfold Bridge.readNext
  cases s.replies with
  | cons r rest => exact ⟨rfl, rfl, rfl, rfl, rfl⟩
  | nil =>
    cases s.failure with
    | none => exact ⟨rfl, rfl, rfl, rfl, rfl⟩
    | some e => exact ⟨rfl, rfl, rfl, rfl, rfl⟩

/-- The invariant survives the pump. -/
theorem Sound.pump (h : Sound cap read replies failure s) (hframe : PumpStep s s')
    (hbounded : s'.queue.length ≤ cap)
    (hkept : s.stop = false → s'.queue ++ s'.pending = s.queue ++ s.pending)
    (hunforced : s.stop = false → s'.pump ≠ .evicting ∧ s'.pump ≠ .refilling)
    (hwoken : s.queue ≠ [] ∨ s.pump = .refilling → s'.queue ≠ [] ∨ s'.pump = .refilling) :
    Sound cap read replies failure s' where
  stop := by
    rw [hframe.stop, h.stop, Reading, Reading, hframe.reader]
  bounded := hbounded
  unended hstop := by
    rw [hframe.ending, h.unended (hframe.stop ▸ hstop)]
  kept hstop := by
    rw [hframe.stop] at hstop
    obtain ⟨rest, error, hqueue, hdelivered⟩ := h.kept hstop
    exact ⟨rest, error, (hkept hstop).trans hqueue, hframe.yielded ▸ hdelivered⟩
  unforced hstop := hunforced (hframe.stop ▸ hstop)
  ended hstop := by
    have hended := h.ended (hframe.stop ▸ hstop)
    rwa [EndedWell, ← hframe.ending, ← hframe.yielded] at hended
  woken horphan := by
    rw [hframe.orphan] at horphan
    rw [hframe.reader]
    rcases h.woken horphan with hreader | hreader | hrest
    · exact Or.inl hreader
    · exact Or.inr (Or.inl hreader)
    · exact Or.inr (Or.inr (hwoken hrest))
  behind horphan := by
    rw [hframe.stop]
    exact h.behind (hframe.orphan ▸ horphan)

/-! ### The generator -/

/-- When `stop` is set, little is left to keep. -/
theorem Sound.of_stopped (hstop : s.stop = true) (hreader : ¬ s.Reading)
    (hbounded : s.queue.length ≤ cap) (hended : s.EndedWell read replies failure)
    (hwoken : s.orphan = true → s.reader = .draining ∨ s.reader = .closing ∨ s.queue ≠ [] ∨
      s.pump = .refilling) : Sound cap read replies failure s where
  stop := by simp [hstop, hreader]
  bounded := hbounded
  unended h := by simp [hstop] at h
  kept h := by simp [hstop] at h
  unforced h := by simp [hstop] at h
  ended _ := hended
  woken := hwoken
  behind _ := hstop

theorem Sound.stopped (h : Sound cap read replies failure s) (hreader : ¬ s.Reading) :
    s.stop = true := by
  by_contra hstop
  exact hreader (h.stop.mp (Bool.not_eq_true _ ▸ hstop))

/-- The generator leaves its loop. -/
theorem sound_leave (hbounded : s.queue.length ≤ cap) (e : StreamEnding E F)
    (hended : e = .closed ∧ s.yielded <+: (delivered read failure replies).1 ∨
      delivered read failure replies = (s.yielded, e)) :
    Sound cap read replies failure (s.leave e) := by
  refine .of_stopped rfl (by simp [Reading, leave]) hbounded ?_ fun _ => Or.inl rfl
  rcases hended with ⟨rfl, hstart⟩ | hdelivered
  · exact Or.inl ⟨rfl, hstart⟩
  · right
    rw [hdelivered]
    exact ⟨rfl, rfl⟩

/-- What the caller has been given so far is a beginning. -/
theorem Kept.isPrefix (h : s.Kept read replies failure) :
    s.yielded <+: (delivered read failure replies).1 := by
  obtain ⟨rest, error, -, hdelivered⟩ := h
  rw [hdelivered]
  exact List.prefix_append _ _

/-- An item is taken and handled. -/
theorem sound_take (h : Sound cap read replies failure s) {item : BridgeItem R E}
    {queue : List (BridgeItem R E)} (hreader : s.reader = .getting)
    (hqueue : s.queue = item :: queue) :
    Sound cap read replies failure ({ s with queue := queue }.receive read item) := by
  have hstop : s.stop = false := h.stop.mpr (Or.inl hreader)
  have hbounded : queue.length ≤ cap := by
    have hlength := h.bounded
    rw [hqueue, List.length_cons] at hlength
    omega
  obtain ⟨rest, error, hall, hdelivered⟩ := h.kept hstop
  rw [hqueue, List.cons_append] at hall
  cases item with
  | sentinel =>
    -- the pump offers it last
    obtain ⟨rfl, rfl⟩ : rest = [] ∧ error = none := by
      cases rest with
      | cons r rest => simp [pumped] at hall
      | nil => cases error <;> simp [pumped] at hall ⊢
    refine sound_leave hbounded _ (Or.inr ?_)
    rw [hdelivered, delivered, List.append_nil]
  | failure e =>
    obtain ⟨rfl, rfl⟩ : rest = [] ∧ error = some e := by
      cases rest with
      | cons r rest => simp [pumped] at hall
      | nil =>
        cases error with
        | none => simp [pumped] at hall
        | some e' => simp [pumped] at hall ⊢; exact hall.1.symm
    refine sound_leave hbounded _ (Or.inr ?_)
    rw [hdelivered, delivered, List.append_nil]
  | chunk r =>
    obtain ⟨rest, rfl, hrest⟩ : ∃ rest', rest = r :: rest' ∧
        queue ++ s.pending = pumped rest' error := by
      cases rest with
      | cons r' rest =>
        simp only [pumped, List.map_cons, List.cons_append, List.cons.injEq,
          BridgeItem.chunk.injEq] at hall
        exact ⟨rest, by rw [hall.1], hall.2⟩
      | nil => cases error <;> simp [pumped] at hall
    rw [delivered] at hdelivered
    rw [receive]
    cases hread : read r with
    | error f =>
      rw [hread] at hdelivered
      refine sound_leave hbounded _ (Or.inr ?_)
      rw [hdelivered, List.append_nil]
    | ok d =>
      rw [hread] at hdelivered
      refine ⟨?_, hbounded, fun _ => h.unended hstop, fun _ => ⟨rest, error, hrest, ?_⟩,
        fun _ => h.unforced hstop, fun hset => ?_, fun horphan => ?_, h.behind⟩
      · exact iff_of_true hstop (Or.inr rfl)
      · rw [hdelivered, List.append_assoc, List.singleton_append]
      · rw [show s.stop = true from hset] at hstop
        cases hstop
      · have hset := h.behind horphan
        rw [hstop] at hset
        cases hset

/-! ### One operation -/

/-- **Every operation keeps the invariant**. -/
theorem Sound.step (hcap : 0 < cap) (h : Sound cap read replies failure s) {a : BridgeAction E}
    (hstep : Bridge.step cap read s a = some s') : Sound cap read replies failure s' := by
  have hroom : ∀ item : BridgeItem R E, s.queue.length < cap →
      (s.queue ++ [item]).length ≤ cap := by
    intro item hlt
    rw [List.length_append, List.length_singleton]
    omega
  cases a with
  | read =>
    simp only [Bridge.step] at hstep
    split at hstep
    · rename_i hpump
      obtain rfl := Option.some.inj hstep
      obtain ⟨item, hoffer⟩ := s.pump_readNext
      refine h.pump (.readNext s) ?_ (fun _ => ?_) (fun _ => ?_) fun hwoken => ?_
      · rw [queue_readNext]
        exact h.bounded
      · rw [queue_readNext, pending_readNext hpump]
      · simp [hoffer]
      · rw [queue_readNext, hoffer]
        simpa [hpump] using hwoken
    · cases hstep
  | cut e =>
    simp only [Bridge.step] at hstep
    split at hstep
    · rename_i hpump hreplies
      split at hstep
      · rename_i hstop
        obtain rfl := Option.some.inj hstep
        refine h.pump ⟨rfl, rfl, rfl, rfl, rfl⟩ h.bounded ?_ ?_ fun hwoken => hwoken
        · simp [hstop]
        · simp [hstop]
      · cases hstep
    · cases hstep
  | offer =>
    simp only [Bridge.step] at hstep
    split at hstep
    · rename_i item hpump
      split at hstep
      · rename_i hlt
        obtain rfl := Option.some.inj hstep
        refine h.pump ⟨rfl, rfl, rfl, rfl, rfl⟩ (hroom item hlt) (fun _ => ?_) (fun _ => ?_)
          fun _ => ?_
        · rw [pending_offering item hpump, List.append_assoc]
          rfl
        · cases item <;> simp [offered]
        · simp
      · cases hstep
    · cases hstep
  | full =>
    simp only [Bridge.step] at hstep
    split at hstep
    · rename_i item hpump
      split at hstep
      · cases hstep
      · obtain rfl := Option.some.inj hstep
        refine h.pump ⟨rfl, rfl, rfl, rfl, rfl⟩ h.bounded (fun _ => ?_) (fun _ => ?_)
          fun hwoken => ?_
        · rw [pending_refused item rfl]
          unfold pending
          rw [hpump]
        · simp
        · simpa [hpump] using hwoken
    · cases hstep
  | check =>
    simp only [Bridge.step] at hstep
    split at hstep
    · rename_i item hpump
      obtain rfl := Option.some.inj hstep
      unfold checkStop
      split
      · refine h.pump ⟨rfl, rfl, rfl, rfl, rfl⟩ h.bounded (fun _ => ?_) (fun _ => ?_)
          fun hwoken => ?_
        · rw [pending_refused item hpump]
        · simp
        · simpa [hpump] using hwoken
      · rename_i hstop
        have hset : s.stop = true := by simpa using hstop
        cases item with
        | sentinel =>
          refine h.pump ⟨rfl, rfl, rfl, rfl, rfl⟩ h.bounded ?_ ?_ fun hwoken => ?_
          · simp [hset]
          · simp [hset]
          · simpa [hpump] using hwoken
        | _ =>
          refine h.pump ⟨rfl, rfl, rfl, rfl, rfl⟩ h.bounded ?_ ?_ fun hwoken => ?_
          · simp [hset]
          · simp [hset]
          · simpa [hpump, offered] using hwoken
    · cases hstep
  | evict =>
    simp only [Bridge.step] at hstep
    split at hstep
    · rename_i hpump
      obtain rfl := Option.some.inj hstep
      refine h.pump ⟨rfl, rfl, rfl, rfl, rfl⟩ ?_ (fun hstop => ?_) (fun hstop => ?_)
        fun _ => Or.inr rfl
      -- the pump only evicts after `stop`, so the caller misses nothing
      · have hbounded := h.bounded
        rw [List.length_tail]
        omega
      · exact absurd hpump (h.unforced hstop).1
      · exact absurd hpump (h.unforced hstop).1
    · cases hstep
  | refill =>
    simp only [Bridge.step] at hstep
    split at hstep
    · rename_i hpump
      split at hstep
      · rename_i hlt
        obtain rfl := Option.some.inj hstep
        refine h.pump ⟨rfl, rfl, rfl, rfl, rfl⟩ (hroom _ hlt) (fun hstop => ?_) (fun hstop => ?_)
          fun _ => ?_
        · exact absurd hpump (h.unforced hstop).2
        · exact absurd hpump (h.unforced hstop).2
        · simp
      · rename_i hfull
        obtain rfl := Option.some.inj hstep
        refine h.pump ⟨rfl, rfl, rfl, rfl, rfl⟩ h.bounded (fun hstop => ?_) (fun hstop => ?_)
          fun _ => ?_
        · exact absurd hpump (h.unforced hstop).2
        · exact absurd hpump (h.unforced hstop).2
        · left
          intro hempty
          rw [hempty] at hfull
          exact hfull hcap
    · cases hstep
  | take =>
    simp only [Bridge.step] at hstep
    split at hstep
    · rename_i hreader hqueue
      obtain rfl := Option.some.inj hstep
      exact sound_take h hreader hqueue
    · cases hstep
  | next =>
    simp only [Bridge.step] at hstep
    split at hstep
    · rename_i hreader
      obtain rfl := Option.some.inj hstep
      have hstop : s.stop = false := h.stop.mpr (Or.inr hreader)
      refine ⟨iff_of_true hstop (Or.inl rfl), h.bounded, h.unended, h.kept, h.unforced, h.ended,
        fun horphan => ?_, h.behind⟩
      have hset := h.behind horphan
      rw [hstop] at hset
      cases hset
    · cases hstep
  | close =>
    simp only [Bridge.step] at hstep
    split at hstep
    · rename_i hreader
      obtain rfl := Option.some.inj hstep
      have hstop : s.stop = false := h.stop.mpr (Or.inr hreader)
      exact sound_leave h.bounded _ (Or.inl ⟨rfl, (h.kept hstop).isPrefix⟩)
    · rename_i hreader
      obtain rfl := Option.some.inj hstep
      have hstop : s.stop = false := h.stop.mpr (Or.inl hreader)
      have hleft : Sound cap read replies failure (s.leave .closed) :=
        sound_leave h.bounded _ (Or.inl ⟨rfl, (h.kept hstop).isPrefix⟩)
      exact .of_stopped rfl (by simp [Reading, leave]) h.bounded (hleft.ended rfl)
        fun _ => Or.inl rfl
    · cases hstep
  | drain =>
    simp only [Bridge.step] at hstep
    split at hstep
    · rename_i hreader hqueue
      obtain rfl := Option.some.inj hstep
      have hnot : ¬ s.Reading := by simp [Reading, hreader]
      refine .of_stopped (h.stopped hnot) hnot ?_ (h.ended (h.stopped hnot)) fun _ => Or.inl hreader
      have hbounded := h.bounded
      rw [hqueue, List.length_cons] at hbounded
      exact Nat.le_of_succ_le hbounded
    · rename_i hreader hqueue
      obtain rfl := Option.some.inj hstep
      have hset := h.stopped (by simp [Reading, hreader])
      exact .of_stopped hset (by simp [Reading]) h.bounded (h.ended hset)
        fun _ => Or.inr (Or.inl rfl)
    · cases hstep
  | finish =>
    simp only [Bridge.step] at hstep
    split at hstep
    · rename_i hreader
      have hset := h.stopped (by simp [Reading, hreader])
      split at hstep
      · rename_i hlt
        obtain rfl := Option.some.inj hstep
        exact .of_stopped hset (by simp [Reading]) (hroom _ hlt) (h.ended hset) fun _ => by simp
      · rename_i hfull
        obtain rfl := Option.some.inj hstep
        refine .of_stopped hset (by simp [Reading]) h.bounded (h.ended hset) fun _ => ?_
        right; right; left
        intro hempty
        rw [hempty] at hfull
        exact hfull hcap
    · cases hstep
  | join =>
    simp only [Bridge.step] at hstep
    split at hstep
    · rename_i hreader
      obtain rfl := Option.some.inj hstep
      have hset := h.stopped (by simp [Reading, hreader])
      refine .of_stopped hset (by simp [Reading]) h.bounded (h.ended hset) fun horphan => ?_
      simpa [hreader] using h.woken horphan
    · cases hstep
  | orphan =>
    simp only [Bridge.step] at hstep
    split at hstep
    · rename_i horphan hqueue
      obtain rfl := Option.some.inj hstep
      have hset := h.behind horphan
      have hnot : ¬ s.Reading := fun hreading => by simp [h.stop.mpr hreading] at hset
      refine .of_stopped hset hnot ?_ (h.ended hset) Bool.noConfusion
      have hbounded := h.bounded
      rw [hqueue, List.length_cons] at hbounded
      exact Nat.le_of_succ_le hbounded
    · cases hstep

/-! ### The end -/

/-- What an offer has before it: the put, or the way of `_END` past a full queue. -/
def offerWork : BridgeItem R E → ℕ
  | .sentinel => 6
  | _ => 10

/-- The operations that the pump may still have before it. -/
def pumpWork (s : Bridge R E D F) : ℕ :=
  5 * s.replies.length + 4 * s.failure.toList.length +
    match s.pump with
    | .reading => 7
    | .offering item => offerWork item
    | .refused item => if s.stop = true then offerWork item - 1 else offerWork item + 1
    | .evicting => 4
    | .refilling => 3
    | .ended => 0

/-- The operations that the generator may still have before it. -/
def readerWork : ReaderPhase → ℕ
  | .yielding => 7
  | .getting => 6
  | .draining => 5
  | .closing => 4
  | .joining => 1
  | .left => 0

/-- The operations that are left. -/
def work (s : Bridge R E D F) : ℕ := s.pumpWork + 2 * s.queue.length + readerWork s.reader

/-- Every thread has come to its end. -/
def Done (s : Bridge R E D F) : Prop :=
  s.pump = .ended ∧ s.reader = .left ∧ s.orphan = false

/-- When `stop` is set, the pump has no more before it. -/
theorem pumpWork_le (hreplies : s'.replies = s.replies) (hfailure : s'.failure = s.failure)
    (hpump : s'.pump = s.pump) (hstop : s.stop = true → s'.stop = true) :
    s'.pumpWork ≤ s.pumpWork := by
  unfold pumpWork
  rw [hreplies, hfailure, hpump]
  cases s.pump with
  | refused item =>
    cases hs : s.stop with
    | true => simp [hstop hs]
    | false => cases s'.stop <;> simp; omega
  | _ => exact Nat.le_refl _

theorem pumpWork_readNext (h : s.pump = .reading) : s.readNext.pumpWork + 1 ≤ s.pumpWork := by
  rw [readNext]
  cases hr : s.replies with
  | cons r rest => simp [pumpWork, offerWork, h, hr]; omega
  | nil =>
    cases hf : s.failure with
    | none => simp [pumpWork, offerWork, h, hr, hf]
    | some e => simp [pumpWork, offerWork, h, hr, hf]

theorem pumpWork_checkStop {item : BridgeItem R E} (h : s.pump = .refused item) :
    (s.checkStop item).pumpWork + 1 ≤ s.pumpWork := by
  unfold checkStop
  cases hs : s.stop with
  | true => cases item <;> simp [pumpWork, offerWork, offered, h, hs]
  | false => simp [pumpWork, h, hs, Nat.add_assoc]

/-- The generator has less before it when it has handled an item. -/
theorem work_receive (item : BridgeItem R E) (h : s.reader = .getting) :
    (s.receive read item).work ≤ s.work + 1 := by
  have hleave : ∀ e : StreamEnding E F, (s.leave e).work ≤ s.work + 1 := by
    intro e
    have hpump : (s.leave e).pumpWork ≤ s.pumpWork := pumpWork_le rfl rfl rfl fun _ => rfl
    simp only [work, h, readerWork, leave] at hpump ⊢
    omega
  cases item with
  | sentinel => exact hleave _
  | failure e => exact hleave _
  | chunk r =>
    rw [receive]
    split
    · simp only [work, h, readerWork]
      exact Nat.le_refl _
    · exact hleave _

/-- **Every operation uses up work**, but for a put that times out. -/
theorem work_step {a : BridgeAction E} (hstep : Bridge.step cap read s a = some s') :
    s'.work + 1 ≤ s.work + if a.isFull then 2 else 0 := by
  cases a with
  | read =>
    simp only [Bridge.step] at hstep
    split at hstep
    · rename_i hpump
      obtain rfl := Option.some.inj hstep
      have hwork := pumpWork_readNext hpump
      have hframe := PumpStep.readNext s
      simp only [work, queue_readNext, hframe.reader, BridgeAction.isFull]
      omega
    · cases hstep
  | cut e =>
    simp only [Bridge.step] at hstep
    split at hstep
    · rename_i hpump hreplies
      split at hstep
      · obtain rfl := Option.some.inj hstep
        have hone : e.toList.length ≤ 1 := by cases e <;> simp
        simp [work, pumpWork, hpump, hreplies, BridgeAction.isFull]
        omega
      · cases hstep
    · cases hstep
  | offer =>
    simp only [Bridge.step] at hstep
    split at hstep
    · rename_i item hpump
      split at hstep
      · obtain rfl := Option.some.inj hstep
        cases item <;> simp [work, pumpWork, hpump, offered, offerWork] <;> omega
      · cases hstep
    · cases hstep
  | full =>
    simp only [Bridge.step] at hstep
    split at hstep
    · rename_i item hpump
      split at hstep
      · cases hstep
      · obtain rfl := Option.some.inj hstep
        simp only [work, pumpWork, hpump, BridgeAction.isFull, if_true]
        split <;> omega
    · cases hstep
  | check =>
    simp only [Bridge.step] at hstep
    split at hstep
    · rename_i item hpump
      obtain rfl := Option.some.inj hstep
      have hwork := pumpWork_checkStop hpump
      -- neither the queue nor the generator sees this
      have hsame : (s.checkStop item).queue = s.queue ∧
          (s.checkStop item).reader = s.reader := by
        unfold checkStop
        split
        · exact ⟨rfl, rfl⟩
        · cases item <;> exact ⟨rfl, rfl⟩
      simp only [work, hsame.1, hsame.2, BridgeAction.isFull]
      omega
    · cases hstep
  | evict =>
    simp only [Bridge.step] at hstep
    split at hstep
    · rename_i hpump
      obtain rfl := Option.some.inj hstep
      simp [work, pumpWork, hpump]
      omega
    · cases hstep
  | refill =>
    simp only [Bridge.step] at hstep
    split at hstep
    · rename_i hpump
      split at hstep
      · obtain rfl := Option.some.inj hstep
        simp [work, pumpWork, hpump]
        omega
      · obtain rfl := Option.some.inj hstep
        simp [work, pumpWork, hpump]
        omega
    · cases hstep
  | take =>
    simp only [Bridge.step] at hstep
    split at hstep
    · rename_i item queue hreader hqueue
      obtain rfl := Option.some.inj hstep
      have hless : (({ s with queue := queue } : Bridge R E D F).receive read item).work ≤ _ :=
        work_receive item hreader
      have hpump : ({ s with queue := queue } : Bridge R E D F).pumpWork = s.pumpWork := rfl
      simp only [work, hpump, hqueue, List.length_cons, BridgeAction.isFull] at hless ⊢
      omega
    · cases hstep
  | next =>
    simp only [Bridge.step] at hstep
    split at hstep
    · rename_i hreader
      obtain rfl := Option.some.inj hstep
      have hpump : ({ s with reader := .getting } : Bridge R E D F).pumpWork = s.pumpWork := rfl
      simp [work, hpump, hreader, readerWork]
    · cases hstep
  | close =>
    have hpump : ∀ orphan,
        Bridge.pumpWork { s.leave .closed with orphan := orphan } ≤ s.pumpWork :=
      fun orphan => pumpWork_le rfl rfl rfl fun _ => rfl
    simp only [Bridge.step] at hstep
    split at hstep
    · rename_i hreader
      obtain rfl := Option.some.inj hstep
      have hless := hpump s.orphan
      simp only [work, leave, hreader, readerWork, BridgeAction.isFull] at hless ⊢
      omega
    · rename_i hreader
      obtain rfl := Option.some.inj hstep
      have hless := hpump true
      simp only [work, leave, hreader, readerWork, BridgeAction.isFull] at hless ⊢
      omega
    · cases hstep
  | drain =>
    simp only [Bridge.step] at hstep
    split at hstep
    · rename_i queue hreader hqueue
      obtain rfl := Option.some.inj hstep
      have hpump : ({ s with queue := queue } : Bridge R E D F).pumpWork = s.pumpWork := rfl
      simp [work, hpump, hqueue]
      omega
    · rename_i hreader hqueue
      obtain rfl := Option.some.inj hstep
      have hpump : ({ s with reader := .closing } : Bridge R E D F).pumpWork = s.pumpWork := rfl
      simp [work, hpump, hreader, readerWork]
    · cases hstep
  | finish =>
    simp only [Bridge.step] at hstep
    split at hstep
    · rename_i hreader
      split at hstep
      · obtain rfl := Option.some.inj hstep
        have hpump : Bridge.pumpWork
            { s with queue := s.queue ++ [.sentinel], reader := .joining } = s.pumpWork := rfl
        simp [work, hpump, hreader, readerWork]
        omega
      · obtain rfl := Option.some.inj hstep
        have hpump : ({ s with reader := .joining } : Bridge R E D F).pumpWork = s.pumpWork := rfl
        simp [work, hpump, hreader, readerWork]
        omega
    · cases hstep
  | join =>
    simp only [Bridge.step] at hstep
    split at hstep
    · rename_i hreader
      obtain rfl := Option.some.inj hstep
      have hpump : ({ s with reader := .left } : Bridge R E D F).pumpWork = s.pumpWork := rfl
      simp [work, hpump, hreader, readerWork]
    · cases hstep
  | orphan =>
    simp only [Bridge.step] at hstep
    split at hstep
    · rename_i queue horphan hqueue
      obtain rfl := Option.some.inj hstep
      have hpump : Bridge.pumpWork { s with queue := queue, orphan := false } = s.pumpWork := rfl
      simp [work, hpump, hqueue]
      omega
    · cases hstep

/-- The generator can go on, unless it waits for an item or has left. -/
theorem exists_reader_step (hget : s.reader = .getting → s.queue ≠ []) (hleft : s.reader ≠ .left) :
    ∃ a, (Bridge.step cap read s a).isSome ∧ a.isFull = false := by
  cases hreader : s.reader with
  | getting =>
    obtain ⟨item, queue, hqueue⟩ := List.exists_cons_of_ne_nil (hget hreader)
    exact ⟨.take, by simp [Bridge.step, hreader, hqueue], rfl⟩
  | yielding => exact ⟨.next, by simp [Bridge.step, hreader], rfl⟩
  | draining =>
    refine ⟨.drain, ?_, rfl⟩
    cases hqueue : s.queue <;> simp [Bridge.step, hreader, hqueue]
  | closing =>
    refine ⟨.finish, ?_, rfl⟩
    simp only [Bridge.step, hreader]
    split <;> rfl
  | joining => exact ⟨.join, by simp [Bridge.step, hreader], rfl⟩
  | left => exact absurd hreader hleft

/-- **Some thread can go on** in every state that is not final. -/
theorem Sound.live (hcap : 0 < cap) (h : Sound cap read replies failure s) (hdone : ¬ s.Done) :
    ∃ a s', Bridge.step cap read s a = some s' ∧ s'.work < s.work := by
  have huse : (∃ a, (Bridge.step cap read s a).isSome ∧ a.isFull = false) →
      ∃ a s', Bridge.step cap read s a = some s' ∧ s'.work < s.work := by
    rintro ⟨a, hsome, hfull⟩
    obtain ⟨s', hstep⟩ := Option.isSome_iff_exists.mp hsome
    refine ⟨a, s', hstep, ?_⟩
    have hless := work_step hstep
    simp only [hfull] at hless
    exact hless
  cases hpump : s.pump with
  | reading => exact huse ⟨.read, by simp [Bridge.step, hpump], rfl⟩
  | refused item => exact huse ⟨.check, by simp [Bridge.step, hpump], rfl⟩
  | evicting => exact huse ⟨.evict, by simp [Bridge.step, hpump], rfl⟩
  | refilling =>
    refine huse ⟨.refill, ?_, rfl⟩
    simp only [Bridge.step, hpump]
    split <;> rfl
  | offering item =>
    by_cases hlt : s.queue.length < cap
    · exact huse ⟨.offer, by simp [Bridge.step, hpump, hlt], rfl⟩
    · have hqueue : s.queue ≠ [] := by
        intro hempty
        rw [hempty] at hlt
        exact hlt hcap
      by_cases hleft : s.reader = .left
      · -- nobody reads any more, and the offer will see `stop`
        have hstop : s.stop = true := h.stopped (by simp [Reading, hleft])
        refine ⟨.full, { s with pump := .refused item }, by simp [Bridge.step, hpump, hlt], ?_⟩
        cases item <;> simp [work, pumpWork, hpump, hstop, offerWork]
      · exact huse (exists_reader_step (fun _ => hqueue) hleft)
  | ended =>
    by_cases hleft : s.reader = .left
    · have horphan : s.orphan = true := by
        by_contra hnone
        exact hdone ⟨hpump, hleft, by simpa using hnone⟩
      have hqueue : s.queue ≠ [] := by simpa [hleft, hpump] using h.woken horphan
      obtain ⟨item, queue, hcons⟩ := List.exists_cons_of_ne_nil hqueue
      exact huse ⟨.orphan, by simp [Bridge.step, horphan, hcons], rfl⟩
    · refine huse (exists_reader_step (fun hreader => ?_) hleft)
      -- `_END` has been put, and is still there
      obtain ⟨rest, error, hall, -⟩ := h.kept (h.stop.mpr (Or.inl hreader))
      intro hempty
      have hpending : s.pending = [] := by
        unfold pending
        rw [hpump]
      simp [hempty, hpending, pumped] at hall

/-! ### Runs -/

theorem sound_run (hcap : 0 < cap) {as : List (BridgeAction E)}
    (hrun : Steps.run (Bridge.step cap read) (init replies failure) as = some s) :
    Sound cap read replies failure s :=
  Steps.run_invariant_true (fun _ _ _ hstep hs => hs.step hcap hstep) hrun
    (sound_init cap read replies failure)

/-- Every run can be brought to its end. -/
theorem Sound.exists_done (hcap : 0 < cap) (h : Sound cap read replies failure s) :
    ∃ later s', Steps.run (Bridge.step cap read) s later = some s' ∧ s'.Done :=
  Steps.exists_end (fun _ _ _ hstep (hs : Sound cap read replies failure _) => hs.step hcap hstep)
    (fun _ hs hdone => hs.live hcap hdone) s h

end Bridge

open Bridge

/-- **What the caller is given**, in every interleaving of the pump, the generator and a
`bridge.get` that was left behind, is a beginning of what the replies deliver, and all of it unless
the caller closes. -/
theorem stream_query_delivers (read : R → Except F D) (replies : List R) (failure : Option E)
    (as : List (BridgeAction E)) (s : Bridge R E D F)
    (hrun : Steps.run (Bridge.step bridgeSize read) (init replies failure) as = some s) :
    s.yielded <+: (delivered read failure replies).1 ∧ s.queue.length ≤ bridgeSize ∧
      ∀ e, s.ending = some e → e = .closed ∨ (s.yielded, e) = delivered read failure replies := by
  have hsound := sound_run (by decide) hrun
  cases hstop : s.stop with
  | false =>
    refine ⟨(hsound.kept hstop).isPrefix, hsound.bounded, fun e he => ?_⟩
    rw [hsound.unended hstop] at he
    cases he
  | true =>
    rcases hsound.ended hstop with ⟨hending, hstart⟩ | ⟨hending, hall⟩
    · refine ⟨hstart, hsound.bounded, fun e he => Or.inl ?_⟩
      rw [hending] at he
      exact (Option.some.inj he).symm
    · refine ⟨hall ▸ List.prefix_refl _, hsound.bounded, fun e he => Or.inr ?_⟩
      rw [hending] at he
      rw [hall, ← Option.some.inj he]

/-- Two replies; the caller is cancelled in the second get, and the thread of that get goes on. -/
def twoReplies : List (BridgeAction String) :=
  [.read, .offer, .take, .read, .offer, .next, .close, .orphan, .read, .offer, .drain, .drain,
    .finish, .join]

theorem stream_query_delivers_two :
    ∃ s : Bridge ℕ String ℕ String,
      Steps.run (Bridge.step bridgeSize Except.ok) (init [1, 2] none) twoReplies = some s ∧
      s.yielded <+: (delivered (E := String) (F := String) Except.ok none [1, 2]).1 ∧
      s.queue.length ≤ bridgeSize ∧
      ∀ e, s.ending = some e → e = .closed ∨
        (s.yielded, e) = delivered Except.ok none [1, 2] :=
  ⟨_, rfl, stream_query_delivers Except.ok [1, 2] none twoReplies _ rfl⟩

/-- **The pump, the generator and a `bridge.get` that was left behind come to an end**: after
boundedly many operations besides the puts that time out, none of them waits for another for ever,
and every run can be brought to its end. -/
theorem stream_query_ends (read : R → Except F D) (replies : List R) (failure : Option E)
    (as : List (BridgeAction E)) (s : Bridge R E D F)
    (hrun : Steps.run (Bridge.step bridgeSize read) (init replies failure) as = some s) :
    as.length ≤ 5 * replies.length + 17 + 2 * as.countP BridgeAction.isFull ∧
      ((∀ a, Bridge.step bridgeSize read s a = none) → s.Done) ∧
      ∃ later s', Steps.run (Bridge.step bridgeSize read) s later = some s' ∧ s'.Done := by
  have hcap : 0 < bridgeSize := by decide
  have hsound := sound_run hcap hrun
  have hkeep : ∀ (s : Bridge R E D F) (a : BridgeAction E) (s' : Bridge R E D F),
      Bridge.step bridgeSize read s a = some s' → Sound bridgeSize read replies failure s →
      Sound bridgeSize read replies failure s' := fun s a s' hstep hs => hs.step hcap hstep
  refine ⟨?_, fun hstuck => ?_, ?_⟩
  · have hlength := Steps.length_add_le (c := 2) hkeep (fun s a s' hstep _ => work_step hstep) hrun
      (sound_init bridgeSize read replies failure)
    have hone : failure.toList.length ≤ 1 := by cases failure <;> simp
    simp only [work, pumpWork, init, readerWork, List.length_nil] at hlength
    omega
  · exact Steps.done_of_stuck (fun s hs hdone => hs.live hcap hdone) hsound hstuck
  · exact hsound.exists_done hcap

theorem stream_query_ends_two :
    ∃ s : Bridge ℕ String ℕ String,
      Steps.run (Bridge.step bridgeSize Except.ok) (init [1, 2] none) twoReplies = some s ∧
      twoReplies.length ≤ 5 * 2 + 17 + 2 * twoReplies.countP BridgeAction.isFull ∧
      ((∀ a, Bridge.step bridgeSize Except.ok s a = none) → s.Done) ∧
      ∃ later s', Steps.run (Bridge.step bridgeSize Except.ok) s later = some s' ∧ s'.Done :=
  ⟨_, rfl, stream_query_ends Except.ok [1, 2] none twoReplies _ rfl⟩

end Istos
