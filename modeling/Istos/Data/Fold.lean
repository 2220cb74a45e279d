import Mathlib.Data.List.Basic

/-!
# Folds that may fail

An invariant of a fold is about the elements it has passed and the value it has reached.  One step
keeps it (`foldlM_invariant`); under it two folds that step alike come to the same (`foldlM_congr`).
A fold goes along with another one whose steps it can follow (`foldlM_simulation`).
-/

namespace Fold

variable {α β ε : Type*} {f g : β → α → Except ε β} {P : List α → β → Prop} {l : List α} {b b' : β}

theorem foldlM_cons_eq_ok {a : α} (h : (a :: l).foldlM f b = .ok b') :
    ∃ c, f b a = .ok c ∧ l.foldlM f c = .ok b' := by
  rw [List.foldlM_cons] at h
  cases hc : f b a with
  | error e =>
    rw [hc] at h
    cases h
  | ok c =>
    rw [hc] at h
    exact ⟨c, rfl, h⟩

/-- What every step keeps holds at the end. -/
theorem foldlM_invariant (hstep : ∀ done a rest b b', l = done ++ a :: rest → P done b →
    f b a = .ok b' → P (done ++ [a]) b') (hstart : P [] b)
    (h : l.foldlM f b = .ok b') : P l b' := by
  suffices hfrom : ∀ rest done b, l = done ++ rest → P done b → rest.foldlM f b = .ok b' →
      P l b' from
    hfrom l [] b rfl hstart h
  intro rest
  induction rest with
  | nil =>
    intro done b hl hP hfold
    obtain rfl := Except.ok.inj hfold
    rwa [hl, List.append_nil]
  | cons a rest ih =>
    intro done b hl hP hfold
    obtain ⟨c, hc, hrest⟩ := foldlM_cons_eq_ok hfold
    have hl' : l = (done ++ [a]) ++ rest := by rw [hl, List.append_assoc, List.singleton_append]
    exact ih (done ++ [a]) c hl' (hstep done a rest b c hl hP hc) hrest

/-- Two folds that step alike wherever the invariant holds come to the same. -/
theorem foldlM_congr (hstep : ∀ done a rest b b', l = done ++ a :: rest → P done b →
    f b a = .ok b' → P (done ++ [a]) b')
    (halike : ∀ done a rest b, l = done ++ a :: rest → P done b → f b a = g b a) (hstart : P [] b) :
    l.foldlM f b = l.foldlM g b := by
  suffices hfrom : ∀ rest done b, l = done ++ rest → P done b →
      rest.foldlM f b = rest.foldlM g b from hfrom l [] b rfl hstart
  intro rest
  induction rest with
  | nil => intro done b hl hP; rfl
  | cons a rest ih =>
    intro done b hl hP
    rw [List.foldlM_cons, List.foldlM_cons, ← halike done a rest b hl hP]
    cases hc : f b a with
    | error e => rfl
    | ok c =>
      have hl' : l = (done ++ [a]) ++ rest := by rw [hl, List.append_assoc, List.singleton_append]
      exact ih (done ++ [a]) c hl' (hstep done a rest b c hl hP hc)

/-- A fold whose steps follow those of another one ends where that one does, up to a relation. -/
theorem foldlM_simulation {γ δ : Type*} {g : γ → α → Except δ γ} {R : β → γ → Prop} {c : γ}
    (hstep : ∀ a b c b', a ∈ l → R b c → f b a = .ok b' → ∃ c', g c a = .ok c' ∧ R b' c')
    (hstart : R b c) (h : l.foldlM f b = .ok b') : ∃ c', l.foldlM g c = .ok c' ∧ R b' c' := by
  induction l generalizing b c with
  | nil =>
    obtain rfl := Except.ok.inj h
    exact ⟨c, rfl, hstart⟩
  | cons a l ih =>
    obtain ⟨b₁, hb, hrest⟩ := foldlM_cons_eq_ok h
    obtain ⟨c₁, hc, hrel⟩ := hstep a b c b₁ List.mem_cons_self hstart hb
    obtain ⟨c', hc', hend⟩ := ih (fun a b c b' ha => hstep a b c b' (List.mem_cons_of_mem _ ha))
      hrel hrest
    refine ⟨c', ?_, hend⟩
    rw [List.foldlM_cons, hc]
    exact hc'

end Fold
