import Istos.Codec.Equiv.Json

/-!
# Two values, two texts

The tokens of a value say where it ends and what it is (`tokens_append`), also where its objects
have a key twice.  So `dumps` writes two values alike only when they are one (`dumps_injective`).
-/

namespace Json

/-- A token that ends an array or an object. -/
def Token.closes : Token → Bool
  | closeArr => true
  | closeObj => true
  | _ => false

/-- The tokens of a value do not begin with the end of another. -/
theorem tokens_eq_cons (j : Json) : ∃ t ts, j.tokens = t :: ts ∧ t.closes = false := by
  cases j with
  | null => exact ⟨_, _, by rw [tokens], rfl⟩
  | bool b => exact ⟨_, _, by rw [tokens], rfl⟩
  | num n => exact ⟨_, _, by rw [tokens], rfl⟩
  | float x => exact ⟨_, _, by rw [tokens], rfl⟩
  | str s => exact ⟨_, _, by rw [tokens], rfl⟩
  | arr xs =>
    cases xs with
    | nil => exact ⟨_, _, by rw [tokens], rfl⟩
    | cons x xs => exact ⟨_, _, by rw [tokens], rfl⟩
  | obj fs =>
    cases fs with
    | nil => exact ⟨_, _, by rw [tokens], rfl⟩
    | cons f fs => exact ⟨_, _, by rw [tokens], rfl⟩

theorem closes_cons_ne (j : Json) {t : Token} (ht : t.closes = true) (ts ts' : List Token) :
    t :: ts ≠ j.tokens ++ ts' := by
  obtain ⟨t', rest, htokens, hfirst⟩ := tokens_eq_cons j
  rw [htokens, List.cons_append]
  intro h
  rw [(List.cons.inj h).1, hfirst] at ht
  cases ht

mutual

/-- **The tokens of a value** say what it is and where it ends. -/
theorem tokens_append : (j k : Json) → {ts ts' : List Token} → j.tokens ++ ts = k.tokens ++ ts' →
    j = k ∧ ts = ts'
  | .null, k, _, _, h => by
    cases k with
    | arr xs => cases xs <;> simp [tokens] at h
    | obj fs => cases fs <;> simp [tokens] at h
    | _ => simp_all [tokens]
  | .bool b, k, _, _, h => by
    cases k with
    | arr xs => cases xs <;> simp [tokens] at h
    | obj fs => cases fs <;> simp [tokens] at h
    | _ => simp_all [tokens]
  | .num n, k, _, _, h => by
    cases k with
    | arr xs => cases xs <;> simp [tokens] at h
    | obj fs => cases fs <;> simp [tokens] at h
    | _ => simp_all [tokens]
  | .float x, k, _, _, h => by
    cases k with
    | arr xs => cases xs <;> simp [tokens] at h
    | obj fs => cases fs <;> simp [tokens] at h
    | _ => simp_all [tokens]
  | .str s, k, _, _, h => by
    cases k with
    | arr xs => cases xs <;> simp [tokens] at h
    | obj fs => cases fs <;> simp [tokens] at h
    | _ => simp_all [tokens]
  | .arr [], k, _, _, h => by
    cases k with
    | arr xs =>
      cases xs with
      | nil => simp_all [tokens]
      | cons y ys =>
        simp only [tokens, List.cons_append, List.append_assoc, List.nil_append, List.cons.injEq,
          true_and] at h
        exact absurd h (closes_cons_ne y rfl _ _)
    | obj fs => cases fs <;> simp [tokens] at h
    | _ => simp [tokens] at h
  | .arr (x :: xs), k, _, _, h => by
    cases k with
    | arr ys =>
      cases ys with
      | nil =>
        simp only [tokens, List.cons_append, List.append_assoc, List.nil_append, List.cons.injEq,
          true_and] at h
        exact absurd h.symm (closes_cons_ne x rfl _ _)
      | cons y ys =>
        simp only [tokens, List.cons_append, List.append_assoc, List.cons.injEq, true_and] at h
        obtain ⟨rfl, hmore⟩ := tokens_append x y h
        obtain ⟨rfl, hrest⟩ := moreElements_append xs ys hmore
        exact ⟨rfl, hrest⟩
    | obj fs => cases fs <;> simp [tokens] at h
    | _ => simp [tokens] at h
  | .obj [], k, _, _, h => by
    cases k with
    | arr xs => cases xs <;> simp [tokens] at h
    | obj fs => cases fs <;> simp_all [tokens]
    | _ => simp [tokens] at h
  | .obj ((n, x) :: fs), k, _, _, h => by
    cases k with
    | arr xs => cases xs <;> simp [tokens] at h
    | obj gs =>
      cases gs with
      | nil => simp [tokens] at h
      | cons g gs =>
        obtain ⟨m, y⟩ := g
        simp only [tokens, List.cons_append, List.append_assoc, List.cons.injEq, true_and,
          Token.str.injEq] at h
        obtain ⟨rfl, h⟩ := h
        obtain ⟨rfl, hmore⟩ := tokens_append x y h
        obtain ⟨rfl, hrest⟩ := moreFields_append fs gs hmore
        exact ⟨rfl, hrest⟩
    | _ => simp [tokens] at h

theorem moreElements_append : (xs ys : List Json) → {ts ts' : List Token} →
    moreElements xs ++ ts = moreElements ys ++ ts' → xs = ys ∧ ts = ts'
  | [], ys, _, _, h => by cases ys <;> simp_all [moreElements]
  | x :: xs, [], _, _, h => by simp [moreElements] at h
  | x :: xs, y :: ys, _, _, h => by
    simp only [moreElements, List.cons_append, List.append_assoc, List.cons.injEq, true_and] at h
    obtain ⟨rfl, hmore⟩ := tokens_append x y h
    obtain ⟨rfl, hrest⟩ := moreElements_append xs ys hmore
    exact ⟨rfl, hrest⟩

theorem moreFields_append : (fs gs : List (String × Json)) → {ts ts' : List Token} →
    moreFields fs ++ ts = moreFields gs ++ ts' → fs = gs ∧ ts = ts'
  | [], gs, _, _, h => by
    cases gs with
    | nil => simp_all [moreFields]
    | cons g gs => simp [moreFields] at h
  | (n, x) :: fs, [], _, _, h => by simp [moreFields] at h
  | (n, x) :: fs, (m, y) :: gs, _, _, h => by
    simp only [moreFields, List.cons_append, List.append_assoc, List.cons.injEq, true_and,
      Token.str.injEq] at h
    obtain ⟨rfl, h⟩ := h
    obtain ⟨rfl, hmore⟩ := tokens_append x y h
    obtain ⟨rfl, hrest⟩ := moreFields_append fs gs hmore
    exact ⟨rfl, hrest⟩

end

/-- **Two values** are written alike only when they are one. -/
theorem dumps_injective : Function.Injective dumps := by
  intro j k h
  rw [dumps, dumps, String.ofList_inj] at h
  have htokens := scanAll_tokens j
  rw [h, scanAll_tokens k, Option.some.injEq] at htokens
  have happend : j.tokens ++ [] = k.tokens ++ [] := by rw [htokens]
  exact (tokens_append j k happend).1

end Json
