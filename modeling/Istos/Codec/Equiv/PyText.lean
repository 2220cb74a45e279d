import Istos.Codec.PyText

/-!
# What `json.dumps` and `repr` write alike

Both write a value token by token, and a text character by character.  The two texts of a token, and
those of a character, are equal, or neither of them begins with the other; so two long texts are
equal just when they are so in every place (`forall_of_flatMap`).

* `dumps_eq_repr_iff`: `json.dumps` and `repr` write a value alike just when every token of it is
  `Shared`.
-/

namespace Istos

/-! ### Two writers -/

section Writers

variable {α β : Type} {f g : α → List β}

/-- Two texts that begin alike and go on with texts that are written alike or apart. -/
theorem forall_of_flatMap {l : List α} (hfg : ∀ a ∈ l, f a <+: g a ∨ g a <+: f a → f a = g a)
    (h : l.flatMap f <+: l.flatMap g ∨ l.flatMap g <+: l.flatMap f) : ∀ a ∈ l, f a = g a := by
  induction l with
  | nil => exact nofun
  | cons a l ih =>
    rw [List.forall_mem_cons] at hfg
    rw [List.flatMap_cons, List.flatMap_cons] at h
    have hhead : f a = g a := by
      apply hfg.1
      rcases h with h | h
      · exact List.prefix_or_prefix_of_prefix ((List.prefix_append _ _).trans h)
          (List.prefix_append _ _)
      · exact List.prefix_or_prefix_of_prefix (List.prefix_append _ _)
          ((List.prefix_append _ _).trans h)
    rw [hhead, List.prefix_append_right_inj, List.prefix_append_right_inj] at h
    exact List.forall_mem_cons.mpr ⟨hhead, ih hfg.2 h⟩

/-- The same with an end of its own. -/
theorem comparable_of_append {l l' : List β} {x y : β}
    (h : l ++ [x] <+: l' ++ [y] ∨ l' ++ [y] <+: l ++ [x]) : l <+: l' ∨ l' <+: l := by
  rcases h with h | h
  · exact List.prefix_or_prefix_of_prefix ((List.prefix_append _ _).trans h)
      (List.prefix_append _ _)
  · exact List.prefix_or_prefix_of_prefix (List.prefix_append _ _)
      ((List.prefix_append _ _).trans h)

end Writers

namespace PyText

variable [PyText]

/-! ### Characters -/

/-- A character that `json` and `repr` write alike between double quotes. -/
def SharedChar (c : Char) : Prop :=
  (0x20 ≤ c.toNat ∧ c.toNat < 0x7F) ∨ c = '\n' ∨ c = '\r' ∨ c = '\t' ∨
    (isprintable c = false ∧ 0x100 ≤ c.toNat ∧ c.toNat < 0x10000)

/-- **A character** is written alike, or the two texts part. -/
theorem escape_cases {c : Char} (hc : c ≠ '"') :
    (SharedChar c ∧ Json.escape c = reprChar '"' c) ∨
      ¬ SharedChar c ∧ ¬ (Json.escape c <+: reprChar '"' c ∨ reprChar '"' c <+: Json.escape c) := by
  by_cases hslash : c = '\\'
  · subst hslash
    exact Or.inl ⟨Or.inl (by decide), rfl⟩
  by_cases hn : c = '\n'
  · subst hn
    exact Or.inl ⟨Or.inr (Or.inl rfl), rfl⟩
  by_cases hr : c = '\r'
  · subst hr
    exact Or.inl ⟨Or.inr (Or.inr (Or.inl rfl)), rfl⟩
  by_cases ht : c = '\t'
  · subst ht
    exact Or.inl ⟨Or.inr (Or.inr (Or.inr (Or.inl rfl))), rfl⟩
  have hescape : Json.escape c = if 0x20 ≤ c.toNat ∧ c.toNat < 0x7F then [c]
      else if c.toNat = 0x0C then ['\\', 'f'] else if c.toNat = 0x08 then ['\\', 'b']
      else if c.toNat < 0x10000 then Json.unicodeEscape c.toNat
      else Json.unicodeEscape (0xD800 + (c.toNat - 0x10000) / 1024) ++
        Json.unicodeEscape (0xDC00 + (c.toNat - 0x10000) % 1024) := by
    simp only [Json.escape, hc, hslash, hn, hr, ht, if_false]
  have hrepr : reprChar '"' c = if c.toNat < 0x20 ∨ c.toNat = 0x7F then hexEscape c.toNat
      else if c.toNat < 0x7F then [c] else if isprintable c then [c]
      else if c.toNat < 0x100 then hexEscape c.toNat
      else if c.toNat < 0x10000 then Json.unicodeEscape c.toNat else longEscape c.toNat := by
    simp only [reprChar, hc, hslash, hn, hr, ht, or_self, if_false]
  have hshared : SharedChar c ↔ (0x20 ≤ c.toNat ∧ c.toNat < 0x7F) ∨
      (isprintable c = false ∧ 0x100 ≤ c.toNat ∧ c.toNat < 0x10000) := by
    simp only [SharedChar, hn, hr, ht, false_or]
  rw [hshared, hescape, hrepr]
  -- below the printable range, in it, and above it
  by_cases hlow : c.toNat < 0x20
  · right
    have hrange : ¬ (0x20 ≤ c.toNat ∧ c.toNat < 0x7F) := by omega
    rw [if_neg hrange, if_pos (Or.inl hlow)]
    refine ⟨by omega, ?_⟩
    split_ifs <;> simp [hexEscape, Json.unicodeEscape]
  by_cases hascii : c.toNat < 0x7F
  · left
    have hcontrol : ¬ (c.toNat < 0x20 ∨ c.toNat = 0x7F) := by omega
    have hrange : 0x20 ≤ c.toNat ∧ c.toNat < 0x7F := ⟨by omega, hascii⟩
    rw [if_pos hrange, if_neg hcontrol, if_pos hascii]
    exact ⟨Or.inl hrange, rfl⟩
  have hrange : ¬ (0x20 ≤ c.toNat ∧ c.toNat < 0x7F) := by omega
  have hff : c.toNat ≠ 0x0C := by omega
  have hbs : c.toNat ≠ 0x08 := by omega
  rw [if_neg hrange, if_neg hff, if_neg hbs, or_iff_right hrange]
  by_cases hdelete : c.toNat = 0x7F
  · right
    have hplane : c.toNat < 0x10000 := by omega
    rw [if_pos hplane, if_pos (Or.inr hdelete)]
    refine ⟨by omega, ?_⟩
    simp [hexEscape, Json.unicodeEscape]
  have hcontrol : ¬ (c.toNat < 0x20 ∨ c.toNat = 0x7F) := by omega
  rw [if_neg hcontrol, if_neg hascii]
  cases hprint : isprintable c with
  | true =>
    right
    rw [if_pos rfl]
    refine ⟨fun h => Bool.false_ne_true h.1.symm, ?_⟩
    split_ifs <;> simp [Json.unicodeEscape, hslash, Ne.symm hslash]
  | false =>
    rw [if_neg Bool.false_ne_true]
    by_cases hlatin : c.toNat < 0x100
    · right
      have hplane : c.toNat < 0x10000 := by omega
      rw [if_pos hplane, if_pos hlatin]
      refine ⟨by omega, ?_⟩
      simp [hexEscape, Json.unicodeEscape]
    rw [if_neg hlatin]
    by_cases hplane : c.toNat < 0x10000
    · left
      rw [if_pos hplane, if_pos hplane]
      exact ⟨⟨rfl, by omega, hplane⟩, rfl⟩
    · right
      rw [if_neg hplane, if_neg hplane]
      refine ⟨by omega, ?_⟩
      simp [longEscape, Json.unicodeEscape]

/-! ### Texts -/

/-- A text that `json` and `repr` write alike: it has double quotes round it in both. -/
def SharedText (s : String) : Prop :=
  '\'' ∈ s.toList ∧ '"' ∉ s.toList ∧ ∀ c ∈ s.toList, SharedChar c

/-- **A text** is written alike, or the two texts part. -/
theorem text_cases (s : String) :
    (SharedText s ∧ (Json.Token.str s).text = reprChars s.toList) ∨
      ¬ SharedText s ∧ ¬ ((Json.Token.str s).text <+: reprChars s.toList ∨
        reprChars s.toList <+: (Json.Token.str s).text) := by
  show (_ ∧ '"' :: (s.toList.flatMap Json.escape ++ ['"']) = _) ∨
    _ ∧ ¬ ('"' :: (s.toList.flatMap Json.escape ++ ['"']) <+: _ ∨
      _ <+: '"' :: (s.toList.flatMap Json.escape ++ ['"']))
  unfold reprChars quote SharedText
  by_cases hquote : '\'' ∈ s.toList ∧ '"' ∉ s.toList
  · rw [if_pos hquote, List.cons_prefix_cons, List.cons_prefix_cons]
    have hcases : ∀ c ∈ s.toList, _ := fun c hc =>
      escape_cases (c := c) fun heq => hquote.2 (heq ▸ hc)
    by_cases hall : ∀ c ∈ s.toList, SharedChar c
    · left
      refine ⟨⟨hquote.1, hquote.2, hall⟩, ?_⟩
      have hsame : ∀ c ∈ s.toList, Json.escape c = reprChar '"' c :=
        fun c hc => ((hcases c hc).resolve_right fun h => h.1 (hall c hc)).2
      rw [List.flatMap_congr hsame]
    · right
      refine ⟨fun h => hall h.2.2, fun hcomparable => hall ?_⟩
      have hsame := forall_of_flatMap (f := Json.escape) (g := reprChar '"') (l := s.toList)
        (fun c hc hle => ((hcases c hc).resolve_right fun h => h.2 hle).2)
        (comparable_of_append (hcomparable.imp And.right And.right))
      intro c hc
      exact ((hcases c hc).resolve_right fun h => h.2 (Or.inl (hsame c hc ▸ List.prefix_rfl))).1
  · right
    rw [if_neg hquote, List.cons_prefix_cons, List.cons_prefix_cons]
    refine ⟨fun h => hquote ⟨h.1, h.2.1⟩, ?_⟩
    rintro (⟨h, -⟩ | ⟨h, -⟩) <;> exact absurd h (by decide)

/-! ### Values -/

/-- A token that `json` and `repr` write alike. -/
def SharedToken : Json.Token → Prop
  | .null => False
  | .bool _ => False
  | .float .nan => False
  | .float (.infinity _) => False
  | .str s => SharedText s
  | _ => True

/-- **A token** is written alike, or the two texts part. -/
theorem token_cases (t : Json.Token) :
    (SharedToken t ∧ t.text = token t) ∨
      ¬ SharedToken t ∧ ¬ (t.text <+: token t ∨ token t <+: t.text) := by
  have hapart : ∀ cs ds : List Char, t.text = cs → token t = ds → ¬ (cs <+: ds ∨ ds <+: cs) →
      ¬ (t.text <+: token t ∨ token t <+: t.text) := by
    rintro _ _ rfl rfl h
    exact h
  cases t with
  | null => exact Or.inr ⟨id, hapart "null".toList "None".toList rfl rfl (by decide)⟩
  | bool b =>
    cases b with
    | true => exact Or.inr ⟨id, hapart "true".toList "True".toList rfl rfl (by decide)⟩
    | false => exact Or.inr ⟨id, hapart "false".toList "False".toList rfl rfl (by decide)⟩
  | str s => exact text_cases s
  | float x =>
    cases x with
    | nan => exact Or.inr ⟨id, hapart "NaN".toList "nan".toList rfl rfl (by decide)⟩
    | infinity negative =>
      cases negative with
      | true => exact Or.inr ⟨id, hapart "-Infinity".toList "-inf".toList rfl rfl (by decide)⟩
      | false => exact Or.inr ⟨id, hapart "Infinity".toList "inf".toList rfl rfl (by decide)⟩
    | finite x => exact Or.inl ⟨trivial, rfl⟩
  | _ => exact Or.inl ⟨trivial, rfl⟩

/-- **`json.dumps` and `repr` write a value alike** just when it has no `null`, no truth value, no
`nan` and no infinity, and every text in it is written alike. -/
theorem dumps_eq_repr_iff (j : Json) : j.dumps = reprJson j ↔ ∀ t ∈ j.tokens, SharedToken t := by
  rw [Json.dumps, reprJson, String.ofList_inj]
  constructor
  · intro h t ht
    have hsame := forall_of_flatMap (f := Json.Token.text) (g := token) (l := j.tokens)
      (fun t _ hle => ((token_cases t).resolve_right fun h => h.2 hle).2)
      (Or.inl (h ▸ List.prefix_rfl)) t ht
    exact ((token_cases t).resolve_right fun h => h.2 (Or.inl (hsame ▸ List.prefix_rfl))).1
  · intro hall
    exact List.flatMap_congr fun t ht => ((token_cases t).resolve_right fun h => h.1 (hall t ht)).2

end PyText

end Istos
