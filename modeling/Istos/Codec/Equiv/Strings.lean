import Istos.Codec.Equiv.Detect

/-!
# The strings of an object

A text that is read as an object is longer than each string in it (`length_lt_of_loads_field`).
-/

namespace Json

variable [Rounding] {P : String → Prop}

/-- What the fields hold is no string but one with `P`. -/
def FieldsWith (P : String → Prop) (fields : List (String × Json)) : Prop :=
  ∀ k s, (k, Json.str s) ∈ fields → P s

/-- What is open holds no string but ones with `P`, and neither does what comes next. -/
def StateWith (P : String → Prop) (st : List Frame × Due) : Prop :=
  (∀ before k, .obj before k ∈ st.1 → FieldsWith P before) ∧
    match st.2 with
    | .key before _ => FieldsWith P before
    | .colon before _ => FieldsWith P before
    | .next (.str s) => P s
    | .next (.obj fields) => FieldsWith P fields
    | _ => True

omit [Rounding] in
theorem FieldsWith.append {fields : List (String × Json)} (h : FieldsWith P fields) {k : String}
    {j : Json} (hj : ∀ s, j = .str s → P s) : FieldsWith P (fields ++ [(k, j)]) := by
  intro k' s hs
  rcases List.mem_append.mp hs with hs | hs
  · exact h k' s hs
  · obtain ⟨-, rfl⟩ := Prod.mk.inj (List.mem_singleton.mp hs)
    exact hj s rfl

omit [Rounding] in
/-- A dictionary holds nothing that its pairs do not hold. -/
theorem mem_of_mem_dict {fields : List (String × Json)} {x : String × Json} (h : x ∈ dict fields) :
    x ∈ fields := by
  have hfold : ∀ (rows : List (String × Json)) (t : Table (Prod.fst : String × Json → String)),
      x ∈ (rows.foldl Table.put t).rows → x ∈ t.rows ∨ x ∈ rows := by
    intro rows
    induction rows with
    | nil => exact fun t hx => .inl hx
    | cons r rows ih =>
      intro t hx
      rcases ih (t.put r) hx with hx | hx
      · rcases Table.mem_rows_put.mp hx with rfl | ⟨hx, -⟩
        · exact .inr List.mem_cons_self
        · exact .inl hx
      · exact .inr (List.mem_cons_of_mem r hx)
  exact (hfold fields ∅ h).resolve_left List.not_mem_nil

/-- A value begins. -/
theorem StateWith.begins {fs : List Frame} {t : Token} {st : List Frame × Due}
    (h : Json.begins fs t = some st) (hfs : ∀ before k, .obj before k ∈ fs → FieldsWith P before)
    (ht : ∀ s, t = .str s → P s) : StateWith P st := by
  cases t with
  | str s =>
    obtain rfl := Option.some.inj h
    exact ⟨hfs, ht s rfl⟩
  | openObj =>
    obtain rfl := Option.some.inj h
    exact ⟨hfs, fun k s hs => absurd hs List.not_mem_nil⟩
  | closeArr => cases h
  | closeObj => cases h
  | comma => cases h
  | colon => cases h
  | _ =>
    obtain rfl := Option.some.inj h
    exact ⟨hfs, trivial⟩

/-- One token. -/
theorem StateWith.parse {st st' : List Frame × Due} {t : Token} (hst : StateWith P st)
    (h : Json.parse st t = some st') (ht : ∀ s, t = .str s → P s) : StateWith P st' := by
  obtain ⟨fs, due⟩ := st
  obtain ⟨hfs, hdue⟩ := hst
  have harr : ∀ before, ∀ b k, Frame.obj b k ∈ Frame.arr before :: fs → FieldsWith P b := by
    intro before b k hmem
    rcases List.mem_cons.mp hmem with heq | hmem
    · cases heq
    · exact hfs b k hmem
  cases due with
  | value => exact StateWith.begins h hfs ht
  | element =>
    by_cases hclose : t = .closeArr
    · subst hclose
      obtain rfl := Option.some.inj h
      exact ⟨hfs, trivial⟩
    · have helement : Json.parse (fs, .element) t = Json.begins (.arr [] :: fs) t := by
        cases t with
        | closeArr => exact absurd rfl hclose
        | _ => rfl
      exact StateWith.begins (helement.symm.trans h) (harr []) ht
  | key before first =>
    cases t with
    | str k =>
      obtain rfl := Option.some.inj h
      exact ⟨hfs, hdue⟩
    | closeObj =>
      cases first with
      | true =>
        obtain rfl := Option.some.inj h
        exact ⟨hfs, fun k s hs => absurd hs List.not_mem_nil⟩
      | false => cases h
    | _ => cases first <;> cases h
  | colon before k =>
    cases t with
    | colon =>
      obtain rfl := Option.some.inj h
      refine ⟨fun b k' hmem => ?_, trivial⟩
      rcases List.mem_cons.mp hmem with heq | hmem
      · cases heq
        exact hdue
      · exact hfs b k' hmem
    | _ => cases h
  | next j =>
    have hj : ∀ s, j = .str s → P s := by
      rintro s rfl
      exact hdue
    cases fs with
    | nil => cases h
    | cons f fs =>
      have hrest : ∀ b k, Frame.obj b k ∈ fs → FieldsWith P b := fun b k hmem =>
        hfs b k (List.mem_cons_of_mem f hmem)
      cases f with
      | arr before =>
        cases t <;> cases h
        · exact ⟨hrest, trivial⟩
        · refine ⟨fun b k hmem => ?_, trivial⟩
          rcases List.mem_cons.mp hmem with heq | hmem
          · cases heq
          · exact hrest b k hmem
      | obj before k =>
        have hbefore : FieldsWith P (before ++ [(k, j)]) :=
          (hfs before k List.mem_cons_self).append hj
        cases t <;> cases h
        · exact ⟨hrest, fun k' s hs => hbefore k' s (mem_of_mem_dict hs)⟩
        · exact ⟨hrest, hbefore⟩

theorem StateWith.parseAll {st : List Frame × Due} {ts : List Token} {fields : List (String × Json)}
    (hst : StateWith P st) (h : Json.parseAll st ts = some (.obj fields))
    (hts : ∀ s, .str s ∈ ts → P s) :
    FieldsWith P fields := by
  induction ts generalizing st with
  | nil =>
    obtain ⟨fs, due⟩ := st
    cases fs with
    | cons f fs => cases h
    | nil =>
      cases due with
      | next j =>
        obtain rfl := Option.some.inj h
        exact hst.2
      | _ => cases h
  | cons t ts ih =>
    obtain ⟨st', hparse, hrest⟩ := Option.bind_eq_some_iff.mp h
    refine ih (hst.parse hparse fun s hs => hts s (hs ▸ List.mem_cons_self)) hrest fun s hs => ?_
    exact hts s (List.mem_cons_of_mem t hs)

/-- **A text that is read as an object** is longer than each string in it. -/
theorem length_lt_of_loads_field {text : String} {fields : List (String × Json)}
    (h : loads text = some (.obj fields)) {k s : String} (hs : (k, Json.str s) ∈ fields) :
    s.toList.length + 2 ≤ text.toList.length := by
  obtain ⟨ts, hscan, hparse⟩ := Option.bind_eq_some_iff.mp h
  have hstart : StateWith (fun s => s.toList.length + 2 ≤ text.toList.length) ([], .value) :=
    ⟨fun before k hmem => absurd hmem List.not_mem_nil, trivial⟩
  exact hstart.parseAll hparse (fun s hs => length_lt_of_mem hscan hs) k s hs

end Json
