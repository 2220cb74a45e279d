import Istos.Codec.Unquote
import Istos.Data.Table
import Mathlib.Data.List.TakeWhile

/-!
# Selectors

A caller puts the parameters of a request into a Zenoh selector with `build_selector`; the owner
reads the key expression and the parameters from Zenoh and decodes them with `decode_params`.
Zenoh itself is a parameter: `Zenoh.Splits` is what the package relies on for plain keys, and
`Zenoh.SplitsText` for every key without a question mark.
`Zenoh.literal` compares key expressions letter by letter, `Zenoh.chunked` matches them with keys
chunk by chunk; a chunk that starts with `@` is not matched by wildcards.

* `Zenoh.Splits.read`, `Zenoh.SplitsText.read`: the owner reads what the caller wrote.
* `Zenoh.literal_splitsText`: splitting at the separators does what is relied on.
-/

namespace Istos

/-- `prefix.rstrip("/")`. -/
def rstripSlash (s : String) : String :=
  String.ofList (s.toList.reverse.dropWhile fun c => decide (c = '/')).reverse

/-- Request parameters, `Dict[str, str]`, under distinct keys. -/
abbrev Params := List (String × String)

/-- `build_selector`, for parameters in their string form. -/
def buildSelector (key : String) (params : Params) : String :=
  if params = [] then key
  else key ++ "?" ++ ";".intercalate
    (params.map fun p => Percent.quote p.1 ++ "=" ++ Percent.quote p.2)

/-- `decode_params`. -/
def decodeParams (raw : Params) : Params :=
  (Table.ofList Prod.fst (raw.map fun p => (Percent.unquoteText p.1, Percent.unquoteText p.2))).rows

/-- The part of Zenoh that a query depends on. -/
structure Zenoh where
  /-- The key expression and the parameters of a selector; `none` where it is refused. -/
  parse : String → Option (String × Params)
  /-- Whether a query on one key expression reaches a queryable on another. -/
  intersects : String → String → Bool

/-- A key expression without wildcards, as far as the separators of a selector go. -/
def PlainKey (key : String) : Prop := ∀ c ∈ key.toList, c ∉ ['?', '#', '*', '$']

instance (key : String) : Decidable (PlainKey key) :=
  decidable_of_iff ((key.toList.all fun c => decide (c ∉ ['?', '#', '*', '$'])) = true) (by
    rw [List.all_eq_true]
    exact forall₂_congr fun c _ => decide_eq_true_iff)

namespace Zenoh

/-- What Zenoh documents of selectors: a question mark stands before the parameters, a semicolon
between two of them and an equals sign between a name and its value. -/
structure Splits (z : Zenoh) : Prop where
  bare : ∀ key, PlainKey key → z.parse key = some (key, [])
  params : ∀ key (ps : Params), PlainKey key → ps ≠ [] → (ps.map Prod.fst).Nodup →
    (∀ p ∈ ps, Percent.IsQuoted p.1 ∧ Percent.IsQuoted p.2) →
    z.parse (key ++ "?" ++ ";".intercalate (ps.map fun p => p.1 ++ "=" ++ p.2)) = some (key, ps)

/-- What the owner reads of a query: the key expression and the decoded parameters. -/
def read (z : Zenoh) (selector : String) : Option (String × Params) :=
  (z.parse selector).map fun x => (x.1, decodeParams x.2)

end Zenoh

/-! ### The round trip -/

theorem quote_injective : Function.Injective Percent.quote := by
  intro s s' h
  have hs := congrArg Percent.unquoteText h
  rwa [Percent.unquoteText_quote, Percent.unquoteText_quote] at hs

/-- What was quoted is read back. -/
theorem decodeParams_quote {params : Params} (h : (params.map Prod.fst).Nodup) :
    decodeParams (params.map fun p => (Percent.quote p.1, Percent.quote p.2)) = params := by
  have hid : (params.map ((fun p : String × String => (Percent.unquoteText p.1,
      Percent.unquoteText p.2)) ∘ fun p => (Percent.quote p.1, Percent.quote p.2))) = params := by
    conv_rhs => rw [← List.map_id params]
    refine List.map_congr_left fun p _ => ?_
    show (Percent.unquoteText _, Percent.unquoteText _) = p
    rw [Percent.unquoteText_quote, Percent.unquoteText_quote]
  rw [decodeParams, List.map_map, hid, Table.rows_ofList h]

/-- The names of quoted parameters are distinct. -/
theorem nodup_quote {params : Params} (h : (params.map Prod.fst).Nodup) :
    ((params.map fun p => (Percent.quote p.1, Percent.quote p.2)).map Prod.fst).Nodup := by
  have hfst : (params.map fun p => (Percent.quote p.1, Percent.quote p.2)).map Prod.fst
      = (params.map Prod.fst).map Percent.quote := by
    rw [List.map_map, List.map_map]
    rfl
  rw [hfst]
  exact h.map quote_injective

/-- What Zenoh splits a selector into. -/
theorem parse_buildSelector {z : Zenoh} {key : String} {params : Params}
    (hbare : z.parse key = some (key, []))
    (hparams : params ≠ [] →
      z.parse (key ++ "?" ++ ";".intercalate
        ((params.map fun p => (Percent.quote p.1, Percent.quote p.2)).map
          fun p => p.1 ++ "=" ++ p.2)) =
        some (key, params.map fun p => (Percent.quote p.1, Percent.quote p.2))) :
    z.parse (buildSelector key params) =
      some (key, params.map fun p => (Percent.quote p.1, Percent.quote p.2)) := by
  unfold buildSelector
  by_cases hnil : params = []
  · subst hnil
    rw [if_pos rfl, hbare]
    rfl
  · have hquoted := hparams hnil
    rw [List.map_map] at hquoted
    rw [if_neg hnil]
    exact hquoted

/-- What Zenoh splits the selector of a plain key into. -/
theorem Zenoh.Splits.parse {z : Zenoh} (hz : z.Splits) {key : String} (hkey : PlainKey key)
    {params : Params} (hnodup : (params.map Prod.fst).Nodup) :
    z.parse (buildSelector key params) =
      some (key, params.map fun p => (Percent.quote p.1, Percent.quote p.2)) := by
  refine parse_buildSelector (hz.bare key hkey) fun hnil => ?_
  refine hz.params key _ hkey (fun h => hnil (List.map_eq_nil_iff.mp h)) (nodup_quote hnodup) ?_
  intro q hq
  obtain ⟨p, -, rfl⟩ := List.mem_map.mp hq
  exact ⟨Percent.isQuoted_quote _, Percent.isQuoted_quote _⟩

/-- **The owner reads what the caller wrote** under a plain key. -/
theorem Zenoh.Splits.read {z : Zenoh} (hz : z.Splits) {key : String} (hkey : PlainKey key)
    {params : Params} (hnodup : (params.map Prod.fst).Nodup) :
    z.read (buildSelector key params) = some (key, params) := by
  rw [Zenoh.read, hz.parse hkey hnodup, Option.map_some, decodeParams_quote hnodup]

/-! ### Splitting at the separators -/

/-- What a text is split into. -/
theorem mem_splitOn {a : Char} {text l : List Char} (hl : l ∈ text.splitOn a) :
    a ∉ l ∧ ∀ c ∈ l, c ∈ text := by
  induction text generalizing l with
  | nil =>
    obtain rfl := List.mem_singleton.mp hl
    exact ⟨List.not_mem_nil, fun c hc => hc⟩
  | cons d text ih =>
    rw [List.splitOn_cons_eq_if_modifyHead] at hl
    split at hl
    · rcases List.mem_cons.mp hl with rfl | hl
      · exact ⟨List.not_mem_nil, fun c hc => absurd hc List.not_mem_nil⟩
      · exact ⟨(ih hl).1, fun c hc => List.mem_cons_of_mem d ((ih hl).2 c hc)⟩
    · rename_i hne
      obtain ⟨first, rest, hsplit⟩ := List.exists_cons_of_ne_nil (List.splitOn_ne_nil a text)
      rw [hsplit, List.modifyHead_cons] at hl
      rw [hsplit] at ih
      rcases List.mem_cons.mp hl with rfl | hl
      · obtain ⟨hnot, hsub⟩ := ih List.mem_cons_self
        refine ⟨?_, fun c hc => ?_⟩
        · rw [List.mem_cons, not_or]
          exact ⟨fun heq => hne (by simp [heq]), hnot⟩
        · rcases List.mem_cons.mp hc with rfl | hc
          · exact List.mem_cons_self
          · exact List.mem_cons_of_mem d (hsub c hc)
      · obtain ⟨hnot, hsub⟩ := ih (List.mem_cons_of_mem _ hl)
        exact ⟨hnot, fun c hc => List.mem_cons_of_mem d (hsub c hc)⟩

namespace Zenoh

/-- The text before the first `c`, and the text after it if there is one. -/
def cut (c : Char) (cs : List Char) : List Char × Option (List Char) :=
  match cs.dropWhile (fun d => decide (d ≠ c)) with
  | [] => (cs.takeWhile fun d => decide (d ≠ c), none)
  | _ :: rest => (cs.takeWhile fun d => decide (d ≠ c), some rest)

/-- One parameter; without an equals sign its value is empty. -/
def parameter (cs : List Char) : String × String :=
  (String.ofList (cut '=' cs).1, String.ofList ((cut '=' cs).2.getD []))

/-- Selectors split at their separators, and key expressions compared letter by letter. -/
def literal : Zenoh where
  parse selector :=
    match cut '?' selector.toList with
    | (key, none) => some (String.ofList key, [])
    | (key, some rest) => some (String.ofList key, (rest.splitOn ';').map parameter)
  intersects a b := decide (a = b)

theorem cut_of_notMem {c : Char} {cs : List Char} (h : c ∉ cs) : cut c cs = (cs, none) := by
  have hall : ∀ d ∈ cs, decide (d ≠ c) = true := fun d hd =>
    decide_eq_true fun hdc => h (hdc ▸ hd)
  unfold cut
  rw [List.dropWhile_eq_nil_iff.mpr hall, List.takeWhile_eq_self_iff.mpr hall]

theorem cut_append {c : Char} {cs : List Char} (h : c ∉ cs) (rest : List Char) :
    cut c (cs ++ c :: rest) = (cs, some rest) := by
  have hall : ∀ d ∈ cs, decide (d ≠ c) = true := fun d hd =>
    decide_eq_true fun hdc => h (hdc ▸ hd)
  have hdrop : (cs ++ c :: rest).dropWhile (fun d => decide (d ≠ c)) = c :: rest := by
    rw [List.dropWhile_append_of_pos hall]
    exact List.dropWhile_cons_of_neg (by simp)
  have htake : (cs ++ c :: rest).takeWhile (fun d => decide (d ≠ c)) = cs := by
    rw [List.takeWhile_append_of_pos hall, List.takeWhile_cons_of_neg (by simp), List.append_nil]
  unfold cut
  rw [hdrop, htake]

theorem notMem_of_isQuoted {s : String} (h : Percent.IsQuoted s) {c : Char}
    (halpha : c.isAlphanum = false) (hc : c ∉ "_.-~/%".toList) : c ∉ s.toList := by
  intro hmem
  rcases h c hmem with ha | hm
  · rw [halpha] at ha
    cases ha
  · exact hc hm

/-- A selector is split at its first question mark, the parameters at the semicolons, and each at
its first equals sign. -/
structure SplitsText (z : Zenoh) : Prop where
  bare : ∀ key : String, '?' ∉ key.toList → z.parse key = some (key, [])
  params : ∀ key rest : String, '?' ∉ key.toList →
    z.parse (key ++ "?" ++ rest) = some (key, (rest.toList.splitOn ';').map parameter)

theorem literal_splitsText : literal.SplitsText where
  bare := by
    intro key hkey
    unfold literal
    dsimp only
    rw [cut_of_notMem hkey]
    simp
  params := by
    intro key rest hkey
    have htext : (key ++ "?" ++ rest).toList = key.toList ++ '?' :: rest.toList := by simp
    unfold literal
    dsimp only
    rw [htext, cut_append hkey]
    simp

/-- Parameters without separators are found again. -/
theorem SplitsText.parse {z : Zenoh} (hz : z.SplitsText) {key : String} (hkey : '?' ∉ key.toList)
    {ps : Params} (hne : ps ≠ [])
    (hquoted : ∀ p ∈ ps, Percent.IsQuoted p.1 ∧ Percent.IsQuoted p.2) :
    z.parse (key ++ "?" ++ ";".intercalate (ps.map fun p => p.1 ++ "=" ++ p.2))
      = some (key, ps) := by
  have htext : (";".intercalate (ps.map fun p => p.1 ++ "=" ++ p.2)).toList
      = [';'].intercalate (ps.map fun p => p.1.toList ++ '=' :: p.2.toList) := by
    rw [String.toList_intercalate, List.map_map]
    simp [Function.comp_def]
  have hsplit : ([';'].intercalate (ps.map fun p => p.1.toList ++ '=' :: p.2.toList)).splitOn ';'
      = ps.map fun p => p.1.toList ++ '=' :: p.2.toList := by
    apply List.splitOn_intercalate
    · intro l hl
      obtain ⟨p, hp, rfl⟩ := List.mem_map.mp hl
      obtain ⟨h₁, h₂⟩ := hquoted p hp
      rw [List.mem_append, List.mem_cons]
      rintro (h | h | h)
      · exact notMem_of_isQuoted h₁ (by decide) (by decide) h
      · cases h
      · exact notMem_of_isQuoted h₂ (by decide) (by decide) h
    · exact fun h => hne (List.map_eq_nil_iff.mp h)
  rw [hz.params key _ hkey, htext, hsplit, List.map_map]
  congr 2
  calc ps.map (parameter ∘ fun p => p.1.toList ++ '=' :: p.2.toList)
      = ps.map id := by
        apply List.map_congr_left
        intro p hp
        obtain ⟨h₁, -⟩ := hquoted p hp
        show parameter (p.1.toList ++ '=' :: p.2.toList) = p
        unfold parameter
        rw [cut_append (notMem_of_isQuoted h₁ (by decide) (by decide))]
        simp
    _ = ps := List.map_id ps

/-- Selectors that are split at their separators. -/
theorem literal_splits : literal.Splits where
  bare := fun key hkey => literal_splitsText.bare key fun h => hkey '?' h List.mem_cons_self
  params := fun _ _ hkey hne _ hquoted =>
    literal_splitsText.parse (fun h => hkey '?' h List.mem_cons_self) hne hquoted

/-- **The owner reads what the caller wrote** under any key expression without a question mark. -/
theorem SplitsText.read {z : Zenoh} (hz : z.SplitsText) {key : String} (hkey : '?' ∉ key.toList)
    {params : Params} (hnodup : (params.map Prod.fst).Nodup) :
    z.read (buildSelector key params) = some (key, params) := by
  have hparse : z.parse (buildSelector key params) =
      some (key, params.map fun p => (Percent.quote p.1, Percent.quote p.2)) := by
    refine parse_buildSelector (hz.bare key hkey) fun hnil => ?_
    refine hz.parse hkey (fun h => hnil (List.map_eq_nil_iff.mp h)) fun q hq => ?_
    obtain ⟨p, -, rfl⟩ := List.mem_map.mp hq
    exact ⟨Percent.isQuoted_quote _, Percent.isQuoted_quote _⟩
  rw [Zenoh.read, hparse, Option.map_some, decodeParams_quote hnodup]

/-! ### Matching chunk by chunk -/

/-- A chunk of a key expression matches a chunk of a key. -/
def matchesChunk : List Char → List Char → Bool
  | [], chunk => chunk.isEmpty
  | '$' :: '*' :: rest, chunk => chunk.tails.any (matchesChunk rest)
  | c :: rest, d :: chunk => decide (c = d) && matchesChunk rest chunk
  | _ :: _, [] => false

/-- Wildcards do not match the chunk. -/
def verbatim (chunk : List Char) : Bool := decide (chunk.head? = some '@')

/-- The test holds of a key without some of its first chunks, of which none is verbatim. -/
def skips (test : List (List Char) → Bool) : List (List Char) → Bool
  | [] => test []
  | chunk :: key => test (chunk :: key) || !verbatim chunk && skips test key

/-- The chunks of a key expression match those of a key. -/
def matchesChunks : List (List Char) → List (List Char) → Bool
  | [], key => key.isEmpty
  | ['*', '*'] :: rest, key => skips (matchesChunks rest) key
  | _ :: _, [] => false
  | ['*'] :: rest, chunk :: key => !verbatim chunk && matchesChunks rest key
  | c :: rest, chunk :: key =>
    matchesChunk c chunk && decide (verbatim c = verbatim chunk) && matchesChunks rest key

/-- Selectors split at their separators, and a key expression matched with a key chunk by chunk:
`*` is one chunk, `**` any number of them, and `$*` any text within a chunk. -/
def chunked : Zenoh where
  parse := literal.parse
  intersects keyExpr key := matchesChunks (keyExpr.toList.splitOn '/') (key.toList.splitOn '/')

theorem matchesChunk_self {chunk : List Char} (h : '$' ∉ chunk) :
    matchesChunk chunk chunk = true := by
  induction chunk with
  | nil => rfl
  | cons c chunk ih =>
    have hc : c ≠ '$' := fun heq => h (heq ▸ List.mem_cons_self)
    rw [matchesChunk, decide_eq_true rfl, Bool.true_and]
    · exact ih fun hm => h (List.mem_cons_of_mem c hm)
    · exact fun rest heq _ => hc heq

/-- Without its first chunks nothing is left of a key in which none is verbatim. -/
theorem skips_isEmpty (key : List (List Char)) :
    skips (fun rest => rest.isEmpty) key = key.all fun chunk => !verbatim chunk := by
  induction key with
  | nil => rfl
  | cons chunk key ih => rw [skips, ih, List.all_cons, List.isEmpty_cons, Bool.false_or]

/-- What lies at a path without wildcards and below it. -/
theorem matchesChunks_below {path : List (List Char)} (hpath : ∀ c ∈ path, '*' ∉ c ∧ '$' ∉ c)
    (rest : List (List Char)) : matchesChunks (path ++ [['*', '*']]) (path ++ rest) =
      rest.all fun chunk => !verbatim chunk := by
  induction path with
  | nil => exact skips_isEmpty rest
  | cons c path ih =>
    obtain ⟨hstar, hdollar⟩ := hpath c List.mem_cons_self
    rw [List.cons_append, List.cons_append, matchesChunks, matchesChunk_self hdollar,
      decide_eq_true rfl, Bool.true_and, Bool.true_and]
    · exact ih fun d hd => hpath d (List.mem_cons_of_mem c hd)
    · exact fun heq => hstar (heq ▸ List.mem_cons_self)
    · exact fun heq => hstar (heq ▸ List.mem_cons_self)

theorem splitOn_below (path : String) :
    (path ++ "/**").toList.splitOn '/' = path.toList.splitOn '/' ++ [['*', '*']] := by
  rw [String.toList_append]
  exact List.splitOn_append_cons_self _ _

theorem chunks_of_plainKey {path : String} (hpath : PlainKey path) :
    ∀ c ∈ path.toList.splitOn '/', '*' ∉ c ∧ '$' ∉ c := by
  intro c hc
  have hsub := (mem_splitOn hc).2
  exact ⟨fun h => hpath '*' (hsub _ h) (by decide), fun h => hpath '$' (hsub _ h) (by decide)⟩

/-- A selector for a path and what lies below it meets the path itself. -/
theorem chunked_self {path : String} (hpath : PlainKey path) :
    chunked.intersects (path ++ "/**") path = true := by
  have h := matchesChunks_below (chunks_of_plainKey hpath) []
  rw [List.append_nil, ← splitOn_below] at h
  exact h

/-- A selector for a path and what lies below it meets a key below the path just when wildcards may
match each of the further chunks. -/
theorem chunked_below {path : String} (hpath : PlainKey path) (rest : String) :
    chunked.intersects (path ++ "/**") (path ++ "/" ++ rest) = true ↔
      ∀ chunk ∈ rest.toList.splitOn '/', verbatim chunk = false := by
  have hsplit : (path ++ "/" ++ rest).toList.splitOn '/' =
      path.toList.splitOn '/' ++ rest.toList.splitOn '/' := by
    rw [String.toList_append, String.toList_append, List.append_assoc]
    exact List.splitOn_append_cons_self _ _
  unfold chunked
  dsimp only
  rw [splitOn_below, hsplit, matchesChunks_below (chunks_of_plainKey hpath), List.all_eq_true]
  exact forall₂_congr fun chunk _ => Iff.of_eq (Bool.not_eq_true' _)

end Zenoh

end Istos
