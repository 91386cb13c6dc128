import ProtoShape.Proofs.Pointers
import ProtoShape.Proofs.Substitution

/-!
# Escapes

The tokens of pointers are escaped by two replacements, one after the other, and read by two others
(`escapeToken_eq`, `unescapeToken_eq`).  Their order matters.  A `~` is escaped first, or
those of the new escapes would be escaped too.  It is read last, or those that it gives would
begin further escapes.  `escapeToken` and `unescapeToken` come to the same in one pass.

The pointer to a component ends with the escaped name, which has no slash.  So the name is what its
last token is read as (`lastToken_toComponent`), and the pointer leads to what is stored under it.
-/

namespace ProtoShape

/-! ## Pairs of characters and last pieces -/

namespace Text

variable {old c d separator : Char} {new rest last : List Char}

/-- A character stays if it is not the first one of the pair, or the second one does not follow. -/
theorem replaceAll_pair_of_ne (h : c ≠ old ∨ rest.head? ≠ some d) :
    replaceAll [old, d] new (c :: rest) = c :: replaceAll [old, d] new rest := by
  refine replaceAll_cons fun hprefix => ?_
  obtain ⟨rfl, hrest⟩ := List.cons_prefix_cons.1 hprefix
  rcases h with hc | hd
  · exact hc rfl
  · obtain ⟨more, rfl⟩ := hrest
    exact hd rfl

theorem replaceAll_pair (old d : Char) (new rest : List Char) :
    replaceAll [old, d] new (old :: d :: rest) = new ++ replaceAll [old, d] new rest :=
  replaceAll_append (List.cons_ne_nil _ _)

/-- The text begins with what is written for a pair, or with the character that it began with. -/
theorem head?_replaceAll_pair (old d new : Char) (cs : List Char) :
    (replaceAll [old, d] [new] cs).head? = some new ∨
    (replaceAll [old, d] [new] cs).head? = cs.head? := by
  cases cs with
  | nil => exact .inr (by rw [replaceAll_nil])
  | cons c rest =>
      by_cases hprefix : [old, d] <+: c :: rest
      · obtain ⟨more, hmore⟩ := hprefix
        rw [← hmore, replaceAll_append (List.cons_ne_nil _ _)]
        exact .inl rfl
      · rw [replaceAll_cons hprefix]
        exact .inr rfl

/-- Pieces behind a separator do not depend on what is before it. -/
theorem exists_split_append (before rest : List Char) :
    ∃ pieces, pieces ≠ [] ∧ split separator (before ++ separator :: rest) =
      pieces ++ split separator rest := by
  induction before with
  | nil =>
      exact ⟨[[]], List.cons_ne_nil _ _,
        by rw [List.nil_append, split, if_pos rfl, List.singleton_append]⟩
  | cons c more ih =>
      obtain ⟨pieces, hne, hpieces⟩ := ih
      obtain ⟨first, others, rfl⟩ := List.exists_cons_of_ne_nil hne
      by_cases hc : c = separator
      · refine ⟨[] :: first :: others, List.cons_ne_nil _ _, ?_⟩
        rw [List.cons_append, split, if_pos hc, hpieces]
        rfl
      · refine ⟨(c :: first) :: others, List.cons_ne_nil _ _, ?_⟩
        rw [List.cons_append, split, if_neg hc, hpieces]
        rfl

/-- The last piece is what stands behind the last separator. -/
theorem getLastD_split (h : separator ∉ last) (before : List Char) :
    (split separator (before ++ separator :: last)).getLastD [] = last := by
  obtain ⟨pieces, -, hpieces⟩ := exists_split_append before last
  rw [hpieces, split_of_not_mem h, List.getLastD_concat]

end Text

open Text

/-! ## The two replacements -/

theorem escapeToken_eq_flatMap (cs : List Char) :
    escapeToken cs = cs.flatMap fun c => if c = '~' then ['~', '0'] else if c =
      '/' then ['~', '1'] else [c] := by
  fun_induction escapeToken cs with
  | case1 => rfl
  | case2 rest ih => rw [ih]; rfl
  | case3 rest ih => rw [ih]; rfl
  | case4 c rest htilde hslash ih => rw [ih, List.flatMap_cons, if_neg htilde, if_neg hslash]; rfl

/-- A token is escaped by two replacements. -/
theorem escapeToken_eq (cs : List Char) :
    escapeToken cs = replaceAll ['/'] ['~', '1'] (replaceAll ['~'] ['~', '0'] cs) := by
  rw [replaceAll_singleton, replaceAll_singleton, List.flatMap_assoc, escapeToken_eq_flatMap]
  refine List.flatMap_congr fun c _ => ?_
  by_cases hc : c = '~'
  · subst hc
    rfl
  · rw [if_neg hc, if_neg hc, List.flatMap_singleton]

/-- A token is read by two replacements.  What the first one writes begins no escape for
the second. -/
theorem unescapeToken_eq (cs : List Char) :
    Pointer.unescapeToken cs = replaceAll ['~', '0'] ['~'] (replaceAll ['~', '1'] ['/'] cs) := by
  fun_induction Pointer.unescapeToken cs with
  | case1 => rw [replaceAll_nil, replaceAll_nil]
  | case2 rest ih =>
      have hone : replaceAll ['~', '1'] ['/'] ('~' :: '0' :: rest) =
          '~' :: '0' :: replaceAll ['~', '1'] ['/'] rest := by
        rw [replaceAll_pair_of_ne (.inr (by simp)), replaceAll_pair_of_ne (.inl (by decide))]
      rw [hone, replaceAll_pair, ih, List.singleton_append]
  | case3 rest ih =>
      rw [replaceAll_pair, List.singleton_append, replaceAll_pair_of_ne (.inl (by decide)), ih]
  | case4 c rest hzero hone ih =>
      have hnext : ∀ d, (∀ more, c = '~' → rest = d :: more → False) → c ≠ '~' ∨
          rest.head? ≠ some d := by
        intro d hd
        rw [← not_and_or]
        intro h
        obtain ⟨more, hrest⟩ := List.head?_eq_some_iff.1 h.2
        exact hd more h.1 hrest
      have hwritten : c ≠ '~' ∨ (replaceAll ['~', '1'] ['/'] rest).head? ≠ some '0' := by
        rcases hnext '0' hzero with hc | hd
        · exact .inl hc
        · right
          rcases head?_replaceAll_pair '~' '1' '/' rest with hhead | hhead
          · rw [hhead]
            decide
          · rwa [hhead]
      rw [replaceAll_pair_of_ne (hnext '1' hone), replaceAll_pair_of_ne hwritten, ih]

/-! ## Pointers to components -/

/-- The last token of the pointer to a component is the name of the component. -/
theorem lastToken_toComponent (name : String) :
    Pointer.lastToken (Pointer.toComponent name) = name := by
  have hchars : (Pointer.toComponent name).toList =
      "#/components/schemas".toList ++ '/' :: escapeToken name.toList :=
    toList_append_ofList "#/components/schemas/" _
  rw [Pointer.lastToken, hchars, getLastD_split (slash_not_mem_escapeToken _),
    unescapeToken_escapeToken, String.ofList_toList]

/-- The pointer to a component leads to it. -/
theorem resolve_toComponent {τ : Type} {document node : Tree τ} {tag : τ}
    {schemas : Fields τ} {name : String}
    (hschemas : document.under? ["components", "schemas"] = some (.map tag schemas))
    (hnode : schemas.get? name = some node) :
    document.resolve (Pointer.toComponent name) = .ok node := by
  have hunder : document.under? (["components", "schemas"] ++ [name]) = some node := by
    rw [Tree.under?_append, hschemas, Option.bind_some, Tree.under?_map_cons, hnode]
    rfl
  exact Tree.resolve_of_under? (tokens?_toComponent name) hunder

/-! ## Locations step by step -/

namespace Location

/-- A step down from a location: to a key or to a number. -/
inductive Step where
  | key (name : String)
  | number (i : Int)

/-- The key that a step adds to a location. -/
def Step.text : Step → String
  | .key name => name
  | .number i => toString i

/-- The location one step further. -/
def follow (l : Location) : Step → Location
  | .key name => l.child name
  | .number (.ofNat index) => l.item index
  | .number i => l.child (toString i)

/-- The location that some steps lead to from the root. -/
def reached (steps : List Step) : Location := steps.foldl follow root

theorem follow_eq (l : Location) (step : Step) : l.follow step = l.child step.text := by
  cases step with
  | key name => rfl
  | number i => cases i <;> rfl

theorem keys_foldl_follow (l : Location) (steps : List Step) :
    (steps.foldl follow l).keys = l.keys ++ steps.map Step.text := by
  induction steps generalizing l with
  | nil => rw [List.foldl_nil, List.map_nil, List.append_nil]
  | cons step rest ih =>
      rw [List.foldl_cons, ih, follow_eq, child, List.map_cons, List.append_assoc,
        List.singleton_append]

/-- The keys of a location are the texts of the steps to it. -/
theorem keys_reached (steps : List Step) : (reached steps).keys = steps.map Step.text :=
  keys_foldl_follow root steps

end Location

namespace Pointer

/-- What becomes of a name in a pointer, and of the steps to a location in its text. -/
structure ReadsBack (name : String) (steps steps' : List Location.Step) : Prop where
  escapes : ∀ cs, escapeToken cs = replaceAll ['/'] ['~', '1'] (replaceAll ['~'] ['~', '0'] cs)
  unescapes : ∀ cs, unescapeToken cs = replaceAll ['~', '0'] ['~'] (replaceAll ['~', '1'] ['/'] cs)
  named : lastToken (toComponent name) = name
  /-- The pointer leads to what is stored under the name. -/
  resolves : ∀ (τ : Type) (document : Tree τ) (tag : τ) (schemas : Fields τ) (node : Tree τ),
    document.under? ["components", "schemas"] = some (.map tag schemas) →
    schemas.get? name = some node →
      document.resolve (toComponent name) = .ok node
  keys : (Location.reached steps).keys = steps.map Location.Step.text
  /-- Locations with the same text have the same keys. -/
  injective : (Location.reached steps).render = (Location.reached steps').render ↔
    (Location.reached steps).keys = (Location.reached steps').keys

/-- What is escaped is read back, whatever characters it has.  A token is escaped and read by two
replacements each. -/
theorem escapes_readBack (name : String) (steps steps' : List Location.Step) :
    ReadsBack name steps steps' := by
  refine ⟨escapeToken_eq, unescapeToken_eq, lastToken_toComponent name, ?_,
    Location.keys_reached steps, ?_, ?_⟩
  · intro τ document tag schemas node hschemas hnode
    exact resolve_toComponent hschemas hnode
  · intro hrender
    rw [Location.render_injective hrender]
  · intro hkeys
    rw [Location.render, hkeys, Location.render]

/-- A document with names that look like escapes. -/
def oddNames : Tree Unit := .ofEntries [("components", .ofEntries [("schemas", .ofEntries [
  ("", .ofInt 0), ("~1", .ofInt 1), ("~01", .ofInt 2), ("/", .ofInt 3)])])]

theorem escapes_readBack_oddNames :
    toComponent "~1" = "#/components/schemas/~01" ∧ lastToken "#/components/schemas/~01" = "~1" ∧
    oddNames.resolve "#/components/schemas/~01" = .ok (.ofInt 1) ∧
    oddNames.resolve "#/components/schemas/" = .ok (.ofInt 0) := by
  have htext : toComponent "~1" = "#/components/schemas/~01" := by decide +kernel
  have hempty : toComponent "" = "#/components/schemas/" := by decide +kernel
  have hback := escapes_readBack "~1" [] []
  have hback' := escapes_readBack "" [] []
  refine ⟨htext, htext ▸ hback.named, ?_, ?_⟩
  · rw [← htext]
    exact hback.resolves Unit oddNames () _ _ rfl rfl
  · rw [← hempty]
    exact hback'.resolves Unit oddNames () _ _ rfl rfl

end Pointer

end ProtoShape
