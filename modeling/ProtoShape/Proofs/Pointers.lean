import ProtoShape.Proofs.Paths
import ProtoShape.Reference

/-!
# Pointers

A pointer is read by cutting it at the slashes.  An escaped token has no slash and is read
back as it was (`unescapeToken_escapeToken`), so the pointer to a component has the name of
the component as its last token, whatever characters that name has (`tokens?_toComponent`),
and the pointer to a location has its keys as tokens (`tokens?_render`).

Pointers and keys agree where mappings are on the way: keys lead to what a pointer resolves
to (`resolve_of_under?`).  The converse needs that no list is on the way, since a key
may be read as an index.  No list has an item `components` or `schemas`
(`under?_of_resolve`).
-/

namespace ProtoShape

/-! ## Tokens -/

namespace Text

variable {separator : Char} {cs : List Char}

theorem split_of_not_mem (h : separator ∉ cs) : split separator cs = [cs] := by
  induction cs with
  | nil => rfl
  | cons c rest ih =>
      obtain ⟨hne, hrest⟩ := List.ne_and_not_mem_of_not_mem_cons h
      rw [split, if_neg hne.symm, ih hrest]

theorem split_append (h : separator ∉ cs) (rest : List Char) :
    split separator (cs ++ separator :: rest) = cs :: split separator rest := by
  induction cs with
  | nil => simp [split]
  | cons c more ih =>
      obtain ⟨hne, hmore⟩ := List.ne_and_not_mem_of_not_mem_cons h
      rw [List.cons_append, split, if_neg hne.symm, ih hmore]

end Text

theorem slash_not_mem_escapeToken (cs : List Char) : '/' ∉ escapeToken cs := by
  fun_induction escapeToken cs with
  | case1 => exact List.not_mem_nil
  | case2 rest ih => simpa using ih
  | case3 rest ih => simpa using ih
  | case4 c rest _ hslash ih =>
      rw [List.mem_cons, not_or]
      exact ⟨fun heq => hslash heq.symm, ih⟩

/-- An escaped token is read back as it was. -/
theorem unescapeToken_escapeToken (cs : List Char) :
    Pointer.unescapeToken (escapeToken cs) = cs := by
  fun_induction escapeToken cs with
  | case1 => rfl
  | case2 rest ih => rw [Pointer.unescapeToken, ih]
  | case3 rest ih => rw [Pointer.unescapeToken, ih]
  | case4 c rest htilde hslash ih =>
      rw [Pointer.unescapeToken, ih]
      · exact fun _ heq _ => htilde heq
      · exact fun _ heq _ => htilde heq

theorem tokens?_of_toList {ref : String} {rest : List Char} (h : ref.toList = '#' :: '/' :: rest) :
    Pointer.tokens? ref =
      some ((Text.split '/' rest).map fun token =>
        String.ofList (Pointer.unescapeToken token)) := by
  simp only [Pointer.tokens?, h]

theorem toList_append_ofList (pre : String) (cs : List Char) :
    (pre ++ String.ofList cs).toList = pre.toList ++ cs := by
  rw [String.toList_append, String.toList_ofList]

/-- The pointer to a component has the name of the component as its last token. -/
theorem tokens?_toComponent (name : String) :
    Pointer.tokens? (Pointer.toComponent name) = some ["components", "schemas", name] := by
  have hchars : (Pointer.toComponent name).toList = '#' :: '/' ::
      ("components".toList ++ '/' :: ("schemas".toList ++ '/' :: escapeToken name.toList)) :=
    toList_append_ofList "#/components/schemas/" _
  have hsplit : Text.split '/' ("components".toList ++ '/' :: ("schemas".toList ++ '/' ::
      escapeToken name.toList)) = ["components".toList, "schemas".toList,
      escapeToken name.toList] := by
    rw [Text.split_append (by decide), Text.split_append (by decide),
      Text.split_of_not_mem (slash_not_mem_escapeToken _)]
  have hkeys : Pointer.unescapeToken "components".toList = "components".toList ∧
      Pointer.unescapeToken "schemas".toList = "schemas".toList := by decide
  rw [tokens?_of_toList hchars, hsplit]
  simp only [List.map_cons, List.map_nil, hkeys, unescapeToken_escapeToken, String.ofList_toList]

/-! ## Locations -/

namespace Location

/-- The pointer to a location is cut where its keys end. -/
theorem split_tokens (key : String) (keys : List String) :
    Text.split '/' (escapeToken key.toList ++ keys.flatMap fun key =>
      '/' :: escapeToken key.toList) =
      (key :: keys).map fun key => escapeToken key.toList := by
  induction keys generalizing key with
  | nil =>
      rw [List.flatMap_nil, List.append_nil, Text.split_of_not_mem (slash_not_mem_escapeToken _)]
      rfl
  | cons next rest ih =>
      rw [List.flatMap_cons, List.cons_append, Text.split_append (slash_not_mem_escapeToken _),
        ih next]
      rfl

/-- The tokens of the pointer to a location are the keys of the location, whatever characters
they have. -/
theorem tokens?_render (l : Location) : Pointer.tokens? l.render = some l.keys := by
  obtain ⟨keys⟩ := l
  cases keys with
  | nil => rfl
  | cons key rest =>
      have hchars : (Location.render ⟨key :: rest⟩).toList = '#' :: '/' ::
          (escapeToken key.toList ++ rest.flatMap fun key => '/' :: escapeToken key.toList) := by
        rw [render, String.toList_ofList, List.flatMap_cons]
        rfl
      have hback : ∀ key : String,
          String.ofList (Pointer.unescapeToken (escapeToken key.toList)) = key := fun key => by
        rw [unescapeToken_escapeToken, String.ofList_toList]
      rw [tokens?_of_toList hchars, split_tokens, List.map_map]
      exact congrArg some ((List.map_congr_left fun key _ => hback key).trans (List.map_id' _))

/-- Different locations have different pointers. -/
theorem render_injective {l l' : Location} (h : l.render = l'.render) : l = l' := by
  have hkeys := tokens?_render l'
  rw [← h, tokens?_render] at hkeys
  obtain ⟨keys⟩ := l
  exact congrArg Location.mk (Option.some.inj hkeys)

end Location

/-! ## Pointers and keys -/

namespace Tree

variable {τ : Type} {document t u : Tree τ} {ref key name : String} {keys : List String}

theorem step_of_under? (h : t.under? [key] = some u) : t.step key = .ok u := by
  cases t with
  | map tag fields =>
      have hget : fields.get? key = some u := by simpa [under?_map_cons] using h
      rw [step, hget]
  | _ => cases h

theorem foldlM_step_of_under? (h : t.under? keys = some u) : keys.foldlM step t = .ok u := by
  induction keys generalizing t with
  | nil =>
      obtain rfl : t = u := Option.some.inj h
      rfl
  | cons key rest ih =>
      rw [← List.singleton_append, under?_append] at h
      obtain ⟨value, hvalue, hrest⟩ := Option.bind_eq_some_iff.1 h
      rw [List.foldlM_cons, step_of_under? hvalue]
      exact ih hrest

/-- A pointer resolves to what its tokens lead to as keys. -/
theorem resolve_of_under? (htokens : Pointer.tokens? ref = some keys)
    (h : document.under? keys = some u) :
    document.resolve ref = .ok u := by
  simp only [resolve, htokens, foldlM_step_of_under? h]

/-- A token leads to the value of a key, from a mapping, or where it is no index. -/
theorem under?_of_step (hkey : Text.integer? key = none ∨ t.fields?.isSome = true)
    (h : t.step key = .ok u) :
    t.under? [key] = some u := by
  cases t with
  | scalar tag s => cases h
  | list tag items =>
      rcases hkey with hkey | hmapping
      · rw [step, hkey] at h
        cases h
      · cases hmapping
  | map tag fields =>
      rw [step] at h
      split at h
      · rename_i value hget
        obtain rfl : value = u := Except.ok.inj h
        rw [under?_map_cons, hget]
        rfl
      · cases h

/-- A pointer to a component leads to what its name stands for in the schemas. -/
theorem under?_of_resolve (hschemas : ∀ u, document.under? ["components", "schemas"] = some u →
      u.fields?.isSome = true) (htokens :
      Pointer.tokens? ref = some ["components", "schemas", name])
    (h : document.resolve ref = .ok u) :
    document.under? ["components", "schemas", name] = some u := by
  have hstep : ∀ {t : Tree τ} {token : String} {rest : List String},
      (token :: rest).foldlM step t = .ok u →
        ∃ below, t.step token = .ok below ∧ rest.foldlM step below = .ok u := by
    intro t token rest hfold
    rw [List.foldlM_cons] at hfold
    cases hbelow : t.step token with
    | error reason =>
        rw [hbelow] at hfold
        cases hfold
    | ok below =>
        rw [hbelow] at hfold
        exact ⟨below, rfl, hfold⟩
  simp only [resolve, htokens] at h
  split at h
  · rename_i found hfold
    obtain rfl : found = u := Except.ok.inj h
    obtain ⟨components, hcomponents, hfold⟩ := hstep hfold
    obtain ⟨schemas, hsteps, hfold⟩ := hstep hfold
    obtain ⟨component, hname, hfold⟩ := hstep hfold
    obtain rfl : component = found := Except.ok.inj hfold
    have hunder : document.under? ["components", "schemas"] = some schemas :=
      under?_concat.2 ⟨components, under?_of_step (Or.inl (by decide +kernel)) hcomponents,
        under?_of_step (Or.inl (by decide +kernel)) hsteps⟩
    exact under?_concat.2 ⟨schemas, hunder, under?_of_step (Or.inr (hschemas schemas hunder)) hname⟩
  · cases h

end Tree

end ProtoShape
