import ProtoShape.Fault
import ProtoShape.Layout

/-!
# Visiting schemas

`visits` lists the inline schemas of a document with their names and locations.
A schema comes after all schemas below it, and the keywords of a part are
followed in the order of its `slots`.  References are neither listed nor
followed.

`replaceSchemas` replaces the fields of each of these schemas in the same order.
The replacement of a schema sees the schemas below it as already replaced, and
it may look at the whole document as it stands at that moment, with a tree of
its choice in place of the schema.
-/

namespace ProtoShape

/-- A schema that a walk comes to. -/
structure Visit (τ : Type) where
  hook : Hook
  name : Option String
  location : Location
  tag : τ
  fields : Fields τ

/-- The visit of a part, if the part is a schema. -/
def Visit.of? {τ : Type} (role : Role) (site : Site) (tag : τ) (fields : Fields τ) :
    Option (Visit τ) :=
  match role with
  | .schema hook => some ⟨hook, site.name, site.location, tag, fields⟩
  | _ => none

namespace Tree

variable {τ : Type}

mutual
/-- The schemas at and below a tree, which stands at `place`. -/
def visits : Tree τ → Place → Site → List (Visit τ)
  | scalar _ _, _, _ => []
  | list _ items, place, site =>
      if place.spread = .elements then visitsOfItems items place.role site 0 else []
  | map tag ⟨entries⟩, place, site =>
      let branches := branchVisits entries
      match place.spread with
      | .elements => []
      | .entries =>
          branches.flatMap fun (key, branch) => branch (.one place.role) (site.entry place key)
      | .single =>
          if place.role.admits (⟨entries⟩ : Fields τ) then
            let inner := site.inside place.role (⟨entries⟩ : Fields τ)
            (place.role.slots.flatMap fun slot =>
              match Entries.lookup branches slot.key with
              | some branch => branch slot.place (inner.below slot.key)
              | none => []) ++ (Visit.of? place.role site tag ⟨entries⟩).toList
          else []

/-- The schemas at and below the items of a list, from an index on. -/
def visitsOfItems : List (Tree τ) → Role → Site → Nat → List (Visit τ)
  | [], _, _, _ => []
  | item :: rest, role, site, index =>
      item.visits (.one role) (site.element index) ++ visitsOfItems rest role site (index + 1)

/-- For each entry, the schemas at and below its value as a function of the
place where it stands. -/
def branchVisits : List (Scalar × Tree τ) → List (Scalar × (Place → Site → List (Visit τ)))
  | [] => []
  | (key, value) :: rest => (key, value.visits) :: branchVisits rest
end

/-- The inline schemas of a document. -/
def documentVisits (document : Tree τ) : List (Visit τ) := document.visits (.one .document) .root

/-- The inline schemas of a document, which has to be a mapping. -/
def checkedVisits (document : Tree τ) : Except Fault (List (Visit τ)) :=
  match document.mappingFault? with
  | some fault => .error fault
  | none => .ok document.documentVisits

/-- The inline schemas at and below a schema. -/
def schemaVisits (schema : Tree τ) (name : Option String) (location : Location) :
    List (Visit τ) :=
  schema.visits (.one (.schema .schema)) ⟨name, location⟩

variable {m : Type → Type} [Monad m]

mutual
/-- Replaces the fields of the schemas at and below a tree by the results of
`f`.  `around` gives the whole document with a tree in place of this one. -/
def replaceSchemas (f : Visit τ → (Tree τ → Tree τ) → m (Fields τ)) :
    Tree τ → Place → Site → (Tree τ → Tree τ) → m (Tree τ)
  | scalar tag s, _, _, _ => pure (scalar tag s)
  | list tag items, place, site, around =>
      if place.spread = .elements then
        list tag <$> replaceItems f items place.role site 0 (fun items => around (list tag items))
      else pure (list tag items)
  | map tag ⟨entries⟩, place, site, around =>
      match place.spread with
      | .elements => pure (map tag ⟨entries⟩)
      | .entries =>
          (fun entries => map tag ⟨entries⟩) <$>
            replaceEntries f entries place site (fun entries => around (map tag ⟨entries⟩))
      | .single =>
          let branches := branchReplacements f entries
          if place.role.admits (⟨entries⟩ : Fields τ) then do
            let inner := site.inside place.role (⟨entries⟩ : Fields τ)
            let fields ← place.role.slots.foldlM
              (fun (fields : Fields τ) slot =>
                match Entries.lookup branches slot.key with
                | some branch =>
                    fields.insert slot.key <$>
                      branch slot.place (inner.below slot.key)
                        (fun value => around (map tag (fields.insert slot.key value)))
                | none => pure fields)
              ⟨entries⟩
            match Visit.of? place.role site tag fields with
            | some visit => map tag <$> f visit around
            | none => pure (map tag fields)
          else pure (map tag ⟨entries⟩)

/-- `replaceSchemas` on the items of a list, from an index on.  Here `around`
takes these items. -/
def replaceItems (f : Visit τ → (Tree τ → Tree τ) → m (Fields τ)) :
    List (Tree τ) → Role → Site → Nat → (List (Tree τ) → Tree τ) → m (List (Tree τ))
  | [], _, _, _, _ => pure []
  | item :: rest, role, site, index, around => do
      let item ← replaceSchemas f item (.one role) (site.element index)
        (fun item => around (item :: rest))
      let rest ← replaceItems f rest role site (index + 1) (fun rest => around (item :: rest))
      return item :: rest

/-- `replaceSchemas` on the entries of a mapping.  Here `around` takes these
entries. -/
def replaceEntries (f : Visit τ → (Tree τ → Tree τ) → m (Fields τ)) :
    List (Scalar × Tree τ) → Place → Site → (List (Scalar × Tree τ) → Tree τ) →
      m (List (Scalar × Tree τ))
  | [], _, _, _ => pure []
  | (key, value) :: rest, place, site, around => do
      let value ← replaceSchemas f value (.one place.role) (site.entry place key)
        (fun value => around ((key, value) :: rest))
      let rest ← replaceEntries f rest place site (fun rest => around ((key, value) :: rest))
      return (key, value) :: rest

/-- For each entry, `replaceSchemas` on its value as a function of the place
where it stands. -/
def branchReplacements (f : Visit τ → (Tree τ → Tree τ) → m (Fields τ)) :
    List (Scalar × Tree τ) → List (Scalar × (Place → Site → (Tree τ → Tree τ) → m (Tree τ)))
  | [] => []
  | (key, value) :: rest => (key, replaceSchemas f value) :: branchReplacements f rest
end

end Tree

end ProtoShape
