import ProtoShape.Proofs.Rules.Inlining
import ProtoShape.Proofs.Rules.NormalForm
import ProtoShape.Reshape.Rule

/-!
# What the rules write

A rule as a program reads and writes keywords; a rule as a function gives new fields or none.
Here is one lemma for each rule that says that the program decides as the function does, and
writes what the function gives: `decided` is what such a program leaves behind.  Where the program
stops at a fault or tells of no change, the fields are as they were.

Two programs write before their last check.  `titledToProperty` makes the properties that the
title is looked up in, but in properties that it has made there is no title yet.  `markExclusive`
marks the schema before the names of its properties are put together.  This stops at a name that is
no text, so the lemma asks that there is no such fault.
-/

namespace ProtoShape.Edit

open Rules

variable {τ : Type} {fields : Fields τ}

/-- What a program leaves behind that decides before it writes. -/
def decided (fault? : Option Fault) (result? : Option (Fields τ)) (fields : Fields τ) :
    Except Fault Bool × Fields τ :=
  match fault?, result? with
  | some fault, _ => (.error fault, fields)
  | none, some result => (.ok true, result)
  | none, none => (.ok false, fields)

theorem decided_eq_self {fault? : Option Fault} {result? : Option (Fields τ)}
    (h : (decided fault? result? fields).1 ≠ .ok true) :
    (decided fault? result? fields).2 = fields := by
  cases fault? with
  | some fault => rfl
  | none =>
      cases result? with
      | none => rfl
      | some result => exact absurd rfl h

/-- A program that tells of no change has met no fault and has nothing to write. -/
theorem declined_of_decided {fault? : Option Fault} {result? : Option (Fields τ)}
    (h : (decided fault? result? fields).1 = .ok false) : fault? = none ∧ result? = none := by
  cases fault? with
  | some fault => cases h
  | none =>
      cases result? with
      | none => exact ⟨rfl, rfl⟩
      | some result => cases h

/-! ## Statements of programs -/

section Run

variable {α β : Type}

theorem run_get_bind (f : Fields τ → Edit τ α) : (get >>= f).run fields = (f fields).run fields :=
  rfl

theorem run_read_bind (key : String) (f : Option (Tree τ) → Edit τ α) :
    (read key >>= f).run fields = (f (fields.get? key)).run fields := rfl

theorem run_bind_of_ok {x : Edit τ α} {f : α → Edit τ β} {a : α} {between : Fields τ}
    (h : x.run fields = (.ok a, between)) : (x >>= f).run fields = (f a).run between := by
  rw [ExceptT.run_bind]
  change StateT.bind x.run _ fields = _
  rw [StateT.bind, h]
  rfl

theorem run_bind_of_error {x : Edit τ α} {f : α → Edit τ β} {fault : Fault} {stopped : Fields τ}
    (h : x.run fields = (.error fault, stopped)) :
    (x >>= f).run fields = (.error fault, stopped) := by
  rw [ExceptT.run_bind]
  change StateT.bind x.run _ fields = _
  rw [StateT.bind, h]
  rfl

theorem run_stopAt_bind {f : Unit → Edit τ α} :
    (stopAt none >>= f).run fields = (f ()).run fields := rfl

/-- A value that is written, or the fault of writing it. -/
theorem run_ofText (x : Except Json.Unwritable α) :
    (ofText x).run fields = (x.mapError Fault.unwritable, fields) := by
  cases x <;> rfl

end Run

/-- The properties are made where they are absent. -/
theorem run_setDefault (key : String) (value : Tree τ) : (setDefault key value).run fields =
    (.ok ((fields.get? key).getD value),
      if (fields.get? key).isSome then fields else fields.insert key value) := by
  unfold setDefault
  rw [run_read_bind]
  cases fields.get? key <;> rfl

theorem run_removals (keys : List String) :
    (keys.forM remove : Edit τ PUnit).run fields = (.ok (), fields.eraseAll keys) := by
  induction keys generalizing fields with
  | nil => rfl
  | cons key rest ih =>
      exact (run_bind_of_ok (rfl : (remove key).run fields = (.ok (), fields.erase key))).trans ih

theorem unwrapFrom_eq (changed : Bool) (fields : Fields τ) :
    unwrapFrom changed fields = (changed || (unwrapStep? fields).isSome, unwrapAll fields) := by
  fun_induction unwrapFrom changed fields with
  | case1 changed fields hnone =>
      rw [hnone, unwrapAll_of_none hnone, Option.isSome_none, Bool.or_false]
  | case2 changed fields unwrapped hstep ih =>
      rw [ih, unwrapAll_of_some hstep, hstep, Option.isSome_some, Bool.or_true, Bool.true_or]

/-- Values are folded one after the other, up to the first one without a fold key. -/
theorem folded_cases (before : List (Likeness × Tree τ)) (values : List (Tree τ)) :
    (∃ reason, folded before values = .error reason ∧
      (values.findSome? fun value => Fault.ofText? (likeness value).text) =
        some (.unwritable reason)) ∨
    folded before values =
        .ok (values.foldl (fun folded value => settle (likeness value) value folded) before) ∧
      (values.findSome? fun value => Fault.ofText? (likeness value).text) = none := by
  induction values generalizing before with
  | nil => exact .inr ⟨rfl, rfl⟩
  | cons value rest ih =>
      rw [List.findSome?_cons, List.foldl_cons, folded]
      cases (likeness value).text with
      | error reason => exact .inl ⟨reason, rfl, rfl⟩
      | ok text => exact ih _

variable [Inhabited τ]

/-! ## First phase -/

theorem run_constsToEnum :
    constsToEnum.run fields = decided none (Rules.constsToEnum fields) fields := by
  unfold constsToEnum Rules.constsToEnum
  rw [run_get_bind]
  cases Fields.items? fields "oneOf" with
  | none => rfl
  | some members =>
      simp only
      split <;> rfl

/-- The shapes of some schemas can be written, or the first one that cannot stops. -/
theorem shapesOf_cases (schemas : List (Fields τ)) :
    (∃ reason, shapesOf schemas = .error reason ∧
      (schemas.findSome? fun schema => (shape? schema).bind Fault.ofText?) =
        some (.unwritable reason)) ∨
    ∃ shapes, shapesOf schemas = .ok shapes ∧ schemas.filterMap shape? = shapes.map .ok ∧
      (schemas.findSome? fun schema => (shape? schema).bind Fault.ofText?) = none := by
  induction schemas with
  | nil => exact .inr ⟨[], rfl, rfl, rfl⟩
  | cons schema rest ih =>
      cases hshape : shape? schema with
      | none =>
          simp only [shapesOf, hshape, List.findSome?_cons, List.filterMap_cons, Option.bind_none]
          exact ih
      | some shape =>
          cases shape with
          | error reason =>
              refine .inl ⟨reason, ?_, ?_⟩
              · simp only [shapesOf, hshape]
                rfl
              · simp only [List.findSome?_cons, hshape]
                rfl
          | ok text =>
              refine ih.imp ?_ ?_
              · rintro ⟨reason, hrest, hfault⟩
                refine ⟨reason, ?_, ?_⟩
                · simp only [shapesOf, hshape, hrest]
                  rfl
                · simp only [List.findSome?_cons, hshape]
                  exact hfault
              · rintro ⟨shapes, hrest, hmap, hfault⟩
                refine ⟨text :: shapes, ?_, ?_, ?_⟩
                · simp only [shapesOf, hshape, hrest]
                  rfl
                · rw [List.filterMap_cons_some hshape, hmap, List.map_cons]
                · simp only [List.findSome?_cons, hshape]
                  exact hfault

/-- A member without a shape that counts stays. -/
theorem isSubsumed_of_bind {shapes : List (Except Json.Unwritable String)} {member : Tree τ}
    {shape? : Option (Except Json.Unwritable String)}
    (h : (otherFields? member).bind Rules.shape? = shape?) :
    isSubsumed shapes member = shape?.any (shapes.contains ·) := by
  subst h
  cases member with
  | map tag inner =>
      cases hitems : arrayItems? (Tree.map tag inner) with
      | some items => simp [isSubsumed, otherFields?, hitems, Tree.fields?]
      | none =>
          cases hshape : Rules.shape? inner <;>
            simp [isSubsumed, otherFields?, hitems, Tree.fields?, hshape]
  | _ => simp [isSubsumed, otherFields?, Tree.fields?]

/-- Members are compared with the shapes one after the other. -/
theorem uncovered_cases (shapes : List String) (members : List (Tree τ)) :
    (∃ reason, uncovered shapes members = .error reason ∧
      ((members.filterMap otherFields?).findSome? fun schema =>
        (shape? schema).bind Fault.ofText?) = some (.unwritable reason)) ∨
    uncovered shapes members =
        .ok (members.filter fun member => !isSubsumed (shapes.map .ok) member) ∧
      ((members.filterMap otherFields?).findSome? fun schema =>
        (shape? schema).bind Fault.ofText?) = none := by
  induction members with
  | nil => exact .inr ⟨rfl, rfl⟩
  | cons member rest ih =>
      have hsub : isSubsumed (shapes.map .ok) member = _ := isSubsumed_of_bind rfl
      have hfirst : (((member :: rest).filterMap otherFields?).findSome? fun schema =>
          (shape? schema).bind Fault.ofText?) =
        (((otherFields? member).bind shape?).bind Fault.ofText?).or
          ((rest.filterMap otherFields?).findSome? fun schema =>
            (shape? schema).bind Fault.ofText?) := by
        cases hother : otherFields? member with
        | none => rw [List.filterMap_cons_none hother]; rfl
        | some schema =>
            rw [List.filterMap_cons_some hother, List.findSome?_cons, Option.bind_some]
            cases (shape? schema).bind Fault.ofText? <;> rfl
      rw [hfirst]
      cases hshape : (otherFields? member).bind shape? with
      | none =>
          rw [hshape] at hsub
          simp only [uncovered, hshape, Option.bind_none, Option.none_or]
          refine ih.imp ?_ ?_
          · rintro ⟨reason, hrest, hfault⟩
            exact ⟨reason, by rw [hrest]; rfl, hfault⟩
          · rintro ⟨hrest, hfault⟩
            refine ⟨?_, hfault⟩
            rw [hrest, List.filter_cons_of_pos (by rw [hsub]; rfl)]
            rfl
      | some shape =>
          rw [hshape] at hsub
          cases shape with
          | error reason =>
              refine .inl ⟨reason, ?_, rfl⟩
              simp only [uncovered, hshape]
              rfl
          | ok text =>
              have hmem : ((shapes.map .ok).contains (.ok text : Except Json.Unwritable String)) =
                  shapes.contains text := by
                rw [Bool.eq_iff_iff]
                simp
              rw [Option.any_some, hmem] at hsub
              simp only [uncovered, hshape, Option.bind_some]
              refine ih.imp ?_ ?_
              · rintro ⟨reason, hrest, hfault⟩
                exact ⟨reason, by rw [hrest]; rfl, hfault⟩
              · rintro ⟨hrest, hfault⟩
                refine ⟨?_, hfault⟩
                rw [hrest, List.filter_cons, hsub]
                change Except.ok (if shapes.contains text = true then _ else _) = _
                cases shapes.contains text <;> rfl

/-- Without a shape to compare with, no member is covered. -/
theorem isSubsumed_nil (member : Tree τ) : isSubsumed [] member = false := by
  rw [isSubsumed_of_bind rfl]
  cases (otherFields? member).bind shape? <;> rfl

/-- The fault of the rule: first the shapes of the items stop, then those that are compared with
them. -/
theorem listCoverFault?_of_items {members : List (Tree τ)}
    (h : Fields.items? fields "oneOf" = some members) :
    listCoverFault? fields =
      ((members.filterMap arrayItemFields?).findSome? fun schema =>
        (shape? schema).bind Fault.ofText?).or
      (if (shapesOfItems members).isEmpty then none
        else (members.filterMap otherFields?).findSome? fun schema =>
          (shape? schema).bind Fault.ofText?) := by
  simp only [listCoverFault?, h, comparedSchemas, List.findSome?_append]
  split <;> rfl

/-- The members that are left are written where they are fewer than before, which is where one is
covered. -/
theorem run_writeLeft (shapes : List (Except Json.Unwritable String)) (tag : τ)
    (members : List (Tree τ)) :
    (if (members.filter fun member => !isSubsumed shapes member).length = members.length then
        return false
      else do
        write "oneOf" (.list tag (members.filter fun member => !isSubsumed shapes member))
        return true : Edit τ Bool).run fields =
      decided none
        (if members.any (isSubsumed shapes) then
          some (fields.insert "oneOf" (.list tag (members.filter fun member =>
            !isSubsumed shapes member)))
        else none) fields := by
  by_cases hany : members.any (isSubsumed shapes) = true
  · have hlength : (members.filter fun member => !isSubsumed shapes member).length ≠
        members.length := by
      rw [Ne, List.length_filter_eq_length_iff]
      intro hall
      obtain ⟨member, hmember, hsub⟩ := List.any_eq_true.1 hany
      simpa [hsub] using hall member hmember
    rw [if_neg hlength, if_pos hany]
    rfl
  · have hlength : (members.filter fun member => !isSubsumed shapes member).length =
        members.length := by
      rw [List.length_filter_eq_length_iff]
      intro member hmember
      have hsub := List.any_eq_false.1 (Bool.eq_false_iff.2 hany) member hmember
      simpa using hsub
    rw [if_pos hlength, if_neg hany]
    rfl

theorem run_dropListCovered : dropListCovered.run fields =
    decided (listCoverFault? fields) (Rules.dropListCovered fields) fields := by
  unfold dropListCovered
  rw [run_read_bind]
  split
  · rename_i tag members hget
    rw [listCoverFault?_of_items (Fields.items?_eq_some_iff.2 ⟨tag, hget⟩)]
    rcases shapesOf_cases (members.filterMap arrayItemFields?) with
      ⟨reason, hshapes, hstop⟩ | ⟨shapes, hshapes, hmap, hgo⟩
    · rw [run_bind_of_error (by rw [run_ofText, hshapes]; rfl), hstop]
      rfl
    · rw [run_bind_of_ok (by rw [run_ofText, hshapes]; rfl), hgo, Option.none_or]
      have hall : shapesOfItems members = shapes.map .ok := by
        rw [shapesOfItems, ← hmap, List.filterMap_filterMap]
      simp only [Rules.dropListCovered, hget, hall]
      cases shapes with
      | nil =>
          have hnone : members.any (isSubsumed (τ := τ) []) = false :=
            List.any_eq_false.2 fun member _ => by simp [isSubsumed_nil]
          simp only [List.map_nil, hnone]
          rfl
      | cons shape rest =>
          simp only [List.isEmpty_cons, List.map_cons, Bool.false_eq_true, if_false]
          rcases uncovered_cases (shape :: rest) members with ⟨reason, hkept, hstop⟩ | ⟨hkept, hgo⟩
          · rw [run_bind_of_error (by rw [run_ofText, hkept]; rfl), hstop]
            rfl
          · rw [run_bind_of_ok (by rw [run_ofText, hkept]; rfl), hgo]
            exact run_writeLeft _ tag members
  · rename_i hother
    have hnone : Fields.items? fields "oneOf" = none := by
      rw [Option.eq_none_iff_forall_ne_some]
      intro members hitems
      obtain ⟨tag, hget⟩ := Fields.items?_eq_some_iff.1 hitems
      exact hother tag members hget
    have hdrop : Rules.dropListCovered fields = none := by
      unfold Rules.dropListCovered
      split
      · exact absurd ‹_› (hother _ _)
      · rfl
    simp only [listCoverFault?, hnone, hdrop]
    rfl

omit [Inhabited τ] in
theorem run_unwrapComposites :
    unwrapComposites.run fields = decided none (Rules.unwrapComposites fields) fields := by
  have hrun : (unwrapComposites : Edit τ Bool).run fields =
      (.ok (unwrapFrom false fields).1, (unwrapFrom false fields).2) := rfl
  rw [hrun, unwrapFrom_eq, Rules.unwrapComposites]
  cases hstep : unwrapStep? fields with
  | none => rw [unwrapAll_of_none hstep]; rfl
  | some unwrapped => rw [unwrapAll_of_some hstep]; rfl

theorem run_closeOpenMap :
    closeOpenMap.run fields = decided (openMapFault? fields)
      (Rules.closeOpenMap fields) fields := by
  unfold closeOpenMap Rules.closeOpenMap openMapFault?
  rw [run_read_bind]
  cases fields.get? "additionalProperties" with
  | none => rfl
  | some additional =>
      simp only [Option.bind_some]
      cases unconstrainedFault? additional with
      | some fault => rfl
      | none =>
          rw [run_stopAt_bind]
          split <;> rfl

theorem run_distinctEnum :
    distinctEnum.run fields = decided (enumFault? fields) (Rules.distinctEnum fields) fields := by
  unfold distinctEnum Rules.distinctEnum enumFault?
  rw [run_get_bind]
  cases Fields.items? fields "enum" with
  | none => rfl
  | some values =>
      simp only
      rcases folded_cases [] values with ⟨reason, hfolded, hstop⟩ | ⟨hfolded, hgo⟩
      · rw [run_bind_of_error (by rw [run_ofText, hfolded]; rfl), hstop]
        rfl
      · rw [run_bind_of_ok (by rw [run_ofText, hfolded]; rfl), hgo]
        unfold lastOfEach
        split <;> rfl

theorem run_renameNull (sentinel : String) :
    (renameNull sentinel).run fields = decided none (Rules.renameNull sentinel fields) fields := by
  unfold renameNull
  rw [run_read_bind]
  split
  · rename_i hnull
    rw [Rules.renameNull, hnull]
    rfl
  · rename_i hlist
    rw [Rules.renameNull, hlist]
    simp only
    split <;> rfl
  · rename_i hnull hlist
    have hnone : Rules.renameNull sentinel fields = none := by
      unfold Rules.renameNull
      split
      · exact absurd ‹_› (hnull _)
      · exact absurd ‹_› (hlist _ _)
      · rfl
    rw [hnone]
    rfl

/-! ## Second phase -/

theorem run_titledToProperty :
    titledToProperty.run fields = decided none (Rules.titledToProperty fields) fields := by
  unfold titledToProperty Rules.titledToProperty
  rw [run_read_bind]
  cases (fields.get? "additionalProperties").bind titled? with
  | none => rfl
  | some found =>
      obtain ⟨title, additional⟩ := found
      simp only
      rw [run_get_bind]
      split
      · rw [run_bind_of_ok (run_setDefault "properties" (.map default ∅))]
        cases hget : fields.get? "properties" with
        | some properties =>
            simp only [Option.getD_some, Option.isSome_some, if_true]
            cases properties with
            | map tag inner =>
                simp only
                split
                · rfl
                · exact (run_bind_of_ok rfl).trans ((run_bind_of_ok (run_removals _)).trans rfl)
            | _ => rfl
        | none =>
            -- In properties that have just been made, no title is taken.
            simp only [Option.getD_none, Option.isSome_none, Bool.false_eq_true, if_false]
            have hfree : (∅ : Fields τ).contains title = false := rfl
            rw [hfree]
            refine (run_bind_of_ok rfl).trans ((run_bind_of_ok (run_removals _)).trans ?_)
            simp only [Entries.insert_insert]
            rfl
      · rfl

theorem run_membersToProperties :
    membersToProperties.run fields = decided none (Rules.membersToProperties fields) fields := by
  unfold membersToProperties Rules.membersToProperties
  rw [run_get_bind]
  rcases Fields.items? fields "oneOf" with _ | _ | ⟨member, rest⟩
  · rfl
  · rfl
  · simp only
    rw [run_get_bind]
    cases (existingProperties? fields).bind (mergeProperties · (member :: rest)) <;> rfl

/-! ## Third phase -/

/-- The schema and its properties are marked, in this order.  The keyword of the properties is
there already, so its place does not depend on the order.  A mark on the schema under the name of
this keyword replaces the properties, also those that have just been marked. -/
theorem run_markGroup (flags : Flags) (hfault : exclusivityFault? fields = none) :
    (markGroup flags).run fields = decided none (Rules.markGroup flags fields) fields := by
  unfold markGroup Rules.markGroup
  rw [run_read_bind]
  cases hget : fields.get? "properties" with
  | none => rfl
  | some value =>
      cases value with
      | map tag properties =>
          simp only
          rw [run_get_bind]
          by_cases hexclusive : isExclusiveGroup fields = true
          · have hnote : noteFault? properties = none := by
              simpa [exclusivityFault?, hexclusive, Fields.map?, hget, Tree.fields?] using hfault
            rw [if_pos hexclusive, if_pos hexclusive, hnote]
            refine (run_bind_of_ok rfl).trans (run_stopAt_bind.trans ?_)
            unfold markProperties
            rw [bind_assoc, run_read_bind]
            by_cases hname : flags.schema = "properties"
            · rw [hname, Entries.get?_insert_self, Entries.insert_insert]
              rfl
            · have hne : (Scalar.text flags.schema).key ≠ (Scalar.text "properties").key :=
                mt Entries.text_key_eq_iff.1 hname
              rw [Entries.get?_insert_of_ne _ _ hne.symm, hget]
              refine (run_bind_of_ok rfl).trans ?_
              simp only [Entries.insert_comm hget hne]
              rfl
          · rw [if_neg hexclusive, if_neg hexclusive]
            rfl
      | _ => rfl

theorem run_markComposite (flags : Flags) :
    (markComposite flags).run fields = decided none (Rules.markComposite flags fields) fields := by
  unfold markComposite Rules.markComposite
  rw [run_get_bind]
  split <;> rfl

theorem run_markExclusive (flags : Flags) (hfault : exclusivityFault? fields = none) :
    (markExclusive flags).run fields = decided none (Rules.markExclusive flags fields) fields := by
  have hgroup := run_markGroup flags hfault
  unfold markExclusive Rules.markExclusive
  cases hmarked : Rules.markGroup flags fields with
  | none =>
      rw [hmarked] at hgroup
      rw [run_bind_of_ok hgroup]
      have hpart : (markComposite flags).run fields = _ := run_markComposite flags
      cases hcomposite : Rules.markComposite flags fields with
      | none | some =>
          rw [hcomposite] at hpart
          exact run_bind_of_ok hpart
  | some tagged =>
      rw [hmarked] at hgroup
      rw [run_bind_of_ok hgroup]
      have hpart : (markComposite flags).run tagged = _ := run_markComposite flags
      simp only
      cases hcomposite : Rules.markComposite flags tagged with
      | none | some =>
          rw [hcomposite] at hpart
          exact run_bind_of_ok hpart

end ProtoShape.Edit
