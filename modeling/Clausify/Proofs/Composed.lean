import Clausify.Proofs.Program
import Mathlib.Tactic.Choose

/-!
# Composed encoders

An encoder is composed if it is that of a program.  All operations of the library lead from composed encoders to
composed ones, gates, cardinality constraints and expressions included, so a statement about all programs is one
about all that the library can build (`Encoder.OfLibrary`).  Where a part is chosen late, only the encoders that are
chosen count.
-/

namespace Clausify.Encoder

variable {I α β ι : Type} [Index I]

/-- The encoder is one of a program. -/
def Composed (e : Encoder I α) : Prop := ∃ p : Program α, p.encoder = e

private theorem exists_runOn_eq (choice : Except Error (Encoder I α)) (h : ∀ e, choice = .ok e → e.Composed) :
    ∃ p : Program α, p.encoder.runOn = runChosen choice := by
  cases choice with
  | error x => exact ⟨.fail x, rfl⟩
  | ok e =>
    obtain ⟨p, rfl⟩ := h e rfl
    exact ⟨p, rfl⟩

/-! ### Order -/

private theorem composed_pure (a : α) : (.pure a : Encoder I α).Composed := ⟨.pure a, rfl⟩

theorem Composed.bind {e : Encoder I α} {f : α → Except Error (Encoder I β)} (he : e.Composed)
    (hf : ∀ a g, f a = .ok g → g.Composed) : (e.bind f).Composed := by
  obtain ⟨p, rfl⟩ := he
  choose q hq using fun a => exists_runOn_eq (f a) (hf a)
  refine ⟨p.bind q, ?_⟩
  rw [Program.encoder_bind]
  simp only [Encoder.bind, Program.runChosen_choice, hq]

theorem Composed.andThen {e : Encoder I α} {g : Encoder I β} (he : e.Composed) (hg : g.Composed) :
    (e.andThen g).Composed :=
  he.bind (f := fun _ => .ok g) fun _ _ h => by cases h; exact hg

private theorem Composed.map {e : Encoder I α} (f : α → β) (he : e.Composed) : (e.map f).Composed := by
  obtain ⟨p, rfl⟩ := he
  refine ⟨p.bind fun a => .pure (f a), ?_⟩
  rw [Program.encoder_bind, Encoder.bind, Encoder.map]
  congr 1
  funext s
  show EStateM.bind _ _ s = EStateM.bind _ _ s
  unfold EStateM.bind
  cases p.encoder.runOn s with
  | ok a t =>
    have ht : (Encoder.pure (f a)).after t = t := after_eq_step _ t
    exact runOn_of_le (Int.le_of_eq (congrArg State.nextVar ht).symm)
  | error x t => rfl

theorem Composed.eachChosen {items : List ι} {f : ι → Except Error (Encoder I α)}
    (h : ∀ i ∈ items, ∀ e, f i = .ok e → e.Composed) : (eachChosen items f).Composed := by
  choose p hp using fun i : {i // i ∈ items} => exists_runOn_eq (f i.1) (h i.1 i.2)
  refine ⟨.each items.attach p, ?_⟩
  rw [Program.encoder_each]
  unfold Encoder.eachChosen
  simp only [Program.runChosen_choice, hp, List.forM_eq_forM]
  conv => rhs; rw [← List.attach_map_subtype_val items, List.forM_map]

private theorem Composed.each {items : List ι} {f : ι → Encoder I α} (h : ∀ i ∈ items, (f i).Composed) :
    (each items f).Composed :=
  Composed.eachChosen fun i hi e he => by cases he; exact h i hi

theorem Composed.seq {es : List (Encoder I α)} (h : ∀ e ∈ es, e.Composed) : (seq es).Composed :=
  Composed.each (f := id) h

private theorem Composed.onlyIf {e : Encoder I α} (cond : Bool) (he : e.Composed) : (onlyIf cond e).Composed := by
  unfold Encoder.onlyIf
  split
  · exact he.map _
  · exact composed_pure ()

theorem Composed.attempt {e : Encoder I α} (he : e.Composed) : e.attempt.Composed := by
  obtain ⟨p, rfl⟩ := he
  exact ⟨.attempt p, rfl⟩

/-! ### Clauses and scopes -/

theorem composed_snapshot : (snapshot : Encoder I Snapshot).Composed := ⟨.snapshot, rfl⟩

theorem composed_require (clause : List Literal) : (require (I := I) clause).Composed := ⟨.require clause, rfl⟩

theorem composed_requireAll (clauses : List (List Literal)) : (requireAll (I := I) clauses).Composed :=
  Composed.each fun c _ => composed_require c

private theorem composed_exclude (a : Assignment) : (exclude (I := I) a).Composed := composed_require _

private theorem composed_prescribe (a : Assignment) : (prescribe (I := I) a).Composed :=
  Composed.each fun _ _ => composed_require _

theorem Composed.context {e : Encoder I α} (name : String) (he : e.Composed) : (context name e).Composed := by
  obtain ⟨p, rfl⟩ := he
  exact ⟨.context name p, rfl⟩

theorem Composed.unlessAny {e : Encoder I α} (guards : List Literal) (he : e.Composed) :
    (unlessAny guards e).Composed := by
  obtain ⟨p, rfl⟩ := he
  exact ⟨.unlessAny guards p, rfl⟩

theorem Composed.ifAll {e : Encoder I α} (lits : List Literal) (he : e.Composed) : (ifAll lits e).Composed :=
  he.unlessAny _

theorem Composed.withFresh {e : Encoder I α} (n : Nat) (he : e.Composed) : (withFresh n e).Composed := by
  obtain ⟨p, rfl⟩ := he
  exact ⟨.withFresh n p, rfl⟩

/-! ### Constraints -/

private theorem composed_gate (g : Gate Literal) : (g.encode (I := I)).Composed := composed_requireAll _

private theorem composed_atMost (lits : List Literal) (k : Int) :
    (Cardinality.encodeAtMost (I := I) lits k).Composed := by
  unfold Cardinality.encodeAtMost
  split
  · exact composed_require []
  split
  · exact composed_pure ()
  split
  · exact composed_requireAll _
  · exact (composed_requireAll _).withFresh _

private theorem composed_atLeast (lits : List Literal) (k : Int) :
    (Cardinality.encodeAtLeast (I := I) lits k).Composed := by
  unfold Cardinality.encodeAtLeast
  split
  · exact composed_pure ()
  split
  · exact composed_require []
  · exact composed_atMost _ _

private theorem composed_cardinality (c : Cardinality Literal Int) : (c.encode (I := I)).Composed := by
  cases c with
  | atLeastOne lits => exact composed_require lits
  | atMostOne lits => exact composed_requireAll _
  | exactlyOne lits =>
    refine Composed.seq fun e he => ?_
    simp only [List.mem_cons, List.not_mem_nil, or_false] at he
    rcases he with rfl | rfl
    · exact composed_require lits
    · exact composed_requireAll _
  | atMost lits k => exact composed_atMost lits k
  | atLeast lits k => exact composed_atLeast lits k
  | exactly lits k =>
    refine Composed.seq fun e he => ?_
    simp only [List.mem_cons, List.not_mem_nil, or_false] at he
    rcases he with rfl | rfl
    · exact composed_atMost lits k
    · exact composed_atLeast lits k

private theorem composed_expr (e : Expr) : (e.encode (I := I)).Composed := by
  refine Composed.each fun c _ => ?_
  unfold Expr.encodeConjunct
  split
  · exact composed_require _
  · refine (Composed.seq fun g hg => ?_).withFresh _
    rcases List.mem_append.1 hg with hg | hg
    · obtain ⟨g, -, rfl⟩ := List.mem_map.1 hg
      exact composed_gate g
    · rw [List.mem_singleton.1 hg]
      exact composed_require _

private theorem composed_constraint (c : Constraint) : (c.encode (I := I)).Composed := by
  cases c with
  | expr e => exact composed_expr e
  | atLeast k names => exact composed_cardinality (.atLeast _ _)
  | atMost k names => exact composed_cardinality (.atMost _ _)
  | exactly k names => exact composed_cardinality (.exactly _ _)

/-! ### The operations of the library -/

/-- The encoder is built from the operations of the library.  None of them catches the failure of a part. -/
inductive OfLibrary : {α : Type} → Encoder I α → Prop where
  | pure {α : Type} (a : α) : OfLibrary (.pure a)
  | bind {α β : Type} {e : Encoder I α} {f : α → Except Error (Encoder I β)} :
      OfLibrary e → (∀ a g, f a = .ok g → OfLibrary g) → OfLibrary (e.bind f)
  | map {α β : Type} {e : Encoder I α} (f : α → β) : OfLibrary e → OfLibrary (e.map f)
  | eachChosen {ι α : Type} {items : List ι} {f : ι → Except Error (Encoder I α)} :
      (∀ i ∈ items, ∀ e, f i = .ok e → OfLibrary e) → OfLibrary (.eachChosen items f)
  | onlyIf {α : Type} {e : Encoder I α} (cond : Bool) : OfLibrary e → OfLibrary (.onlyIf cond e)
  | snapshot : OfLibrary .snapshot
  | require (clause : List Literal) : OfLibrary (.require clause)
  | requireAll (clauses : List (List Literal)) : OfLibrary (.requireAll clauses)
  | exclude (a : Assignment) : OfLibrary (.exclude a)
  | prescribe (a : Assignment) : OfLibrary (.prescribe a)
  | context {α : Type} {e : Encoder I α} (name : String) : OfLibrary e → OfLibrary (.context name e)
  | unlessAny {α : Type} {e : Encoder I α} (guards : List Literal) : OfLibrary e → OfLibrary (.unlessAny guards e)
  | ifAll {α : Type} {e : Encoder I α} (lits : List Literal) : OfLibrary e → OfLibrary (.ifAll lits e)
  | withFresh {α : Type} {e : Encoder I α} (n : Nat) : OfLibrary e → OfLibrary (.withFresh n e)
  | gate (g : Gate Literal) : OfLibrary g.encode
  | cardinality (c : Cardinality Literal Int) : OfLibrary c.encode
  | constraint (c : Constraint) : OfLibrary c.encode

theorem OfLibrary.composed {e : Encoder I α} (h : e.OfLibrary) : e.Composed := by
  induction h with
  | pure a => exact composed_pure a
  | bind _ _ ihe ihf => exact ihe.bind ihf
  | map f _ ih => exact ih.map f
  | eachChosen _ ih => exact .eachChosen ih
  | onlyIf cond _ ih => exact ih.onlyIf cond
  | snapshot => exact composed_snapshot
  | require clause => exact composed_require clause
  | requireAll clauses => exact composed_requireAll clauses
  | exclude a => exact composed_exclude a
  | prescribe a => exact composed_prescribe a
  | context name _ ih => exact ih.context name
  | unlessAny guards _ ih => exact ih.unlessAny guards
  | ifAll lits _ ih => exact ih.ifAll lits
  | withFresh n _ ih => exact ih.withFresh n
  | gate g => exact composed_gate g
  | cardinality c => exact composed_cardinality c
  | constraint c => exact composed_constraint c

end Clausify.Encoder
