import Clausify.Proofs.Assembly

/-!
# Constraints that are refused or fail

A constraint is refused when it is built if some value in the place of a literal is none, and only then.  What is
built adds its clauses in order (`Encoder.AddsInOrder`), some of them inside of a temporary scope.  If it fails, it
fails at a clause that cannot be translated, because a variable cannot be looked up or has no allocated index.  This
clause is not added, and those before it stay.

So a value that is no literal is never found when some clauses were added already.  This holds for all constraints,
with any bound and any lists of values (`constraints_checked_when_built`).
-/

namespace Clausify

/-! ### Values that are literals -/

/-- The value is accepted as a literal. -/
def Value.IsLiteral (v : Value) : Prop := ∃ l, Literal.ofValue v = .ok l

private theorem Literal.isLiteral_toValue (l : Literal) : l.toValue.IsLiteral := ⟨l, ofValue_toValue l⟩

private theorem Literal.kind_of_ofValue_eq_error {v : Value} {x : Error} (h : ofValue v = .error x) :
    x.kind = .validation := by
  unfold ofValue at h
  split at h
  · split at h
    · cases h
      rfl
    · cases h
  · cases h
  · cases h
  · cases h
    rfl

private theorem Gate.literals_map {L M : Type} (f : L → M) (g : Gate L) : (g.map f).literals = g.literals.map f := by
  cases g <;> simp [map, literals]

private theorem Gate.check_eq_ok {g : Gate Value} {g' : Gate Literal} (h : g.check = .ok g') :
    g = g'.map Literal.toValue := by
  cases g with
  | isIff v a b =>
    simp only [check, bind_eq_ok, Literal.ofValue_eq_ok] at h
    obtain ⟨_, rfl, _, rfl, _, rfl, h⟩ := h
    cases h
    rfl
  | _ =>
    simp only [check, bind_eq_ok, Literal.ofValue_eq_ok, Literal.ofValues_eq_ok] at h
    obtain ⟨_, rfl, _, rfl, h⟩ := h
    cases h
    rfl

/-- A gate is refused because of a value in the place of a literal. -/
private theorem Gate.exists_of_check_eq_error {g : Gate Value} {x : Error} (h : g.check = .error x) :
    ∃ v ∈ g.literals, Literal.ofValue v = .error x := by
  have hlist {vs : List Value} (h : Literal.ofValues vs = .error x) : ∃ v ∈ vs, Literal.ofValue v = .error x :=
    exists_mem_of_mapM_eq_error h
  cases g with
  | allImplyAny hyps concs | anyImplyAny hyps concs | allImplyAll hyps concs | anyImplyAll hyps concs =>
    simp only [check, bind_eq_error] at h
    rcases h with h | ⟨_, -, h | ⟨_, -, h⟩⟩
    · obtain ⟨v, hv, h⟩ := hlist h
      exact ⟨v, by simp [literals, hv], h⟩
    · obtain ⟨v, hv, h⟩ := hlist h
      exact ⟨v, by simp [literals, hv], h⟩
    · cases h
  | allImply vs v | isAll v vs | isAny v vs =>
    simp only [check, bind_eq_error] at h
    rcases h with h | ⟨_, -, h | ⟨_, -, h⟩⟩
    · obtain ⟨v, hv, h⟩ := hlist h
      exact ⟨v, by simp [literals, hv], h⟩
    · exact ⟨v, by simp [literals], h⟩
    · cases h
  | implyAny v vs | anyImply vs v | implyAll v vs =>
    simp only [check, bind_eq_error] at h
    rcases h with h | ⟨_, -, h | ⟨_, -, h⟩⟩
    · exact ⟨v, by simp [literals], h⟩
    · obtain ⟨v, hv, h⟩ := hlist h
      exact ⟨v, by simp [literals, hv], h⟩
    · cases h
  | imply a b | equivalent a b =>
    simp only [check, bind_eq_error] at h
    rcases h with h | ⟨_, -, h | ⟨_, -, h⟩⟩
    · exact ⟨a, by simp [literals], h⟩
    · exact ⟨b, by simp [literals], h⟩
    · cases h
  | isIff v a b =>
    simp only [check, bind_eq_error] at h
    rcases h with h | ⟨_, -, h | ⟨_, -, h | ⟨_, -, h⟩⟩⟩
    · exact ⟨v, by simp [literals], h⟩
    · exact ⟨a, by simp [literals], h⟩
    · exact ⟨b, by simp [literals], h⟩
    · cases h

/-- An integer is its own bound, so only the literals are checked. -/
private theorem Cardinality.check_boundValue (c : Cardinality Value Int) :
    (∃ x, c.boundValue.check = .error x ∧ Literal.ofValues c.literals = .error x) ∨
      ∃ c' ls, c.boundValue.check = .ok c' ∧ Literal.ofValues c.literals = .ok ls := by
  cases c with
  | atLeastOne lits | atMostOne lits | exactlyOne lits | atMost lits k | atLeast lits k | exactly lits k =>
    simp only [boundValue, check, literals]
    cases Literal.ofValues lits with
    | error x => exact .inl ⟨x, rfl, rfl⟩
    | ok ls => exact .inr ⟨_, ls, rfl, rfl⟩

/-! ### Failures to translate -/

/-- A variable cannot be looked up, or has an index that is not allocated. -/
def Error.IsLookup : Error → Prop
  | unknownVariable _ | unhashableVariable _ | notInScope _ | temporaryOutOfRange _ _ | unallocated _ _ => True
  | _ => False

private theorem VarMap.isLookup_of_index {m : VarMap Int} {v : Value} {x : Error} (h : m.index v = .error x) :
    x.IsLookup := by
  obtain ⟨named, scopes⟩ := m
  unfold index at h
  dsimp only at h
  induction scopes generalizing v with
  | nil =>
    unfold scopedIndex namedIndex at h
    split at h
    · split at h
      · cases h
      · cases h
        trivial
    · cases h
      trivial
  | cons r rs ih =>
    unfold scopedIndex at h
    split at h
    · split at h
      · cases h
      · cases h
        trivial
    · exact ih h
    · cases h
      trivial

private theorem VarMap.isLookup_of_signedIndex {m : VarMap Int} {l : Literal} {x : Error}
    (h : m.signedIndex l = .error x) : x.IsLookup := by
  unfold signedIndex at h
  rcases bind_eq_error.1 h with h | ⟨i, -, h⟩
  · exact isLookup_of_index h
  · split at h <;> cases h

namespace State

/-- What is assumed are literals. -/
def AssumesLiterals {I : Type} (s : State I) : Prop := ∀ v ∈ s.assumptions, v.IsLiteral

variable {s : State Int} {c : List Literal} {x : Error}

private theorem isLookup_of_signedClause (hs : s.AssumesLiterals) (h : s.signedClause c = .error x) : x.IsLookup := by
  unfold signedClause at h
  rcases bind_eq_error.1 h with h | ⟨gs, -, h⟩
  · obtain ⟨v, hv, h⟩ := exists_mem_of_mapM_eq_error h
    obtain ⟨l, hl⟩ := hs v hv
    rw [hl] at h
    exact VarMap.isLookup_of_signedIndex h
  · rcases bind_eq_error.1 h with h | ⟨ls, -, h⟩
    · obtain ⟨l, -, h⟩ := exists_mem_of_mapM_eq_error h
      exact VarMap.isLookup_of_signedIndex h
    · cases h

private theorem isLookup_of_checkAllocated {d : List Int} (h : s.checkAllocated d = .error x) : x.IsLookup := by
  unfold checkAllocated at h
  induction d with
  | nil => cases h
  | cons l d ih =>
    rcases bind_eq_error.1 (List.forM_cons.symm.trans h) with h | ⟨-, -, h⟩
    · rcases bind_eq_error.1 h with h | ⟨reached, -, h⟩
      · cases h
      · split at h
        · cases h
          trivial
        · cases h
    · exact ih h

/-- Where literals are assumed, a clause that cannot be added has a variable that cannot be looked up. -/
private theorem isLookup_of_addClause (hs : s.AssumesLiterals) (h : s.addClause c = .error x) : x.IsLookup := by
  unfold addClause at h
  rcases bind_eq_error.1 h with h | ⟨d, -, h⟩
  · exact isLookup_of_signedClause hs h
  · cases hc : s.checkInvariants with
    | false =>
      rw [hc] at h
      cases h
    | true =>
      rw [hc] at h
      rcases bind_eq_error.1 h with h | ⟨u, -, h⟩
      · exact isLookup_of_checkAllocated h
      · cases h

end State

/-! ### States ahead -/

variable {I α β ι : Type} [Index I]

namespace State

/-- The states ahead of a state in which a clause may be added. -/
inductive Leads : State I → State I → Prop where
  | refl (s : State I) : Leads s s
  /-- Behind steps that leave the scopes as they are. -/
  | behind {s t u : State I} : s.Frame t → Leads t u → Leads s u
  /-- In a temporary scope. -/
  | within {s t u : State I} (n : Nat) : (s.takeFresh n).enter s.nextVar n = .ok t → Leads t u → Leads s u

/-- In some state ahead the clause has these signed indices. -/
def Translates (s : State I) (c : List Literal) (d : List I) : Prop := ∃ u, s.Leads u ∧ u.signedClause c = .ok d

/-- How adding clauses in order may end: all of them are added, or only those before one that cannot be. -/
inductive AddsUpTo (s : State I) (cs : List (List Literal)) : EStateM.Result Error (State I) α → Prop where
  | all {ds : List (List I)} {a : α} {t : State I} (frame : s.Frame t)
      (translates : List.Forall₂ s.Translates cs ds) (clauses_eq : t.clauses = s.clauses ++ ds) :
      AddsUpTo s cs (.ok a t)
  | upTo {earlier later : List (List Literal)} {c : List Literal} {ds : List (List I)} {x : Error} {t u : State I}
      (frame : s.Frame t) (split : cs = earlier ++ c :: later) (translates : List.Forall₂ s.Translates earlier ds)
      (leads : s.Leads u) (fails : u.addClause c = .error x) (stays : u.clauses = s.clauses ++ ds)
      (clauses_eq : t.clauses = u.clauses) : AddsUpTo s cs (.error x t)

variable {s t u : State I} {c : List Literal} {d : List I}

private theorem AssumesLiterals.frame (hs : s.AssumesLiterals) (h : s.Frame t) : t.AssumesLiterals := by
  unfold AssumesLiterals
  rw [h.assumptions_eq]
  exact hs

omit [Index I] in
private theorem assumesLiterals_of_enter {base : Int} {n : Nat} (h : s.enter base n = .ok t) : t.AssumesLiterals := by
  obtain ⟨gs, -, rfl⟩ := enter_eq_ok.1 h
  intro v hv
  obtain ⟨g, -, rfl⟩ := List.mem_map.1 hv
  exact g.lift.isLiteral_toValue

omit [Index I] in
private theorem AssumesLiterals.exists_enter (hs : s.AssumesLiterals) (n : Nat) :
    ∃ t, (s.takeFresh n).enter s.nextVar n = .ok t := by
  obtain ⟨gs, hgs⟩ := exists_forall₂ hs
  exact ⟨_, enter_eq_ok.2 ⟨gs, mapM_eq_ok.2 hgs, rfl⟩⟩

private theorem AssumesLiterals.leads (hs : s.AssumesLiterals) (h : s.Leads u) : u.AssumesLiterals := by
  induction h with
  | refl => exact hs
  | behind hframe _ ih => exact ih (hs.frame hframe)
  | within n henter _ ih => exact ih (assumesLiterals_of_enter henter)

private theorem Translates.behind (hframe : s.Frame t) (h : t.Translates c d) : s.Translates c d := by
  obtain ⟨u, hu, hd⟩ := h
  exact ⟨u, .behind hframe hu, hd⟩

private theorem Translates.within {n : Nat} (henter : (s.takeFresh n).enter s.nextVar n = .ok t)
    (h : t.Translates c d) : s.Translates c d := by
  obtain ⟨u, hu, hd⟩ := h
  exact ⟨u, .within n henter hu, hd⟩

end State

namespace Encoder

/-- Where literals are assumed, the computation adds the clauses in order, up to the first that cannot be added. -/
def AddsInOrder (x : EStateM Error (State I) α) (cs : List (List Literal)) : Prop :=
  ∀ s : State I, s.AssumesLiterals → s.AddsUpTo cs (x s)

variable {x : EStateM Error (State I) α} {cs ds : List (List Literal)}

private theorem addsInOrder_pure (a : α) : AddsInOrder (I := I) (pure a) [] := fun s _ =>
  .all (.refl s) .nil (List.append_nil s.clauses).symm

theorem AddsInOrder.bind {f : α → EStateM Error (State I) β} (hx : AddsInOrder x cs)
    (hf : ∀ a, AddsInOrder (f a) ds) : AddsInOrder (x >>= f) (cs ++ ds) := by
  intro s hs
  have hxs := hx s hs
  show s.AddsUpTo _ (EStateM.bind x f s)
  unfold EStateM.bind
  generalize x s = r at hxs
  cases hxs with
  | upTo frame split translates leads fails stays clauses_eq =>
    exact .upTo frame (by rw [split, List.append_assoc, List.cons_append]) translates leads fails stays clauses_eq
  | @all es a t frame translates clauses_eq =>
    have hft := hf a t (hs.frame frame)
    dsimp only
    generalize f a t = r at hft
    cases hft with
    | all frame' translates' clauses_eq' =>
      refine .all (frame.trans frame') (List.rel_append translates (translates'.imp fun c d h => h.behind frame)) ?_
      rw [clauses_eq', clauses_eq, List.append_assoc]
    | @upTo earlier later c fs y u v frame' split translates' leads fails stays clauses_eq' =>
      have hsplit : cs ++ ds = (cs ++ earlier) ++ c :: later := by rw [split, List.append_assoc]
      have hadded : v.clauses = s.clauses ++ (es ++ fs) := by rw [stays, clauses_eq, List.append_assoc]
      exact .upTo (frame.trans frame') hsplit
        (List.rel_append translates (translates'.imp fun c d h => h.behind frame)) (.behind frame leads) fails hadded
        clauses_eq'

private theorem addsInOrder_forM {f : ι → EStateM Error (State I) PUnit} {cs : ι → List (List Literal)} {is : List ι}
    (h : ∀ i ∈ is, AddsInOrder (f i) (cs i)) : AddsInOrder (is.forM f) (is.flatMap cs) := by
  induction is with
  | nil => exact addsInOrder_pure PUnit.unit
  | cons i is ih =>
    obtain ⟨hi, his⟩ := List.forall_mem_cons.1 h
    have hcons : (i :: is).forM f = (f i >>= fun _ => is.forM f) := List.forM_cons
    rw [hcons, List.flatMap_cons]
    exact hi.bind fun _ => ih his

private theorem addsInOrder_require (c : List Literal) : AddsInOrder (require (I := I) c).runOn [c] := by
  intro s hs
  rw [runOn_require]
  cases hc : s.addClause c with
  | ok t =>
    obtain ⟨d, hd, -, ht⟩ := State.addClause_eq_ok.1 hc
    exact .all (State.frame_addClause hc) (.cons ⟨s, .refl s, hd⟩ .nil) (by rw [ht])
  | error x =>
    exact .upTo (.refl s) (List.nil_append [c]).symm .nil (.refl s) hc (List.append_nil s.clauses).symm rfl

private theorem addsInOrder_requireAll (cs : List (List Literal)) :
    AddsInOrder (requireAll (I := I) cs).runOn cs := by
  rw [runOn_requireAll]
  have h : AddsInOrder (I := I) (cs.forM fun c => (require c).runOn) (cs.flatMap fun c => [c]) :=
    addsInOrder_forM fun c _ => addsInOrder_require c
  rwa [List.flatMap_singleton'] at h

private theorem addsInOrder_seq {es : List (Encoder I Unit)} {css : List (List (List Literal))}
    (h : List.Forall₂ (fun e cs => AddsInOrder e.runOn cs) es css) : AddsInOrder (seq es).runOn css.flatten := by
  induction h with
  | nil =>
    rw [runOn_seq]
    exact addsInOrder_pure PUnit.unit
  | cons he _ ih =>
    rw [runOn_seq_cons, List.flatten_cons]
    exact he.bind fun _ => ih

theorem AddsInOrder.withFresh {e : Encoder I α} (h : AddsInOrder e.runOn cs) (n : Nat) :
    AddsInOrder (withFresh n e).runOn cs := by
  intro s hs
  obtain ⟨inner, hi⟩ := hs.exists_enter n
  have hinner := h inner (State.assumesLiterals_of_enter hi)
  have hclauses : inner.clauses = s.clauses := by
    obtain ⟨gs, -, rfl⟩ := State.enter_eq_ok.1 hi
    rfl
  have hleave {t : State I} (hframe : inner.Frame t) : ∃ u, (s.takeFresh n).leave t = .ok () u ∧ s.Frame u ∧
      u.clauses = t.clauses := by
    have hle : (s.takeFresh n).nextVar ≤ t.nextVar := by
      obtain ⟨gs, -, rfl⟩ := State.enter_eq_ok.1 hi
      exact hframe.nextVar_le
    have hout := State.frame_leave hi hframe
    rw [State.leave_of_le hle] at hout ⊢
    exact ⟨_, rfl, hout, rfl⟩
  rw [runOn_withFresh, hi]
  dsimp only
  generalize e.runOn inner = r at hinner
  cases hinner with
  | all frame translates clauses_eq =>
    obtain ⟨u, hu, hframe, hformula⟩ := hleave frame
    dsimp only
    rw [hu]
    exact .all hframe (translates.imp fun c d h => h.within hi) (by rw [hformula, clauses_eq, hclauses])
  | upTo frame split translates leads fails stays clauses_eq =>
    obtain ⟨u, hu, hframe, hformula⟩ := hleave frame
    dsimp only
    rw [hu]
    exact .upTo hframe split (translates.imp fun c d h => h.within hi) (.within n hi leads) fails
      (by rw [stays, hclauses]) (by rw [hformula, clauses_eq])

end Encoder

/-! ### Constraints -/

private theorem Gate.addsInOrder_encode (g : Gate Literal) :
    Encoder.AddsInOrder (g.encode (I := I)).runOn g.clauses :=
  Encoder.addsInOrder_requireAll g.clauses

private theorem Gate.addsInOrder_composed (g : Gate Literal) :
    Encoder.AddsInOrder (g.composed (I := I)).runOn g.clauses := by
  rw [g.adds_composed]
  exact Encoder.addsInOrder_requireAll g.clauses

namespace Cardinality

open Encoder

private theorem exists_addsInOrder_atMost (lits : List Literal) (k : Int) :
    ∃ cs, AddsInOrder (encodeAtMost (I := I) lits k).runOn cs := by
  unfold encodeAtMost
  split
  · exact ⟨_, addsInOrder_require []⟩
  split
  · refine ⟨[], ?_⟩
    rw [runOn_pure]
    exact addsInOrder_pure ()
  split
  · exact ⟨_, addsInOrder_requireAll _⟩
  · exact ⟨_, (addsInOrder_requireAll _).withFresh _⟩

private theorem exists_addsInOrder_atLeast (lits : List Literal) (k : Int) :
    ∃ cs, AddsInOrder (encodeAtLeast (I := I) lits k).runOn cs := by
  unfold encodeAtLeast
  split
  · refine ⟨[], ?_⟩
    rw [runOn_pure]
    exact addsInOrder_pure ()
  split
  · exact ⟨_, addsInOrder_require []⟩
  · exact exists_addsInOrder_atMost _ _

private theorem exists_addsInOrder (c : Cardinality Literal Int) :
    ∃ cs, AddsInOrder (c.encode (I := I)).runOn cs := by
  cases c with
  | atLeastOne lits => exact ⟨_, addsInOrder_require lits⟩
  | atMostOne lits => exact ⟨_, addsInOrder_requireAll _⟩
  | exactlyOne lits =>
    have hone := addsInOrder_require (I := I) lits
    exact ⟨_, addsInOrder_seq (.cons hone (.cons (addsInOrder_requireAll _) .nil))⟩
  | atMost lits k => exact exists_addsInOrder_atMost lits k
  | atLeast lits k => exact exists_addsInOrder_atLeast lits k
  | exactly lits k =>
    obtain ⟨cs, hcs⟩ := exists_addsInOrder_atMost (I := I) lits k
    obtain ⟨ds, hds⟩ := exists_addsInOrder_atLeast (I := I) lits k
    exact ⟨_, addsInOrder_seq (.cons hcs (.cons hds .nil))⟩

end Cardinality

/-- What is built from values: it is refused as malformed input if some of the values are no literals, and only then.
Otherwise it adds some clauses in order wherever literals are assumed, up to the first that cannot be added because a
variable cannot be looked up. -/
structure CheckedWhenBuilt (vs : List Value) (built : Except Error (Encoder Int Unit)) : Prop where
  refused_iff : (∃ x, built = .error x) ↔ ∃ v ∈ vs, ¬v.IsLiteral
  kind_eq : ∀ x, built = .error x → x.kind = .validation
  adds : ∀ e, built = .ok e → ∃ cs, Encoder.AddsInOrder e.runOn cs
  isLookup : ∀ e, built = .ok e → ∀ s : State Int, s.AssumesLiterals → ∀ x t, e.runOn s = .error x t → x.IsLookup

private theorem Encoder.AddsInOrder.isLookup {α : Type} {y : EStateM Error (State Int) α} {cs : List (List Literal)}
    (h : AddsInOrder y cs) {s t : State Int} (hs : s.AssumesLiterals) {x : Error} (ht : y s = .error x t) :
    x.IsLookup := by
  have hadds := h s hs
  rw [ht] at hadds
  cases hadds with
  | upTo frame split translates leads fails stays clauses_eq =>
    exact State.isLookup_of_addClause (hs.leads leads) fails

/-- A check of all values, and then an encoder that adds clauses. -/
private theorem CheckedWhenBuilt.of_check {α : Type} {vs : List Value} {checked : Except Error α}
    {f : α → Encoder Int Unit} (hok : ∀ a, checked = .ok a → ∀ v ∈ vs, v.IsLiteral)
    (herror : ∀ x, checked = .error x → ∃ v ∈ vs, Literal.ofValue v = .error x)
    (hf : ∀ a, ∃ cs, Encoder.AddsInOrder (f a).runOn cs) : CheckedWhenBuilt vs (checked.map f) := by
  cases hc : checked with
  | error x =>
    obtain ⟨v, hv, hx⟩ := herror x hc
    refine ⟨⟨fun _ => ⟨v, hv, ?_⟩, fun _ => ⟨x, rfl⟩⟩, fun y hy => ?_, fun e he => ?_, fun e he => ?_⟩
    · rintro ⟨l, hl⟩
      rw [hx] at hl
      cases hl
    · cases hy
      exact Literal.kind_of_ofValue_eq_error hx
    · cases he
    · cases he
  | ok a =>
    obtain ⟨cs, hcs⟩ := hf a
    refine ⟨⟨fun ⟨x, hx⟩ => ?_, fun ⟨v, hv, hnot⟩ => absurd (hok a hc v hv) hnot⟩, fun y hy => ?_, fun e he => ?_,
      fun e he s hs x t ht => ?_⟩
    · cases hx
    · cases hy
    · cases he
      exact ⟨cs, hcs⟩
    · cases he
      exact hcs.isLookup hs ht

private theorem Gate.checkedWhenBuilt (g : Gate Value) {f : Gate Literal → Encoder Int Unit}
    (hf : ∀ g, ∃ cs, Encoder.AddsInOrder (f g).runOn cs) : CheckedWhenBuilt g.literals (g.check.map f) := by
  refine .of_check (fun g' h v hv => ?_) (fun x h => exists_of_check_eq_error h) hf
  rw [check_eq_ok h, literals_map] at hv
  obtain ⟨l, -, rfl⟩ := List.mem_map.1 hv
  exact l.isLiteral_toValue

private theorem Cardinality.checkedWhenBuilt (c : Cardinality Value Int) :
    CheckedWhenBuilt c.literals (c.boundValue.check.map encode) := by
  refine .of_check (fun c' h v hv => ?_) (fun x h => ?_) exists_addsInOrder
  · rcases c.check_boundValue with ⟨x, hx, -⟩ | ⟨_, ls, -, hls⟩
    · rw [h] at hx
      cases hx
    · rw [Literal.ofValues_eq_ok.1 hls] at hv
      obtain ⟨l, -, rfl⟩ := List.mem_map.1 hv
      exact l.isLiteral_toValue
  · rcases c.check_boundValue with ⟨y, hy, hlits⟩ | ⟨c', ls, hc', -⟩
    · rw [h] at hy
      cases hy
      exact exists_mem_of_mapM_eq_error hlits
    · rw [h] at hc'
      cases hc'

/-- All gates and all cardinality constraints with an integer as their bound are checked when they are built, whether
they are assembled from checked operations or encoded from their literals at once. -/
theorem constraints_checked_when_built :
    (∀ g : Gate Value, CheckedWhenBuilt g.literals g.assemble ∧
      CheckedWhenBuilt g.literals (g.check.map Gate.encode)) ∧
    ∀ c : Cardinality Value Int, CheckedWhenBuilt c.literals c.assemble ∧
      CheckedWhenBuilt c.literals (c.boundValue.check.map Cardinality.encode) := by
  refine ⟨fun g => ⟨?_, ?_⟩, fun c => ⟨?_, c.checkedWhenBuilt⟩⟩
  · rw [g.assemble_eq]
    exact g.checkedWhenBuilt fun g => ⟨_, g.addsInOrder_composed⟩
  · exact g.checkedWhenBuilt fun g => ⟨_, g.addsInOrder_encode⟩
  · rw [c.assemble_eq]
    exact c.checkedWhenBuilt

/-- A zero among the literals is found although the bound is trivial.  Of four clauses under a guard the second one
has an unknown variable, so the first one stays alone. -/
theorem constraints_checked_when_built_of_unknown_variable :
    let c : Cardinality Value Int := .atMost [.int 1, .int 0] (-1)
    let g : Gate Value := .anyImplyAll [.lit (.str "a") true, .foreign (.str "b") true]
      [.lit (.str "b") false, .lit (.str "c") true]
    let s : State Int :=
      { State.initial (.ofTable (.ofList [(.str "a", 1), (.str "b", 2)])) true true .empty with
        assumptions := [.lit (.str "b") true] }
    (∃ x, c.assemble (I := Int) = .error x) ∧ s.AssumesLiterals ∧
      ∃ e x t, g.assemble = .ok e ∧ e.runOn s = .error x t ∧ x.IsLookup ∧ t.clauses = [[2, -1, -2]] := by
  intro c g s
  have hzero : ¬(Value.int 0).IsLiteral := by
    rintro ⟨l, hl⟩
    cases hl
  have hs : s.AssumesLiterals := by
    intro v hv
    rw [List.mem_singleton.1 hv]
    exact (Literal.named (.str "b") true).isLiteral_toValue
  obtain ⟨e, x, t, he, hr, ht⟩ : ∃ e x t, g.assemble (I := Int) = .ok e ∧ e.runOn s = .error x t ∧
      t.clauses = [[2, -1, -2]] := ⟨_, _, _, rfl, rfl, rfl⟩
  have hc := (constraints_checked_when_built.2 c).1.refused_iff
  have hg := (constraints_checked_when_built.1 g).1.isLookup e he s hs x t hr
  exact ⟨hc.2 ⟨.int 0, by simp [c, Cardinality.literals], hzero⟩, hs, e, x, t, he, hr, hg, ht⟩

end Clausify
