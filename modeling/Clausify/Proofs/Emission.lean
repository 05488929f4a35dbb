import Clausify.Proofs.Inversion

/-!
# The clauses that are emitted

A clause is added as its signed indices, behind those of the assumptions.  Clauses added in order are appended to the
formula one by one (`Encoder.requireAll_eq_ok`), and where nothing is assumed they are added literal by literal
(`Encoder.requireAll_eq_map`).  Over integers the opposite literal has the opposite index (`VarMap.signed_negate`).

A guard around a clause is as good as its literals in front of the clause (`Encoder.runOn_unlessAny_require`), so
loops and sequences of guarded clauses do what adding a list of clauses does, in every state (`Encoder.Adds`).
-/

namespace Clausify

/-! ### Signed indices -/

namespace VarMap

/-- The signed index of a literal in scope. -/
def signed (m : VarMap Int) (l : Literal) : Int := (m.signedIndex l).toOption.getD 0

variable {m : VarMap Int} {l : Literal} {j : Int}

private theorem signed_of_signedIndex (h : m.signedIndex l = .ok j) : m.signed l = j := by
  unfold signed
  rw [h]
  rfl

/-- The opposite literal has the opposite index. -/
private theorem signedIndex_negate (m : VarMap Int) (l : Literal) :
    m.signedIndex l.negate = (m.signedIndex l).map fun j => -j := by
  unfold signedIndex
  rw [Literal.var_negate, Literal.positive_negate]
  cases m.index l.var with
  | error x => rfl
  | ok i =>
    cases l.positive with
    | true => rfl
    | false =>
      show Except.ok i = Except.ok (- -i)
      rw [Int.neg_neg]

theorem signed_negate (m : VarMap Int) (l : Literal) : m.signed l.negate = -m.signed l := by
  unfold signed
  rw [signedIndex_negate]
  cases m.signedIndex l with
  | error x => exact Int.neg_zero.symm
  | ok j => rfl

theorem signedIndex_of_negate (h : m.signedIndex l.negate = .ok j) : m.signedIndex l = .ok (m.signed l) := by
  rw [signedIndex_negate] at h
  cases hl : m.signedIndex l with
  | error x =>
    rw [hl] at h
    cases h
  | ok i => rw [signed_of_signedIndex hl]

end VarMap

/-! ### Clauses -/

namespace Encoder

/-- Clauses added in order are appended to the formula. -/
theorem requireAll_eq_ok {I : Type} [Index I] {cs : List (List Literal)} {s t : State I}
    (h : (requireAll cs).runOn s = .ok () t) :
    ∃ ds, List.Forall₂ (fun c d => s.signedClause c = .ok d) cs ds ∧ t = { s with clauses := s.clauses ++ ds } := by
  induction cs generalizing s with
  | nil =>
    cases runOn_eachChosen_nil_eq_ok.1 h
    exact ⟨[], .nil, by rw [List.append_nil]⟩
  | cons c cs ih =>
    obtain ⟨g, a, u, hg, hu, hrest⟩ := runOn_eachChosen_cons_eq_ok.1 h
    cases hg
    obtain ⟨d, hd, -, rfl⟩ := State.addClause_eq_ok.1 (runOn_require_eq_ok.1 hu)
    obtain ⟨ds, hds, rfl⟩ := ih hrest
    refine ⟨d :: ds, .cons hd hds, ?_⟩
    rw [List.append_assoc]
    rfl

end Encoder

/-! ### Clauses without assumptions -/

/-- Where nothing is assumed, a clause is added literal by literal. -/
private theorem State.signedClause_eq_map {s : State Int} {c : List Literal} {d : List Int} (hs : s.assumptions = [])
    (h : s.signedClause c = .ok d) :
    d = c.map s.varMap.signed ∧ ∀ l ∈ c, s.varMap.signedIndex l = .ok (s.varMap.signed l) := by
  obtain ⟨gs, ls, hgs, hls, rfl⟩ := State.signedClause_eq_ok.1 h
  rw [hs, List.forall₂_nil_left_iff] at hgs
  rw [hgs, List.nil_append]
  clear h hgs
  induction hls with
  | nil => exact ⟨rfl, fun l hl => by cases hl⟩
  | cons hj _ ih =>
    have e := VarMap.signed_of_signedIndex hj
    rw [List.map_cons, e, List.forall_mem_cons, e]
    exact ⟨congrArg _ ih.1, hj, ih.2⟩

namespace Encoder

variable {s t : State Int} {cs : List (List Literal)}

theorem requireAll_eq_map (hs : s.assumptions = []) (h : (requireAll cs).runOn s = .ok () t) :
    t.clauses = s.clauses ++ cs.map (List.map s.varMap.signed) ∧
      ∀ c ∈ cs, ∀ l ∈ c, s.varMap.signedIndex l = .ok (s.varMap.signed l) := by
  obtain ⟨ds, hds, rfl⟩ := requireAll_eq_ok h
  clear h
  suffices ds = cs.map (List.map s.varMap.signed) ∧
      ∀ c ∈ cs, ∀ l ∈ c, s.varMap.signedIndex l = .ok (s.varMap.signed l) from ⟨congrArg _ this.1, this.2⟩
  induction hds with
  | nil => exact ⟨rfl, fun c hc => by cases hc⟩
  | cons hd _ ih =>
    obtain ⟨e, hc⟩ := State.signedClause_eq_map hs hd
    rw [List.map_cons, ← e, List.forall_mem_cons]
    exact ⟨congrArg _ ih.1, hc, ih.2⟩

/-- A temporary scope adds its clauses with the indices that its map has. -/
theorem withFresh_requireAll_eq_map {n : Nat} (hs : s.assumptions = [])
    (h : (withFresh n (requireAll cs)).runOn s = .ok () t) :
    t.clauses = s.clauses ++ cs.map (List.map (s.varMap.extend s.nextVar n).signed) ∧
      ∀ c ∈ cs, ∀ l ∈ c, (s.varMap.extend s.nextVar n).signedIndex l =
        .ok ((s.varMap.extend s.nextVar n).signed l) := by
  obtain ⟨inner, u, hi, hu, rfl⟩ := runOn_withFresh_eq_ok h
  obtain ⟨gs, hgs, rfl⟩ := State.enter_eq_ok.1 hi
  have hnil : [] = gs := by
    have hs : (s.takeFresh n).assumptions = [] := hs
    rw [hs] at hgs
    exact Except.ok.inj hgs
  rw [← hnil] at hu
  exact requireAll_eq_map rfl hu

end Encoder

/-! ### Guarded clauses -/

namespace State

variable {I : Type} [Index I]

/-- Guards in force are part of the next clause, as if they stood in front of its literals. -/
private theorem signedClause_assuming (s : State I) (gs c : List Literal) :
    signedClause { s with assumptions := s.assumptions ++ gs.map Literal.toValue } c = s.signedClause (gs ++ c) := by
  have hguards : (gs.map Literal.toValue).mapM (fun v => do s.varMap.signedIndex (← Literal.ofValue v)) =
      gs.mapM s.varMap.signedIndex := by
    rw [List.mapM_map]
    congr 1
    funext g
    show (Literal.ofValue g.toValue >>= s.varMap.signedIndex) = _
    rw [Literal.ofValue_toValue]
    rfl
  unfold signedClause
  dsimp only
  rw [List.mapM_append, List.mapM_append, hguards]
  simp only [bind_assoc, pure_bind, List.append_assoc]

private theorem addClause_assuming (s : State I) (gs c : List Literal) :
    addClause { s with assumptions := s.assumptions ++ gs.map Literal.toValue } c =
      (s.addClause (gs ++ c)).map fun t => { t with assumptions := s.assumptions ++ gs.map Literal.toValue } := by
  unfold addClause
  rw [signedClause_assuming]
  cases s.signedClause (gs ++ c) with
  | error x => rfl
  | ok d =>
    cases s.checkInvariants with
    | false => rfl
    | true =>
      show (s.checkAllocated d >>= fun _ => .ok _) = Except.map _ (s.checkAllocated d >>= fun _ => .ok _)
      cases s.checkAllocated d with
      | error x => rfl
      | ok u => rfl

end State

namespace Encoder

variable {I ι : Type} [Index I]

theorem runOn_require (c : List Literal) (s : State I) :
    (require c).runOn s = match s.addClause c with
      | .ok t => .ok () t
      | .error x => .error x s := by
  have hstep : Ascending (require c : Encoder I Unit).step := by
    intro s a t h
    unfold require at h
    dsimp only at h
    split at h
    · rename_i u hu
      cases h
      exact (State.frame_addClause hu).nextVar_le
    · cases h
  rw [hstep.runOn_eq]
  rfl

/-- A guarded clause is the clause with the guards in front. -/
theorem runOn_unlessAny_require (gs c : List Literal) :
    (unlessAny gs (require c) : Encoder I Unit).runOn = (require (gs ++ c)).runOn := by
  have hstep : (unlessAny gs (require c) : Encoder I Unit).step = (require (gs ++ c)).runOn := by
    funext s
    unfold unlessAny
    dsimp only
    rw [runOn_require, runOn_require, State.addClause_assuming]
    cases hc : s.addClause (gs ++ c) with
    | error x => rfl
    | ok t =>
      have := (State.frame_addClause hc).assumptions_eq
      show EStateM.Result.ok () { t with assumptions := s.assumptions } = _
      rw [← this]
  have hasc : Ascending (unlessAny gs (require c) : Encoder I Unit).step := by
    rw [hstep]
    exact ascending_runOn _
  rw [hasc.runOn_eq, hstep]

/-- The encoder does what adding the clauses in order does. -/
def Adds (e : Encoder I Unit) (cs : List (List Literal)) : Prop := e.runOn = (requireAll cs).runOn

theorem runOn_requireAll (cs : List (List Literal)) :
    (requireAll cs : Encoder I Unit).runOn = cs.forM fun c => (require c).runOn := by
  have h : (requireAll cs : Encoder I Unit).runOn =
      cs.forM fun c => ((require c).runOn >>= fun _ => pure PUnit.unit) :=
    runOn_eachChosen cs fun c => .ok (require c)
  rw [h]
  congr 1
  funext c
  exact bind_pure _

theorem adds_require (c : List Literal) : (require c : Encoder I Unit).Adds [c] := by
  unfold Adds
  rw [runOn_requireAll]
  exact (bind_pure _).symm

theorem adds_unlessAny (gs c : List Literal) : (unlessAny gs (require c) : Encoder I Unit).Adds [gs ++ c] :=
  (runOn_unlessAny_require gs c).trans (adds_require (gs ++ c))

/-- Steps in order add their clauses in order. -/
theorem Adds.seq {es : List (Encoder I Unit)} {css : List (List (List Literal))} (h : List.Forall₂ Adds es css) :
    (Encoder.seq es).Adds css.flatten := by
  unfold Adds
  induction h with
  | nil =>
    rw [runOn_seq, runOn_requireAll]
    rfl
  | @cons e cs es css he _ ih =>
    have he : e.runOn = (requireAll cs).runOn := he
    rw [runOn_seq_cons, he, ih, List.flatten_cons, runOn_requireAll, runOn_requireAll, runOn_requireAll]
    exact List.forM_append.symm

theorem Adds.each {items : List ι} {f : ι → Encoder I Unit} {cs : ι → List (List Literal)}
    (h : ∀ i, (f i).Adds (cs i)) : (Encoder.each items f).Adds (items.flatMap cs) := by
  have hall : List.Forall₂ Adds (items.map f) (items.map cs) := by
    rw [List.forall₂_map_left_iff, List.forall₂_map_right_iff]
    exact List.forall₂_same.2 fun i _ => h i
  rw [each_eq_seq]
  exact Adds.seq hall

end Encoder

end Clausify
