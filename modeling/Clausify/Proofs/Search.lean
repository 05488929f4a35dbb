import Clausify.Proofs.Valuation
import Clausify.Solver.Basic

/-!
# The search for solutions

A solver is correct if it returns nothing exactly on clauses that have no solution, and else literals that do not
contradict each other, one of every clause among them (`Solver.Correct`).  Literals need not be there for every index.
The search is correct (`Solver.search_correct`): the clauses that are left when a literal is true have a solution with
it exactly if all clauses have, and a literal that has a value does not occur in them.
-/

namespace Clausify

namespace Cnf

/-- No literal is there with its negation. -/
def Consistent (ls : List Int) : Prop := ∀ l ∈ ls, -l ∉ ls

/-- Each clause has one of the literals. -/
def Hit (ls : List Int) (cs : List (List Int)) : Prop := ∀ c ∈ cs, ∃ l ∈ c, l ∈ ls

private theorem holds_neg {σ : Int → Bool} {l : Int} (hl : l ≠ 0) : Holds σ (-l) ↔ ¬Holds σ l := by
  have hpos : decide (0 < -l) = !decide (0 < l) := by
    rw [← decide_not]
    exact decide_eq_decide.2 (by omega)
  unfold Holds
  rw [Int.natAbs_neg, hpos]
  cases σ l.natAbs <;> cases decide (0 < l) <;> decide

end Cnf

open Cnf

namespace Solver

/-- The right answer for clauses. -/
def Right (cs : List (List Int)) : Option (List Int) → Prop
  | none => ¬∃ σ, Satisfies σ cs
  | some m => Consistent m ∧ Hit m cs

/-- The solver gives the right answer for nonempty clauses of nonzero literals, with the assumed literals as further
clauses. -/
def Correct (solver : Solver) : Prop :=
  ∀ clauses assumed, (∀ c ∈ clauses, c ≠ [] ∧ ∀ l ∈ c, l ≠ 0) → (∀ l ∈ assumed, l ≠ 0) →
    Right (assumed.map ([·]) ++ clauses) (solver clauses assumed)

variable {l : Int} {c : List Int} {cs : List (List Int)}

/-! ### Making a literal true -/

private theorem mem_assign : c ∈ assign l cs ↔ ∃ d ∈ cs, l ∉ d ∧ c = d.filter (· ≠ -l) := by
  unfold assign
  simp only [List.mem_map, List.mem_filter, Bool.not_eq_true', List.contains_eq_mem, decide_eq_false_iff_not]
  constructor
  · rintro ⟨d, ⟨hd, hl⟩, rfl⟩
    exact ⟨d, hd, hl, rfl⟩
  · rintro ⟨d, hd, hl, rfl⟩
    exact ⟨d, ⟨hd, hl⟩, rfl⟩

private theorem assign_cons : assign l (c :: cs) =
    if l ∈ c then assign l cs else c.filter (· ≠ -l) :: assign l cs := by
  unfold assign
  by_cases h : l ∈ c
  · simp [h]
  · simp [h]

private theorem satisfies_assign {σ : Int → Bool} (hl : l ≠ 0) (hσ : Holds σ l) (h : Satisfies σ cs) :
    Satisfies σ (assign l cs) := by
  intro d hd
  obtain ⟨c, hc, -, rfl⟩ := mem_assign.1 hd
  obtain ⟨x, hx, hσx⟩ := h c hc
  refine ⟨x, List.mem_filter.2 ⟨hx, decide_eq_true fun e => ?_⟩, hσx⟩
  exact (holds_neg hl).1 (e ▸ hσx) hσ

private theorem hit_of_assign {m : List Int} (hl : l ∈ m) (h : Hit m (assign l cs)) : Hit m cs := by
  intro c hc
  by_cases hlc : l ∈ c
  · exact ⟨l, hlc, hl⟩
  · obtain ⟨x, hx, hm⟩ := h _ (mem_assign.2 ⟨c, hc, hlc, rfl⟩)
    exact ⟨x, (List.mem_filter.1 hx).1, hm⟩

private theorem length_assign_le (l : Int) (cs : List (List Int)) :
    (assign l cs).flatten.length ≤ cs.flatten.length := by
  induction cs with
  | nil => exact Nat.le_refl _
  | cons c cs ih =>
    rw [assign_cons, List.flatten_cons, List.length_append]
    split
    · omega
    · rw [List.flatten_cons, List.length_append]
      have := List.length_filter_le (fun x => decide (x ≠ -l)) c
      omega

/-- A literal that occurs is taken out. -/
private theorem length_assign_lt {x : Int} (hc : c ∈ cs) (hx : x ∈ c) (hxl : x = l ∨ x = -l) :
    (assign l cs).flatten.length < cs.flatten.length := by
  induction cs with
  | nil => cases hc
  | cons d cs ih =>
    have hle := length_assign_le l cs
    rw [assign_cons, List.flatten_cons, List.length_append]
    rcases List.mem_cons.1 hc with rfl | hc
    · have hpos : 0 < c.length := List.length_pos_of_mem hx
      split
      · omega
      · rename_i hl
        rw [List.flatten_cons, List.length_append]
        have hx' : x = -l := hxl.resolve_left fun e => hl (e ▸ hx)
        have : (c.filter fun y => decide (y ≠ -l)).length < c.length :=
          List.length_filter_lt_length_iff_exists.2 ⟨x, hx, by simpa using hx'⟩
        omega
    · have := ih hc
      split
      · omega
      · rw [List.flatten_cons, List.length_append]
        have := List.length_filter_le (fun x => decide (x ≠ -l)) d
        omega

private theorem mem_of_unit? (h : unit? cs = some l) : [l] ∈ cs := by
  fun_induction unit? cs with
  | case1 => cases h
  | case2 x cs =>
    cases h
    exact List.mem_cons_self ..
  | case3 d cs hd ih => exact List.mem_cons_of_mem _ (ih h)

/-! ### The search -/

/-- The literals of the clauses are nonzero and have no value yet. -/
def Apart (trail : List Int) (cs : List (List Int)) : Prop :=
  ∀ c ∈ cs, ∀ x ∈ c, x ≠ 0 ∧ x ∉ trail ∧ -x ∉ trail

/-- The right answer for the clauses that are left, while some literals are true. -/
def Completes (trail : List Int) (cs : List (List Int)) : Option (List Int) → Prop
  | none => ¬∃ σ, Satisfies σ cs
  | some m => Consistent m ∧ trail ⊆ m ∧ Hit m cs

variable {trail m : List Int}

private theorem Apart.assign (h : Apart trail cs) : Apart (l :: trail) (assign l cs) := by
  intro d hd x hx
  obtain ⟨c, hc, hl, rfl⟩ := mem_assign.1 hd
  obtain ⟨hxc, hne⟩ := List.mem_filter.1 hx
  have hne : x ≠ -l := of_decide_eq_true hne
  obtain ⟨h0, ht, hn⟩ := h c hc x hxc
  refine ⟨h0, List.not_mem_cons_of_ne_of_not_mem (fun e => hl (e ▸ hxc)) ht, ?_⟩
  exact List.not_mem_cons_of_ne_of_not_mem (by omega) hn

private theorem Apart.consistent (h : Apart trail cs) (ht : Consistent trail) (hc : c ∈ cs) (hl : l ∈ c ∨ -l ∈ c) :
    Consistent (l :: trail) := by
  have hfree : l ≠ 0 ∧ l ∉ trail ∧ -l ∉ trail := by
    rcases hl with hl | hl
    · exact h c hc l hl
    · obtain ⟨h0, h1, h2⟩ := h c hc (-l) hl
      rw [Int.neg_neg] at h2
      exact ⟨by omega, h2, h1⟩
  intro x hx hn
  rcases List.mem_cons.1 hx with rfl | hx
  · rcases List.mem_cons.1 hn with e | hn
    · omega
    · exact hfree.2.2 hn
  · rcases List.mem_cons.1 hn with e | hn
    · have e : x = -l := by omega
      exact hfree.2.2 (e ▸ hx)
    · exact ht x hx hn

private theorem Completes.of_assign (h : Completes (l :: trail) (assign l cs) (some m)) :
    Completes trail cs (some m) := by
  obtain ⟨hm, hsub, hhit⟩ := h
  obtain ⟨hl, hsub⟩ := List.cons_subset.1 hsub
  exact ⟨hm, hsub, hit_of_assign hl hhit⟩

/-- A literal that is true in every solution may be assigned. -/
private theorem Completes.forced {o : Option (List Int)} (hl : l ≠ 0) (hforced : ∀ σ, Satisfies σ cs → Holds σ l)
    (h : Completes (l :: trail) (assign l cs) o) : Completes trail cs o := by
  cases o with
  | none =>
    rintro ⟨σ, hσ⟩
    exact h ⟨σ, satisfies_assign hl (hforced σ hσ) hσ⟩
  | some m => exact h.of_assign

private theorem extend_completes {depth : Nat} (hsize : cs.flatten.length < depth) (ht : Consistent trail)
    (ha : Apart trail cs) : Completes trail cs (extend depth trail cs) := by
  fun_induction extend depth trail cs with
  | case1 depth trail => exact ⟨ht, List.Subset.refl _, fun c hc => absurd hc List.not_mem_nil⟩
  | case2 trail c cs => exact absurd hsize (Nat.not_lt_zero _)
  | case3 depth trail c cs hempty =>
    rintro ⟨σ, hσ⟩
    obtain ⟨d, hd, he⟩ := List.any_eq_true.1 hempty
    obtain ⟨x, hx, -⟩ := hσ d hd
    rw [List.isEmpty_iff.1 he] at hx
    cases hx
  | case4 depth trail c cs hempty l hunit ih =>
    have hmem := mem_of_unit? hunit
    have hl : l ∈ [l] := List.mem_cons_self ..
    have hlt := length_assign_lt hmem hl (.inl rfl)
    refine (ih (by omega) (ha.consistent ht hmem (.inl hl)) ha.assign).forced (ha _ hmem l hl).1 fun σ hσ => ?_
    obtain ⟨x, hx, hσx⟩ := hσ _ hmem
    rwa [List.mem_singleton.1 hx] at hσx
  | case5 depth trail cs hempty hunit => exact absurd (List.any_eq_true.2 ⟨[], List.mem_cons_self .., rfl⟩) hempty
  | case6 depth trail cs l c hempty m hunit hm ih =>
    have hmem : l :: c ∈ (l :: c) :: cs := List.mem_cons_self ..
    have hl : l ∈ l :: c := List.mem_cons_self ..
    have hlt := length_assign_lt hmem hl (.inl rfl)
    have h := ih (by omega) (ha.consistent ht hmem (.inl hl)) ha.assign
    rw [hm] at h ⊢
    exact h.of_assign
  | case7 depth trail cs l c hempty hunit hm ih1 ih2 =>
    have hmem : l :: c ∈ (l :: c) :: cs := List.mem_cons_self ..
    have hl : l ∈ l :: c := List.mem_cons_self ..
    have h0 : l ≠ 0 := (ha _ hmem l hl).1
    have hneg : - -l ∈ l :: c := by rwa [Int.neg_neg]
    have hlt := length_assign_lt hmem hl (.inl rfl)
    have hlt' := length_assign_lt hmem hl (l := -l) (.inr (Int.neg_neg l).symm)
    have h1 := ih1 (by omega) (ha.consistent ht hmem (.inl hl)) ha.assign
    have h2 := ih2 (by omega) (ha.consistent ht hmem (.inr hneg)) ha.assign
    rw [hm] at h1 ⊢
    -- no solution has the literal, so each has its negation
    exact h2.forced (by omega) fun σ hσ => (holds_neg h0).2 fun hσl => h1 ⟨σ, satisfies_assign h0 hσl hσ⟩

/-- The search is correct. -/
theorem search_correct : Correct search := by
  intro clauses assumed hclauses hassumed
  have hapart : Apart [] (assumed.map ([·]) ++ clauses) := by
    intro c hc x hx
    refine ⟨?_, List.not_mem_nil, List.not_mem_nil⟩
    rcases List.mem_append.1 hc with hc | hc
    · obtain ⟨l, hl, rfl⟩ := List.mem_map.1 hc
      rw [List.mem_singleton.1 hx]
      exact hassumed l hl
    · exact (hclauses c hc).2 x hx
  have h := extend_completes (Nat.lt_succ_self _) (fun _ hl => absurd hl List.not_mem_nil) hapart
  unfold search
  dsimp only
  cases hm : extend _ [] (assumed.map ([·]) ++ clauses) with
  | none =>
    rw [hm] at h
    exact h
  | some m =>
    rw [hm] at h
    exact ⟨h.1, h.2.2⟩

end Solver

end Clausify
