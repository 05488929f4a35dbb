import Clausify.Document.Reading
import Mathlib.Data.List.Forall2

/-!
# Documents that are accepted

Clauses with nonzero literals up to the number of variables become a document, and from a document its parts give the
document again (`Document.ofFields_eq_ok`, `Document.ofClauses_eq_ok`, `Document.ofValues_eq_ok`).
-/

namespace Clausify

open Record

namespace Document

private theorem clausesFault?_eq_none {n : Nat} {clauses : List (List Int)}
    (h : ∀ c ∈ clauses, ∀ l ∈ c, l ≠ 0 ∧ l.natAbs ≤ n) : clausesFault? (some n) clauses = none := by
  unfold clausesFault?
  rw [List.findSome?_eq_none_iff]
  rintro ⟨c, i⟩ hc
  dsimp only
  rw [List.findSome?_eq_none_iff]
  intro l hl
  obtain ⟨h0, hn⟩ := h c (List.fst_mem_of_mem_zipIdx hc) l hl
  unfold literalFault?
  rw [if_neg h0]
  exact if_neg (Nat.not_lt.2 hn)

theorem ofFields_eq_ok (d : Document) : ofFields (.ok d.numVars) (.ok d.clauses) = .ok d := by
  have hnone := clausesFault?_eq_none d.inRange
  unfold ofFields
  dsimp only
  split
  · rfl
  · rename_i r hr
    rw [hnone] at hr
    cases hr

theorem ofClauses_eq_ok (d : Document) : ofClauses d.numVars d.clauses = .ok d := by
  unfold ofClauses
  rw [if_pos (Int.natCast_nonneg _)]
  exact d.ofFields_eq_ok

private theorem items_eq_ok {ι α : Type} {read : ι → Reading α} {vs : List ι} {as : List α}
    (h : List.Forall₂ (fun v a => read v = .ok a) vs as) (i : Nat) : items read i vs = .ok as := by
  induction h generalizing i with
  | nil => rfl
  | cons hv _ ih =>
    unfold items
    rw [hv, ih]
    rfl

private theorem notBelow_eq_ok {bound n : Int} (h : bound ≤ n) : notBelow bound (.ok n) = .ok n := if_pos h

/-- The parts may be handed over as values. -/
theorem ofValues_eq_ok (d : Document) :
    ofValues (.int d.numVars) (d.clauses.map fun c => c.map .int) = .ok d := by
  have hclause (c : List Int) : items intOfValue 0 (c.map .int) = .ok c := by
    refine items_eq_ok (List.forall₂_map_left_iff.2 ?_) 0
    exact List.forall₂_same.2 fun l _ => rfl
  have hclauses : items (items intOfValue 0) 0 (d.clauses.map fun c => c.map .int) = .ok d.clauses := by
    refine items_eq_ok (List.forall₂_map_left_iff.2 ?_) 0
    exact List.forall₂_same.2 fun c _ => hclause c
  have hsize : notBelow 0 (intOfValue (.int d.numVars)) = .ok (d.numVars : Int) :=
    notBelow_eq_ok (Int.natCast_nonneg d.numVars)
  unfold ofValues
  rw [hclauses, hsize]
  exact d.ofFields_eq_ok

end Document

end Clausify
