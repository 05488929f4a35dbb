import Clausify.Document.Canonical
import Clausify.Proofs.Dimacs
import Mathlib.Data.List.Perm.Basic

/-!
# Formulas up to order

Both sorts of the canonical form go by a total order in which no two different elements are equivalent, so formulas
have the same canonical form exactly if they are rearranged (`Canonical.clauses_eq_iff`).  The text that is hashed has
a line for each clause and a word for each number, so it can be taken apart again (`Canonical.text_inj`).
-/

namespace Clausify

open Text

namespace Canonical

/-! ### Sorting -/

/-- Sorting by an order forgets the order of a list, and nothing else. -/
private theorem mergeSort_eq_iff {α : Type} {le : α → α → Bool} (htrans : ∀ a b c, le a b → le b c → le a c)
    (htotal : ∀ a b, le a b || le b a) (hantisymm : ∀ a b, le a b → le b a → a = b) {xs ys : List α} :
    xs.mergeSort le = ys.mergeSort le ↔ xs.Perm ys := by
  have hxs := List.mergeSort_perm xs le
  have hys := List.mergeSort_perm ys le
  constructor
  · intro h
    exact hxs.symm.trans (h ▸ hys)
  · intro h
    refine List.Perm.eq_of_pairwise (fun a b _ _ => hantisymm a b) (List.pairwise_mergeSort htrans htotal xs)
      (List.pairwise_mergeSort htrans htotal ys) ?_
    exact hxs.trans (h.trans hys.symm)

private theorem literalLe_iff {a b : Int} :
    literalLe a b = true ↔ a.natAbs < b.natAbs ∨ a.natAbs = b.natAbs ∧ a ≤ b := by
  have hvar (l : Int) : var l = (l.natAbs : Int) := rfl
  have hle : Index.le a b = decide (a ≤ b) := rfl
  unfold literalLe
  rw [hvar, hvar, hle, Index.lt_int, Index.same_int, Bool.or_eq_true, Bool.and_eq_true, decide_eq_true_iff,
    decide_eq_true_iff, decide_eq_true_iff, Int.ofNat_lt, Int.ofNat_inj]

private theorem clause_eq_iff {c d : List Int} : clause c = clause d ↔ c.Perm d := by
  refine mergeSort_eq_iff (fun a b c => ?_) (fun a b => ?_) (fun a b => ?_)
  · rw [literalLe_iff, literalLe_iff, literalLe_iff]
    omega
  · rw [Bool.or_eq_true, literalLe_iff, literalLe_iff]
    omega
  · rw [literalLe_iff, literalLe_iff]
    omega

private theorem clauseLe_cons {a b : Int} {as bs : List Int} :
    clauseLe (a :: as) (b :: bs) = true ↔ a < b ∨ a = b ∧ clauseLe as bs = true := by
  rw [clauseLe, Index.lt_int, Index.same_int, Bool.or_eq_true, Bool.and_eq_true, decide_eq_true_iff,
    decide_eq_true_iff]

private theorem clauseLe_trans (cs ds es : List Int) (h : clauseLe cs ds) (h' : clauseLe ds es) : clauseLe cs es := by
  induction cs generalizing ds es with
  | nil => rfl
  | cons a as ih =>
    rcases ds with _ | ⟨b, bs⟩
    · cases h
    rcases es with _ | ⟨c, cs⟩
    · cases h'
    rw [clauseLe_cons] at h h' ⊢
    rcases h with h | ⟨rfl, h⟩
    · rcases h' with h' | ⟨rfl, -⟩
      · exact .inl (by omega)
      · exact .inl h
    · rcases h' with h' | ⟨rfl, h'⟩
      · exact .inl h'
      · exact .inr ⟨rfl, ih bs cs h h'⟩

private theorem clauseLe_total (cs ds : List Int) : clauseLe cs ds ∨ clauseLe ds cs := by
  induction cs generalizing ds with
  | nil => exact .inl rfl
  | cons a as ih =>
    rcases ds with _ | ⟨b, bs⟩
    · exact .inr rfl
    rw [clauseLe_cons, clauseLe_cons]
    rcases Int.lt_trichotomy a b with h | rfl | h
    · exact .inl (.inl h)
    · exact (ih bs).imp (fun h => .inr ⟨rfl, h⟩) fun h => .inr ⟨rfl, h⟩
    · exact .inr (.inl h)

private theorem clauseLe_antisymm (cs ds : List Int) (h : clauseLe cs ds) (h' : clauseLe ds cs) : cs = ds := by
  induction cs generalizing ds with
  | nil =>
    rcases ds with _ | ⟨b, bs⟩
    · rfl
    · cases h'
  | cons a as ih =>
    rcases ds with _ | ⟨b, bs⟩
    · cases h
    rw [clauseLe_cons] at h h'
    rcases h with h | ⟨rfl, h⟩
    · omega
    · rcases h' with h' | ⟨-, h'⟩
      · omega
      · rw [ih bs h h']

/-! ### Rearranged formulas -/

/-- The formulas are the same but for the order of the literals in each clause and the order of the clauses. -/
def Rearranged (cs ds : List (List Int)) : Prop := ∃ es, List.Forall₂ List.Perm cs es ∧ es.Perm ds

/-- The canonical form is a rearrangement. -/
private theorem rearranged_clauses (cs : List (List Int)) : Rearranged cs (clauses cs) := by
  refine ⟨cs.map clause, ?_, (List.mergeSort_perm _ _).symm⟩
  rw [List.forall₂_map_right_iff, List.forall₂_same]
  exact fun c _ => (List.mergeSort_perm c _).symm

private theorem map_clause_perm_iff {cs ds : List (List Int)} :
    (cs.map clause).Perm (ds.map clause) ↔ Rearranged cs ds := by
  constructor
  · intro h
    have hds : List.Forall₂ (fun c d => c = clause d) (ds.map clause) ds := by
      rw [List.forall₂_map_left_iff, List.forall₂_same]
      exact fun _ _ => rfl
    obtain ⟨es, hes, hperm⟩ := List.perm_comp_forall₂ h hds
    refine ⟨es, ?_, hperm⟩
    rw [List.forall₂_map_left_iff] at hes
    exact hes.imp fun c e => clause_eq_iff.1
  · rintro ⟨es, hes, hperm⟩
    have hmap : cs.map clause = es.map clause := by
      rw [← List.forall₂_eq_eq_eq, List.forall₂_map_left_iff, List.forall₂_map_right_iff]
      exact hes.imp fun c e => clause_eq_iff.2
    rw [hmap]
    exact hperm.map clause

/-- No literal is lost. -/
theorem Rearranged.lengths_perm {cs ds : List (List Int)} (h : Rearranged cs ds) :
    (cs.map List.length).Perm (ds.map List.length) := by
  obtain ⟨es, hes, hperm⟩ := h
  have hlengths : cs.map List.length = es.map List.length := by
    rw [← List.forall₂_eq_eq_eq, List.forall₂_map_left_iff, List.forall₂_map_right_iff]
    exact hes.imp fun c e => List.Perm.length_eq
  rw [hlengths]
  exact hperm.map List.length

theorem Rearranged.flatten_perm {cs ds : List (List Int)} (h : Rearranged cs ds) : cs.flatten.Perm ds.flatten := by
  obtain ⟨es, hes, hperm⟩ := h
  exact (List.Perm.flatten_congr hes).trans hperm.flatten

/-- Formulas have the same canonical form exactly if they are rearranged. -/
theorem clauses_eq_iff {cs ds : List (List Int)} : clauses cs = clauses ds ↔ Rearranged cs ds := by
  have htotal (as bs : List Int) : (clauseLe as bs || clauseLe bs as) = true :=
    Bool.or_eq_true_iff.2 (clauseLe_total as bs)
  exact (mergeSort_eq_iff clauseLe_trans htotal clauseLe_antisymm).trans map_clause_perm_iff

private theorem clauses_clauses (cs : List (List Int)) : clauses (clauses cs) = clauses cs :=
  (clauses_eq_iff.2 (rearranged_clauses cs)).symm

/-! ### The text -/

/-- The lines of the text of a formula. -/
def textLines (numVars : Nat) (cs : List (List Int)) : List (List Char) :=
  spaced (Dimacs.headerWords numVars cs.length) :: cs.map fun c => spaced (Dimacs.numberWords (c ++ [0]))

private theorem isLineEnd_of_mem_textLines {n : Nat} {cs : List (List Int)} :
    ∀ l ∈ textLines n cs, ∀ c ∈ l, isLineEnd c = false := by
  unfold textLines
  rw [List.forall_mem_cons, List.forall_mem_map]
  exact ⟨fun c => isLineEnd_of_mem_spaced (Dimacs.isWord_headerWords _ _),
    fun d _ c => isLineEnd_of_mem_spaced (Dimacs.isWord_numberWords _)⟩

private theorem intercalate_newline {l : List Char} {ls : List (List Char)} :
    ['\n'].intercalate (l :: ls) ++ ['\n'] = (l :: ls).flatMap (· ++ ['\n']) := by
  induction ls generalizing l with
  | nil => rw [List.intercalate_singleton, List.flatMap_singleton]
  | cons m ls ih =>
    rw [List.intercalate_cons_cons, List.append_assoc, ih]
    rfl

private theorem lines_text (n : Nat) (cs : List (List Int)) :
    lines ((text n cs).toList ++ ['\n']) = textLines n (clauses cs) := by
  have hheader : ("p cnf " ++ toString n ++ " " ++ toString (clauses cs).length).toList =
      spaced (Dimacs.headerWords n (clauses cs).length) := Dimacs.toList_header n (clauses cs).length
  have hclause (c : List Int) : (" ".intercalate (c.map toString ++ ["0"])).toList =
      spaced (Dimacs.numberWords (c ++ [0])) := by
    unfold Dimacs.numberWords
    rw [String.toList_intercalate, List.map_append, List.map_append, List.map_map]
    rfl
  have htext : (text n cs).toList = ['\n'].intercalate (textLines n (clauses cs)) := by
    unfold text textLines
    dsimp only
    rw [String.toList_intercalate, List.map_cons, List.map_map, hheader]
    exact congrArg (fun f => ['\n'].intercalate (_ :: (clauses cs).map f)) (funext hclause)
  rw [htext, textLines, intercalate_newline]
  exact lines_terminated isLineEnd_of_mem_textLines

private theorem numberWords_injective : Function.Injective Dimacs.numberWords :=
  List.map_injective_iff.2 fun _ _ => eq_of_toString

/-- The lines can be taken apart again. -/
private theorem textLines_inj {m n : Nat} {cs ds : List (List Int)} :
    textLines m cs = textLines n ds ↔ m = n ∧ cs = ds := by
  constructor
  · intro h
    obtain ⟨hheader, hclauses⟩ := List.cons.inj h
    constructor
    · have hwords := congrArg words hheader
      rw [words_spaced (Dimacs.isWord_headerWords _ _), words_spaced (Dimacs.isWord_headerWords _ _)] at hwords
      have hsize := eq_of_toString (List.cons.inj (List.cons.inj (List.cons.inj hwords).2).2).1
      exact Int.ofNat_inj.1 hsize
    · refine List.map_injective_iff.2 (fun c d hcd => ?_) hclauses
      have hwords := congrArg words hcd
      rw [words_spaced (Dimacs.isWord_numberWords _), words_spaced (Dimacs.isWord_numberWords _)] at hwords
      exact List.append_cancel_right (numberWords_injective hwords)
  · rintro ⟨rfl, rfl⟩
    rfl

/-- The text determines the number of variables and the canonical form. -/
theorem text_inj {m n : Nat} {cs ds : List (List Int)} :
    text m cs = text n ds ↔ m = n ∧ clauses cs = clauses ds := by
  constructor
  · intro h
    rw [← textLines_inj, ← lines_text, ← lines_text, h]
  · rintro ⟨rfl, h⟩
    unfold text
    rw [h]

/-- The hash of a document is that of its text.  The texts of two documents are the same exactly if the documents are,
up to the order of clauses and of literals in clauses, and then the hashes are the same.  The canonical form of a
formula is a rearrangement of it and its own canonical form. -/
theorem text_eq_iff_rearranged :
    (∀ d : Document, d.digest = Sha256.hexDigest (text d.numVars d.clauses).toUTF8.toList) ∧
    (∀ d e : Document,
      (text d.numVars d.clauses = text e.numVars e.clauses ↔
        d.numVars = e.numVars ∧ Rearranged d.clauses e.clauses) ∧
      (d.numVars = e.numVars → Rearranged d.clauses e.clauses → d.digest = e.digest)) ∧
    ∀ cs : List (List Int), clauses (clauses cs) = clauses cs ∧ Rearranged cs (clauses cs) := by
  have htext (d e : Document) : text d.numVars d.clauses = text e.numVars e.clauses ↔
      d.numVars = e.numVars ∧ Rearranged d.clauses e.clauses := by
    rw [text_inj, clauses_eq_iff]
  have hdigest (d : Document) : d.digest = Sha256.hexDigest (text d.numVars d.clauses).toUTF8.toList := rfl
  refine ⟨hdigest, fun d e => ⟨htext d e, fun hsize hclauses => ?_⟩,
    fun cs => ⟨clauses_clauses cs, rearranged_clauses cs⟩⟩
  rw [hdigest, hdigest, (htext d e).2 ⟨hsize, hclauses⟩]

/-- The empty clause, a repeated literal and opposite literals in another order. -/
theorem text_eq_iff_rearranged_of_repeated_literal :
    let d : Document := ⟨3, [[1, -2, 1], [], [3, -3]], by decide⟩
    let e : Document := ⟨3, [[], [-3, 3], [1, 1, -2]], by decide⟩
    let f : Document := ⟨3, [[], [-3, 3], [1, -2]], by decide⟩
    Rearranged d.clauses e.clauses ∧ text d.numVars d.clauses = text e.numVars e.clauses ∧ d.digest = e.digest ∧
      text d.numVars d.clauses ≠ text f.numVars f.clauses := by
  intro d e f
  have h : Rearranged d.clauses e.clauses :=
    ⟨[[1, 1, -2], [], [-3, 3]], .cons (by decide) (.cons (by decide) (.cons (by decide) .nil)), by decide⟩
  have hdigest := (text_eq_iff_rearranged.2.1 d e).2 rfl h
  refine ⟨h, (text_eq_iff_rearranged.2.1 d e).1.2 ⟨rfl, h⟩, hdigest, fun hf => ?_⟩
  have hlengths : ([[1, -2, 1], [], [3, -3]].map List.length).Perm ([[], [-3, 3], [1, -2]].map List.length) :=
    ((text_eq_iff_rearranged.2.1 d f).1.1 hf).2.lengths_perm
  exact absurd hlengths (by decide)

end Canonical

end Clausify
