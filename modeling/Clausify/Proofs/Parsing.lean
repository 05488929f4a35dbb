import Clausify.Proofs.Dimacs

/-!
# Reading any text

No text makes the reader fail in another way than with an error of kind `formula` (`Dimacs.kind_of_parse_eq_error`).
The lines fail with such errors only, and what they contribute always makes up a document: the zeros end the clauses,
so no zero is left in them, and the number of variables is at least the largest variable.  A text is read through what
its lines say, which is put together from what parts of them say and does not depend on empty lines (`says_append`,
`says_solid`, `exists_parse`, `parse_eq_ok_iff`).
-/

namespace Clausify.Dimacs

open Text

/-! ### Lines -/

private theorem kind_of_readLine_eq_error {no : Nat} {raw : List Char} {x : Error} (h : readLine no raw = .error x) :
    x.kind = .formula := by
  unfold readLine at h
  dsimp only at h
  split at h
  -- A line without contribution is accepted.
  · cases h
  · cases h
  · cases h
  · split at h
    · cases h
    · cases h
      rfl
  · rcases bind_eq_error.1 h with h | ⟨ls, -, h⟩
    · obtain ⟨w, -, hw⟩ := exists_mem_of_mapM_eq_error h
      split at hw
      · cases hw
      · cases hw
        rfl
    · cases h

/-! ### Clauses -/

theorem ne_zero_of_mem_splitClauses (ls : List Int) :
    (∀ c ∈ (splitClauses ls).1, ∀ l ∈ c, l ≠ 0) ∧ ∀ l ∈ (splitClauses ls).2, l ≠ 0 := by
  induction ls with
  | nil => exact ⟨fun _ hc => absurd hc List.not_mem_nil, fun _ hl => absurd hl List.not_mem_nil⟩
  | cons l ls ih =>
    obtain ⟨hcs, hrest⟩ := ih
    unfold splitClauses
    dsimp only
    by_cases hl : l = 0
    · rw [if_pos hl]
      refine ⟨?_, hrest⟩
      rw [List.forall_mem_cons]
      exact ⟨fun _ hk => absurd hk List.not_mem_nil, hcs⟩
    · rw [if_neg hl]
      -- The literal goes to the clause that ends next, or to the rest if none does.
      split
      · refine ⟨fun _ hc => absurd hc List.not_mem_nil, ?_⟩
        exact List.forall_mem_cons.2 ⟨hl, hrest⟩
      · rename_i c cs heq
        rw [heq, List.forall_mem_cons] at hcs
        refine ⟨?_, hrest⟩
        rw [List.forall_mem_cons]
        exact ⟨List.forall_mem_cons.2 ⟨hl, hcs.1⟩, hcs.2⟩

/-- The clauses and the rest make up the numbers again. -/
theorem flatMap_splitClauses (ls : List Int) :
    (splitClauses ls).1.flatMap (· ++ [0]) ++ (splitClauses ls).2 = ls := by
  induction ls with
  | nil => rfl
  | cons l ls ih =>
    unfold splitClauses
    dsimp only
    by_cases hl : l = 0
    · rw [if_pos hl, hl]
      exact congrArg (0 :: ·) ih
    · rw [if_neg hl]
      split
      · rename_i heq
        rw [heq] at ih
        exact congrArg (l :: ·) ih
      · rename_i heq
        rw [heq] at ih
        exact congrArg (l :: ·) ih

private theorem flatMap_splitClauses_of_eq_nil {ls : List Int} (h : (splitClauses ls).2 = []) :
    (splitClauses ls).1.flatMap (· ++ [0]) = ls := by
  have hall := flatMap_splitClauses ls
  rwa [h, List.append_nil] at hall

/-- The clauses of a text make up a document, whatever a header declares. -/
private theorem exists_document (ls : List Int) (declared : Int) :
    ∃ d : Document, d.clauses = (splitClauses ls).1 ∧
      (d.numVars : Int) = max declared (maxVar (splitClauses ls).1) := by
  have hsize : 0 ≤ max declared (maxVar (splitClauses ls).1 : Int) := by omega
  obtain ⟨n, hn⟩ := Int.eq_ofNat_of_zero_le hsize
  have hrange : ∀ c ∈ (splitClauses ls).1, ∀ l ∈ c, l ≠ 0 ∧ l.natAbs ≤ n := by
    intro c hc l hl
    have hle := maxVar_le_iff.1 (Nat.le_refl _) c hc l hl
    exact ⟨(ne_zero_of_mem_splitClauses ls).1 c hc l hl, by omega⟩
  exact ⟨⟨n, (splitClauses ls).1, hrange⟩, rfl, hn.symm⟩

/-! ### What lines say -/

/-- The lines are accepted. They have these numbers, and the last header among them has this number of variables. -/
def Says (ls : List (List Char)) (ns : List Int) (v? : Option Int) : Prop :=
  ∃ xs, List.Forall₂ ReadsAs ls xs ∧ tokens xs = ns ∧ declared? xs = v?

variable {l : List Char} {ls ms : List (List Char)} {ns : List Int} {v? : Option Int}

theorem tokens_literals (ns : List Int) : tokens [.literals ns] = ns := List.flatMap_singleton _ _

private theorem declared?_append (xs ys : List Line) : declared? (xs ++ ys) = (declared? ys).or (declared? xs) := by
  unfold declared?
  rw [List.foldl_append]
  generalize xs.foldl _ none = d
  induction ys using List.reverseRecOn with
  | nil => rfl
  | append_singleton ys y ih =>
    rw [List.foldl_concat, List.foldl_concat, ih]
    cases y <;> rfl

theorem says_append : Says (ls ++ ms) ns v? ↔
    ∃ ns₁ v₁ ns₂ v₂, Says ls ns₁ v₁ ∧ Says ms ns₂ v₂ ∧ ns = ns₁ ++ ns₂ ∧ v? = v₂.or v₁ := by
  constructor
  · rintro ⟨xs, hread, rfl, rfl⟩
    have hls := List.forall₂_take ls.length hread
    have hms := List.forall₂_drop ls.length hread
    rw [List.take_left] at hls
    rw [List.drop_left] at hms
    have hxs := List.take_append_drop ls.length xs
    refine ⟨_, _, _, _, ⟨_, hls, rfl, rfl⟩, ⟨_, hms, rfl, rfl⟩, ?_, ?_⟩
    · exact (congrArg tokens hxs.symm).trans List.flatMap_append
    · rw [← declared?_append, hxs]
  · rintro ⟨_, _, _, _, ⟨xs, hxs, rfl, rfl⟩, ⟨ys, hys, rfl, rfl⟩, rfl, rfl⟩
    exact ⟨xs ++ ys, List.rel_append hxs hys, List.flatMap_append, declared?_append xs ys⟩

theorem Says.unique {ns' : List Int} {v' : Option Int} (h : Says ls ns v?) (h' : Says ls ns' v') :
    ns = ns' ∧ v? = v' := by
  obtain ⟨xs, hxs, rfl, rfl⟩ := h
  obtain ⟨ys, hys, rfl, rfl⟩ := h'
  have hunique : Relator.RightUnique ReadsAs := fun _ _ _ hx hy => Except.ok.inj ((hx 0).symm.trans (hy 0))
  rw [hunique.forall₂ hxs hys]
  exact ⟨rfl, rfl⟩

theorem says_nil : Says [] ns v? ↔ [] = ns ∧ none = v? := by
  unfold Says
  simp only [List.forall₂_nil_left_iff, exists_eq_left]
  rfl

/-- What one line says, if it is accepted under a condition. -/
theorem says_singleton {p : Prop} {x : Line} (h : ∀ no y, readLine no l = .ok y ↔ p ∧ y = x) :
    Says [l] ns v? ↔ p ∧ tokens [x] = ns ∧ declared? [x] = v? := by
  constructor
  · rintro ⟨_, hread, rfl, rfl⟩
    obtain ⟨y, _, hy, hnil, rfl⟩ := List.forall₂_cons_left_iff.1 hread
    cases hnil
    obtain ⟨hp, rfl⟩ := (h 0 y).1 (hy 0)
    exact ⟨hp, rfl, rfl⟩
  · rintro ⟨hp, hx⟩
    exact ⟨[x], .cons (fun no => (h no x).2 ⟨hp, rfl⟩) .nil, hx⟩

/-- A line that contributes nothing. -/
theorem says_nothing (h : ∀ no, readLine no l = .ok .nothing) : Says [l] ns v? ↔ [] = ns ∧ none = v? := by
  have hread (no : Nat) (y : Line) : readLine no l = .ok y ↔ True ∧ y = .nothing := by
    rw [h no, Except.ok.injEq, true_and]
    exact eq_comm
  rw [says_singleton hread, true_and]
  rfl

/-- Empty lines say nothing. -/
theorem says_solid : Says (solid ls) ns v? ↔ Says ls ns v? := by
  induction ls generalizing ns v? with
  | nil => rfl
  | cons l ls ih =>
    have hsingle {ns : List Int} {v? : Option Int} : Says (solid [l]) ns v? ↔ Says [l] ns v? := by
      cases l with
      | nil => exact says_nil.trans (says_nothing fun _ => rfl).symm
      | cons => rfl
    rw [solid_eq_append]
    show Says (solid [l] ++ solid ls) ns v? ↔ Says ([l] ++ ls) ns v?
    simp only [says_append, hsingle, ih]

/-- A line end parts what the lines say. -/
theorem says_lines_append {b : Char} (hb : isLineEnd b = true) (l cs : List Char) :
    Says (lines (l ++ b :: cs)) ns v? ↔ Says (lines l ++ lines cs) ns v? := by
  rw [← says_solid, solid_lines_append hb, says_append, says_append]
  simp only [says_solid]

/-! ### Documents -/

/-- Where no numbers are left behind the last zero, a text is read as what its lines say. -/
theorem exists_parse {text : String} (h : Says (lines text.toList) ns v?) (hrest : (splitClauses ns).2 = []) :
    ∃ d, parse text = .ok d ∧ d.clauses = (splitClauses ns).1 ∧
      (d.numVars : Int) = max (v?.getD 0) (maxVar d.clauses) := by
  obtain ⟨xs, hread, rfl, rfl⟩ := h
  obtain ⟨d, hclauses, hvars⟩ := exists_document (tokens xs) ((declared? xs).getD 0)
  have htokens := flatMap_splitClauses_of_eq_nil hrest
  rw [← hclauses] at hvars htokens
  exact ⟨d, parse_eq_ok hread htokens.symm hvars.symm, hclauses, hvars⟩

private theorem parse_eq_unterminated {text : String} (h : Says (lines text.toList) ns v?)
    (hrest : (splitClauses ns).2 ≠ []) :
    parse text = .error .unterminatedClause := by
  obtain ⟨xs, hread, rfl, rfl⟩ := h
  unfold parse
  rw [bind_eq_error]
  refine .inr ⟨xs, (mapM_readLine_eq_ok 0).2 hread, ?_⟩
  dsimp only
  rw [List.isEmpty_eq_false_iff.2 hrest]
  rfl

/-- The lines of a text say the document as which it is read. -/
theorem parse_eq_ok_iff {text : String} {d : Document} : parse text = .ok d ↔
    ∃ v?, Says (lines text.toList) (d.clauses.flatMap (· ++ [0])) v? ∧
      (d.numVars : Int) = max (v?.getD 0) (maxVar d.clauses) := by
  constructor
  · intro h
    obtain ⟨xs, hread, -⟩ := bind_eq_ok.1 h
    have hsays : Says (lines text.toList) (tokens xs) (declared? xs) :=
      ⟨xs, (mapM_readLine_eq_ok 0).1 hread, rfl, rfl⟩
    have hrest : (splitClauses (tokens xs)).2 = [] := by
      by_contra hne
      cases h.symm.trans (parse_eq_unterminated hsays hne)
    obtain ⟨e, he, hclauses, hvars⟩ := exists_parse hsays hrest
    cases h.symm.trans he
    refine ⟨declared? xs, ?_, hvars⟩
    rw [hclauses, flatMap_splitClauses_of_eq_nil hrest]
    exact hsays
  · rintro ⟨_, ⟨xs, hread, htokens, rfl⟩, hvars⟩
    exact parse_eq_ok hread htokens hvars.symm

/-- What the lines of a text that was written say. -/
theorem says_render {d : Document} {text : String} (h : render d [] = .ok text) :
    Says (lines text.toList) (d.clauses.flatMap (· ++ [0])) (some (d.numVars : Int)) :=
  ⟨_, lines_render h, tokens_written d, declared?_written d⟩

/-- A text with a header in front is not read if the number of variables has too many digits. -/
private theorem not_parse_header {text : String} {v : Nat} {n : Int} {cs : List Char} (hv : 10 ^ maxDigits ≤ v)
    (htext : text.toList = spaced (headerWords v n) ++ '\n' :: cs) : ¬∃ d, parse text = .ok d := by
  rintro ⟨d, h⟩
  have hwords := isWord_headerWords v n
  obtain ⟨v?, hsays, -⟩ := parse_eq_ok_iff.1 h
  rw [htext, says_lines_append rfl, says_append, lines_eq_solid fun _ => isLineEnd_of_mem_spaced hwords] at hsays
  obtain ⟨_, _, _, _, hheader, -⟩ := hsays
  rw [says_solid, says_singleton fun _ _ => readLine_header (spread_spaced hwords).words_eq] at hheader
  have hshort := hheader.1.1
  rw [Int.natAbs_natCast] at hshort
  exact Nat.not_lt.2 hv hshort

theorem kind_of_parse_eq_error {text : String} {x : Error} (h : parse text = .error x) : x.kind = .formula := by
  rcases bind_eq_error.1 h with h | ⟨xs, hread, -⟩
  · obtain ⟨⟨raw, i⟩, -, hread⟩ := exists_mem_of_mapM_eq_error h
    exact kind_of_readLine_eq_error hread
  · have hsays : Says (lines text.toList) (tokens xs) (declared? xs) :=
      ⟨xs, (mapM_readLine_eq_ok 0).1 hread, rfl, rfl⟩
    by_cases hrest : (splitClauses (tokens xs)).2 = []
    · obtain ⟨d, hd, -⟩ := exists_parse hsays hrest
      cases h.symm.trans hd
    · cases h.symm.trans (parse_eq_unterminated hsays hrest)
      rfl

/-- Every document that can be written is read back as it is, and every text at all is read as a document, with
nonzero literals up to its number of variables, or refused as a formula. -/
theorem read_of_written_and_any :
    (∀ d : Document, (Writable d → ∃ text, render d [] = .ok text ∧ parse text = .ok d) ∧
      (¬Writable d → render d [] = .error .oversizedNumber)) ∧
    ∀ text, (∃ d, parse text = .ok d ∧ ∀ c ∈ d.clauses, ∀ l ∈ c, l ≠ 0 ∧ l.natAbs ≤ d.numVars) ∨
      ∃ x, parse text = .error x ∧ x.kind = .formula := by
  refine ⟨fun d => ⟨fun hw => ?_, render_eq_error⟩, fun text => ?_⟩
  · obtain ⟨text, htext⟩ := exists_render hw
    exact ⟨text, htext, parse_render htext⟩
  · cases hparse : parse text with
    | ok d => exact .inl ⟨d, rfl, d.inRange⟩
    | error x => exact .inr ⟨x, rfl, kind_of_parse_eq_error hparse⟩

/-- The empty clause and a variable that no clause has are kept. -/
theorem read_of_written_and_any_of_unused_variable :
    let d : Document := ⟨3, [[], [1, -2]], by decide⟩
    Writable d ∧ ∃ text, render d [] = .ok text ∧ parse text = .ok d := by
  intro d
  have hpow : 10 ^ 1 ≤ 10 ^ maxDigits := Nat.pow_le_pow_right (by decide) (by decide)
  have hvars : d.numVars = 3 := rfl
  have hlength : d.clauses.length = 2 := rfl
  have hw : Writable d := ⟨by omega, by omega⟩
  exact ⟨hw, (read_of_written_and_any.1 d).1 hw⟩

/-- A document of so many variables that their number has too many digits is not written, and what its text would be
is not read. -/
theorem oversized_document_not_read_back :
    let d : Document := ⟨10 ^ maxDigits, [], fun _ hc => absurd hc List.not_mem_nil⟩
    render d [] = .error .oversizedNumber ∧ (¬∃ text, render d [] = .ok text ∧ parse text = .ok d) ∧
      ¬∃ e, parse ("p cnf " ++ toString ((10 ^ maxDigits : Nat) : Int) ++ " 0\n") = .ok e := by
  intro d
  have hrender : render d [] = .error .oversizedNumber := render_eq_error fun hw => Nat.lt_irrefl _ hw.1
  have htext (v : Nat) : ("p cnf " ++ toString (v : Int) ++ " 0\n").toList =
      spaced (headerWords v 0) ++ '\n' :: [] := by
    rw [← toList_header]
    simp only [String.toList_append, List.append_assoc]
    rfl
  refine ⟨hrender, ?_, not_parse_header (Nat.le_refl _) (htext _)⟩
  rintro ⟨text, hok, -⟩
  cases hrender.symm.trans hok

end Clausify.Dimacs
