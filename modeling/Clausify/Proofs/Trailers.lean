import Clausify.Proofs.Parsing
import Clausify.Proofs.Valuation

/-!
# Trailers

What stands behind the clauses of a text is read as further clauses (`parse_append`).  An end mark and blank lines
have none.  But the trailer of benchmark files has a zero on the line behind its end mark, and the reader does not
stop at the mark.  So the zero ends one more clause, which is empty, and the formula that is read has no solutions
(`trailer_adds_clause`).
-/

namespace Clausify.Dimacs

open Text

variable {text rest : String} {d : Document} {ns : List Int} {v? : Option Int}

/-! ### Texts behind a text -/

private theorem maxVar_append (cs ds : List (List Int)) : maxVar (cs ++ ds) = max (maxVar cs) (maxVar ds) := by
  have hle (n : Nat) : maxVar (cs ++ ds) ≤ n ↔ max (maxVar cs) (maxVar ds) ≤ n := by
    simp only [Nat.max_le, maxVar_le_iff, List.forall_mem_append]
  exact Nat.le_antisymm ((hle _).2 (Nat.le_refl _)) ((hle _).1 (Nat.le_refl _))

/-- The last line of the text is ended. -/
def Ended (text : String) : Prop := ∃ l, text.toList = l ++ ['\n']

private theorem ended_of_render {comments : List String} (h : render d comments = .ok text) : Ended text := by
  obtain ⟨v, -, h⟩ := bind_eq_ok.1 h
  obtain ⟨n, -, h⟩ := bind_eq_ok.1 h
  obtain ⟨cs, -, h⟩ := bind_eq_ok.1 h
  have hne : comments.map ("c " ++ ·) ++ ("p cnf " ++ v ++ " " ++ n) :: cs ≠ [] := by simp
  generalize comments.map ("c " ++ ·) ++ ("p cnf " ++ v ++ " " ++ n) :: cs = ls at h hne
  cases h
  obtain rfl | ⟨ms, m, rfl⟩ := ls.eq_nil_or_concat
  · exact absurd rfl hne
  · refine ⟨(ms.map String.toList).flatMap (· ++ ['\n']) ++ m.toList, ?_⟩
    rw [toList_join, List.concat_eq_append, List.map_append, List.flatMap_append, List.append_assoc]
    simp

private theorem says_lines_text (h : Ended text) : Says (lines (text ++ rest).toList) ns v? ↔
    Says (lines text.toList ++ lines rest.toList) ns v? := by
  obtain ⟨l, hl⟩ := h
  have hnil : lines [] = [] := rfl
  have htext {ns : List Int} {v? : Option Int} : Says (lines (l ++ ['\n'])) ns v? ↔ Says (lines l) ns v? := by
    rw [says_lines_append (by decide), hnil, List.append_nil]
  rw [String.toList_append, hl, List.append_assoc, List.singleton_append, says_lines_append (by decide)]
  simp only [says_append, htext]

/-- Lines without a header that stand behind an accepted text are read as further clauses. -/
theorem parse_append (hend : Ended text) (hd : parse text = .ok d) (hrest : Says (lines rest.toList) ns none)
    (hzero : (splitClauses ns).2 = []) :
    ∃ e, parse (text ++ rest) = .ok e ∧ e.clauses = d.clauses ++ (splitClauses ns).1 ∧
      e.numVars = max d.numVars (maxVar (splitClauses ns).1) := by
  obtain ⟨v?, hsays, hvars⟩ := parse_eq_ok_iff.1 hd
  have hsplit := splitClauses_append (fun c hc l hl => (d.inRange c hc l hl).1) ns
  have hall : Says (lines (text ++ rest).toList) (d.clauses.flatMap (· ++ [0]) ++ ns) v? := by
    rw [says_lines_text hend, says_append]
    exact ⟨_, _, _, _, hsays, hrest, rfl, rfl⟩
  obtain ⟨e, he, hclauses, hsize⟩ := exists_parse hall (by rw [hsplit]; exact hzero)
  rw [hsplit] at hclauses
  refine ⟨e, he, hclauses, ?_⟩
  rw [hclauses, maxVar_append] at hsize
  omega

/-! ### Trailers -/

/-- The line has an end mark and nothing else. -/
def IsEndMark (l : List Char) : Prop := words l = [['%']]

/-- What benchmark files have behind their clauses: an end mark, a zero, and blank lines, each on lines of its own. -/
def IsTrailer (trailer : String) : Prop :=
  ∃ mark zero blanks, lines trailer.toList = mark :: zero :: blanks ∧ IsEndMark mark ∧ words zero = [['0']] ∧
    ∀ l ∈ blanks, words l = []

/-- End marks and blank lines say nothing. -/
private theorem says_skipped {ls : List (List Char)} (h : ∀ l ∈ ls, IsEndMark l ∨ words l = []) :
    Says ls [] none := by
  induction ls with
  | nil => exact says_nil.2 ⟨rfl, rfl⟩
  | cons l ls ih =>
    have hline : Says [l] [] none := by
      rcases h l (by simp) with hl | hl
      · exact (says_nothing (readLine_skipped (.inr rfl) hl)).2 ⟨rfl, rfl⟩
      · exact (says_nothing (readLine_blank hl)).2 ⟨rfl, rfl⟩
    have hlines := ih fun m hm => h m (by simp [hm])
    have hall : Says ([l] ++ ls) [] none := says_append.2 ⟨_, _, _, _, hline, hlines, rfl, rfl⟩
    exact hall

/-- A trailer says the zero that it has. -/
private theorem IsTrailer.says {trailer : String} (h : IsTrailer trailer) : Says (lines trailer.toList) [0] none := by
  obtain ⟨mark, zero, blanks, hlines, hmark, hzero, hblanks⟩ := h
  have hshort : ∀ n ∈ [(0 : Int)], n.natAbs < 10 ^ maxDigits :=
    List.forall_mem_singleton.2 (lt_pow_maxDigits (by decide))
  have hfirst : Says [mark] [] none := says_skipped (List.forall_mem_singleton.2 (.inl hmark))
  have hnumber : words zero = numberWords [0] := hzero
  have hsecond : Says [zero] [0] none :=
    (says_singleton fun _ _ => readLine_numbers hnumber (by simp)).2 ⟨hshort, rfl, rfl⟩
  have hrest : Says blanks [] none := says_skipped fun l hl => .inr (hblanks l hl)
  have hlater : Says ([zero] ++ blanks) [0] none := says_append.2 ⟨_, _, _, _, hsecond, hrest, rfl, rfl⟩
  have hall : Says ([mark] ++ ([zero] ++ blanks)) [0] none := says_append.2 ⟨_, _, _, _, hfirst, hlater, rfl, rfl⟩
  rw [hlines]
  exact hall

/-- End marks and blank lines behind the text of a document change nothing.  A trailer adds the empty clause and
changes nothing else, so that no values satisfy the formula that is read. -/
theorem trailer_adds_clause (d : Document) :
    (Writable d → ∃ text, render d [] = .ok text ∧ parse text = .ok d ∧
      (∀ rest : String, (∀ l ∈ lines rest.toList, IsEndMark l ∨ words l = []) → parse (text ++ rest) = .ok d) ∧
      ∀ trailer, IsTrailer trailer → ∃ e, parse (text ++ trailer) = .ok e ∧ e.numVars = d.numVars ∧
        e.clauses = d.clauses ++ [[]] ∧ ∀ σ, ¬Cnf.Satisfies σ e.clauses) ∧
    (¬Writable d → render d [] = .error .oversizedNumber) := by
  refine ⟨fun hw => ?_, render_eq_error⟩
  obtain ⟨text, htext⟩ := exists_render hw
  have hd := parse_render htext
  have hend := ended_of_render htext
  refine ⟨text, htext, hd, fun rest hrest => ?_, fun trailer htrailer => ?_⟩
  · obtain ⟨e, he, hclauses, hvars⟩ := parse_append hend hd (says_skipped hrest) rfl
    have hsame : e = d := by
      obtain ⟨n, cs, hcs⟩ := e
      obtain ⟨m, ds, hds⟩ := d
      simp [splitClauses, maxVar] at hclauses hvars
      subst hclauses hvars
      rfl
    rw [he, hsame]
  · obtain ⟨e, he, hclauses, hvars⟩ := parse_append hend hd htrailer.says rfl
    have hzero : splitClauses [0] = ([[]], []) := rfl
    rw [hzero] at hclauses hvars
    refine ⟨e, he, by simpa [maxVar] using hvars, hclauses, fun σ hσ => ?_⟩
    obtain ⟨l, hl, -⟩ := hσ [] (by simp [hclauses])
    cases hl

/-- A trailer with blanks around its zero, and lines that end in two ways. -/
theorem trailer_adds_clause_of_blank_line :
    let d : Document := ⟨3, [[1, -2]], by decide⟩
    Writable d ∧ IsTrailer "%\r\n 0 \n\n" ∧ ∃ text e, render d [] = .ok text ∧
      parse (text ++ "%\r\n 0 \n\n") = .ok e ∧ e.numVars = 3 ∧ e.clauses = [[1, -2], []] := by
  intro d
  have hw : Writable d := ⟨lt_pow_maxDigits (by decide), lt_pow_maxDigits (by decide)⟩
  have htrailer : IsTrailer "%\r\n 0 \n\n" :=
    ⟨['%'], [' ', '0', ' '], [[]], rfl, rfl, rfl, List.forall_mem_singleton.2 rfl⟩
  obtain ⟨text, htext, -, -, hadds⟩ := (trailer_adds_clause d).1 hw
  obtain ⟨e, he, hvars, hclauses, -⟩ := hadds _ htrailer
  exact ⟨hw, htrailer, text, e, htext, he, hvars, hclauses⟩

/-- A trailer changes what is read. -/
theorem trailer_changes_clauses :
    let d : Document := ⟨1, [[1]], by decide⟩
    IsTrailer "%\n0\n\n" ∧ ∃ text e, render d [] = .ok text ∧ parse text = .ok d ∧
      parse (text ++ "%\n0\n\n") = .ok e ∧ e.clauses ≠ d.clauses :=
  ⟨⟨['%'], ['0'], [[]], rfl, rfl, rfl, List.forall_mem_singleton.2 rfl⟩, _, _, rfl, rfl, rfl, by decide⟩

end Clausify.Dimacs
