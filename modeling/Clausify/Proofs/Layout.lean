import Clausify.Proofs.Parsing
import Mathlib.Algebra.Group.Int.Defs

/-!
# Layouts

A layout has comments, headers and numbers on its lines, with any blanks around the words and any line ends behind the
lines.  If its numbers have few enough digits, it says what stands on its lines, and nothing else (`Laid.says_iff`).
So the reader finds the clauses wherever they are cut into lines (`parse_of_laid`).
-/

namespace Clausify.Dimacs

open Text

/-! ### Rows -/

/-- What stands on a line of a layout. No numbers stand on a blank line. -/
inductive Row where
  | comment
  | header (numVars numClauses : Int)
  | numbers (ns : List Int)

namespace Row

/-- The line has what stands on it, with blanks between the words and around them. -/
def Holds : Row → List Char → Prop
  | comment, l => ∃ bs cs, (∀ b ∈ bs, isBlank b = true) ∧ l = bs ++ 'c' :: cs
  | header v n, l => Spread (headerWords v n) l
  | numbers ns, l => Spread (numberWords ns) l

/-- Literals and zeros. -/
def literals : Row → List Int
  | numbers ns => ns
  | _ => []

/-- The number of variables of a header. -/
def declared? : Row → Option Int
  | header v _ => some v
  | _ => none

/-- Whether every number has at most `Text.maxDigits` digits. -/
def Short : Row → Prop
  | comment => True
  | header v n => v.natAbs < 10 ^ maxDigits ∧ n.natAbs < 10 ^ maxDigits
  | numbers ns => ∀ n ∈ ns, n.natAbs < 10 ^ maxDigits

variable {r : Row} {rows : List Row} {l cs : List Char} {ns : List Int} {v? : Option Int}

/-- A line is accepted if its numbers are short, and says what stands on it. -/
theorem Holds.says_iff (h : r.Holds l) : Says [l] ns v? ↔ r.Short ∧ r.literals = ns ∧ r.declared? = v? := by
  cases r with
  | comment =>
    obtain ⟨bs, cs, hbs, rfl⟩ := h
    obtain ⟨w, ws, hwords⟩ := exists_words_cons (c := 'c') (by decide) cs
    rw [← words_blanks_append hbs] at hwords
    rw [says_nothing (readLine_skipped (.inl rfl) hwords)]
    exact (and_iff_right trivial).symm
  | header v n => exact says_singleton fun _ _ => readLine_header h.words_eq
  | numbers ms =>
    cases ms with
    | nil =>
      rw [says_nothing (readLine_blank h.words_eq)]
      exact (and_iff_right (List.forall_mem_nil _)).symm
    | cons m ms =>
      rw [says_singleton fun _ _ => readLine_numbers h.words_eq (List.cons_ne_nil m ms), tokens_literals]
      rfl

end Row

/-! ### Layouts -/

/-- The text has the rows on its lines. A line end parts two rows; a carriage return with a line feed behind it parts
three, the second of which is blank. -/
inductive Laid : List Row → List Char → Prop
  | last {r : Row} {l : List Char} (hl : ∀ c ∈ l, isLineEnd c = false) (h : r.Holds l) : Laid [r] l
  | cons {r : Row} {rows : List Row} {l cs : List Char} {b : Char} (hl : ∀ c ∈ l, isLineEnd c = false)
      (h : r.Holds l) (hb : isLineEnd b = true) (hrest : Laid rows cs) : Laid (r :: rows) (l ++ b :: cs)

variable {r : Row} {rows : List Row} {l cs : List Char} {ns : List Int} {v? : Option Int}

/-- A header with single spaces. -/
private theorem Laid.header {b : Char} (v n : Int) (hb : isLineEnd b = true) (h : Laid rows cs) :
    Laid (.header v n :: rows) (spaced (headerWords v n) ++ b :: cs) :=
  .cons (fun _ => isLineEnd_of_mem_spaced (isWord_headerWords v n)) (spread_spaced (isWord_headerWords v n)) hb h

/-- Numbers with single spaces. -/
private theorem Laid.numbers {b : Char} (ns : List Int) (hb : isLineEnd b = true) (h : Laid rows cs) :
    Laid (.numbers ns :: rows) (spaced (numberWords ns) ++ b :: cs) :=
  .cons (fun _ => isLineEnd_of_mem_spaced (isWord_numberWords ns)) (spread_spaced (isWord_numberWords ns)) hb h

private theorem Laid.last_numbers (ns : List Int) : Laid [.numbers ns] (spaced (numberWords ns)) :=
  .last (fun _ => isLineEnd_of_mem_spaced (isWord_numberWords ns)) (spread_spaced (isWord_numberWords ns))

private theorem getLast?_declared?_cons (r : Row) (rows : List Row) : ((r :: rows).filterMap Row.declared?).getLast? =
    (rows.filterMap Row.declared?).getLast?.or r.declared? := by
  rw [← List.singleton_append, List.filterMap_append, List.getLast?_append]
  cases r <;> rfl

/-- A layout is accepted if its numbers are short, and says what stands on its lines. -/
theorem Laid.says_iff (h : Laid rows cs) : Says (lines cs) ns v? ↔
    (∀ r ∈ rows, r.Short) ∧ rows.flatMap Row.literals = ns ∧ (rows.filterMap Row.declared?).getLast? = v? := by
  induction h generalizing ns v? with
  | last hl h =>
    rw [lines_eq_solid hl, says_solid, h.says_iff, getLast?_declared?_cons, List.flatMap_singleton,
      List.forall_mem_singleton]
    rfl
  | cons hl h hb hrest ih =>
    rw [says_lines_append hb, says_append, List.forall_mem_cons, getLast?_declared?_cons, List.flatMap_cons]
    simp only [lines_eq_solid hl, says_solid, h.says_iff, ih]
    constructor
    · rintro ⟨_, _, _, _, ⟨hr, rfl, rfl⟩, ⟨hrows, rfl, rfl⟩, rfl, rfl⟩
      exact ⟨⟨hr, hrows⟩, rfl, rfl⟩
    · rintro ⟨⟨hr, hrows⟩, rfl, rfl⟩
      exact ⟨_, _, _, _, ⟨hr, rfl, rfl⟩, ⟨hrows, rfl, rfl⟩, rfl, rfl⟩

/-! ### Documents -/

private theorem maxVar_le_int_iff {clauses : List (List Int)} {m : Int} :
    (maxVar clauses : Int) ≤ m ↔ 0 ≤ m ∧ ∀ l ∈ clauses.flatten, (l.natAbs : Int) ≤ m := by
  constructor
  · intro h
    refine ⟨Int.le_trans (Int.natCast_nonneg _) h, fun l hl => ?_⟩
    obtain ⟨c, hc, hlc⟩ := List.mem_flatten.1 hl
    have hle := maxVar_le_iff.1 (Nat.le_refl _) c hc l hlc
    omega
  · rintro ⟨hm, h⟩
    obtain ⟨n, rfl⟩ := Int.eq_ofNat_of_zero_le hm
    refine Int.ofNat_le.2 (maxVar_le_iff.2 fun c hc l hl => ?_)
    exact Int.ofNat_le.1 (h l (List.mem_flatten_of_mem hc hl))

private theorem max?_cons_zero (v? : Option Int) (clauses : List (List Int)) :
    (0 :: (v?.toList ++ clauses.flatten.map fun l => (l.natAbs : Int))).max? =
      some (max (v?.getD 0) (maxVar clauses : Int)) := by
  rw [List.max?_cons']
  have hle (m : Int) : (v?.toList ++ clauses.flatten.map fun l => (l.natAbs : Int)).foldl max 0 ≤ m ↔
      max (v?.getD 0) (maxVar clauses : Int) ≤ m := by
    rw [List.max?_le_iff List.max?_cons', List.forall_mem_cons, List.forall_mem_append, List.forall_mem_map,
      Int.max_le, maxVar_le_int_iff]
    cases v? with
    | none => simp
    | some v => simp [and_left_comm]
  exact congrArg some (Int.le_antisymm ((hle _).2 (Int.le_refl _)) ((hle _).1 (Int.le_refl _)))

/-- The reader does not depend on the layout: it finds the clauses, and takes the maximum of zero, the number of
variables in the last header and the variables of the literals. It refuses a text where a zero is missing behind the
last clause, or where a number has too many digits. -/
theorem parse_of_laid {text : String} {clauses : List (List Int)} {rest : List Int} (hlaid : Laid rows text.toList)
    (hclauses : ∀ c ∈ clauses, ∀ l ∈ c, l ≠ 0) (hrest : ∀ l ∈ rest, l ≠ 0)
    (hliterals : rows.flatMap Row.literals = clauses.flatMap (· ++ [0]) ++ rest) :
    (rest = [] → (∀ r ∈ rows, r.Short) → ∃ d, parse text = .ok d ∧ d.clauses = clauses ∧
      (0 :: ((rows.filterMap Row.declared?).getLast?.toList ++ clauses.flatten.map fun l => (l.natAbs : Int))).max? =
        some (d.numVars : Int)) ∧
    (rest ≠ [] ∨ (∃ r ∈ rows, ¬r.Short) → ∃ x, parse text = .error x ∧ x.kind = .formula) := by
  have hsplit : splitClauses (clauses.flatMap (· ++ [0]) ++ rest) = (clauses, rest) := by
    rw [splitClauses_append hclauses, splitClauses_eq_rest hrest, List.append_nil]
  constructor
  · rintro rfl hshort
    have hsays := hlaid.says_iff.2 ⟨hshort, hliterals, rfl⟩
    obtain ⟨d, hd, hdclauses, hvars⟩ := exists_parse hsays (congrArg Prod.snd hsplit)
    rw [hsplit] at hdclauses
    refine ⟨d, hd, hdclauses, ?_⟩
    rw [hvars, hdclauses]
    exact max?_cons_zero _ clauses
  · intro hbad
    cases hparse : parse text with
    | error x => exact ⟨x, rfl, kind_of_parse_eq_error hparse⟩
    | ok d =>
      obtain ⟨v?, hsays, -⟩ := parse_eq_ok_iff.1 hparse
      obtain ⟨hshort, hns, -⟩ := hlaid.says_iff.1 hsays
      -- The numbers of an accepted text end with a zero, if there are any.
      have hnil : rest = [] := by
        have hwhole := splitClauses_flatMap fun c hc l hl => (d.inRange c hc l hl).1
        rw [← hns, hliterals, hsplit] at hwhole
        exact congrArg Prod.snd hwhole
      rcases hbad with hne | ⟨r, hr, hlong⟩
      · exact absurd hnil hne
      · exact absurd (hshort r hr) hlong

/-- A clause goes on behind a comment and a header. -/
theorem parse_of_laid_of_split_clause :
    let rows : List Row := [.numbers [1, -2], .comment, .numbers [], .header 5 9, .numbers [0]]
    let text := "1 -2\n c\r\np cnf 5 9\n0"
    Laid rows text.toList ∧ (∀ r ∈ rows, r.Short) ∧ rows.flatMap Row.literals = [[1, -2]].flatMap (· ++ [0]) ++ [] ∧
      ∃ d, parse text = .ok d ∧ d.clauses = [[1, -2]] ∧ d.numVars = 5 := by
  intro rows text
  have hdigits (ns : List Int) (h : ∀ n ∈ ns, n.natAbs < 10) : Row.Short (.numbers ns) := fun n hn =>
    lt_pow_maxDigits (h n hn)
  have hheader : Row.Short (.header 5 9) := ⟨lt_pow_maxDigits (by decide), lt_pow_maxDigits (by decide)⟩
  have hshort : ∀ r ∈ rows, r.Short := by
    simp only [rows, List.forall_mem_cons]
    exact ⟨hdigits _ (by decide), trivial, hdigits _ (by decide), hheader,
      hdigits _ (by decide), List.forall_mem_nil _⟩
  have hcomment : Row.Holds .comment [' ', 'c'] := ⟨[' '], [], List.forall_mem_singleton.2 rfl, rfl⟩
  have hends : ∀ c ∈ [' ', 'c'], isLineEnd c = false := List.forall_mem_cons.2 ⟨rfl, List.forall_mem_singleton.2 rfl⟩
  have htext : "1 -2\n c\r\np cnf 5 9\n0".toList =
      spaced (numberWords [1, -2]) ++ '\n' :: ([' ', 'c'] ++ '\r' ::
        (spaced (numberWords []) ++ '\n' :: (spaced (headerWords 5 9) ++ '\n' :: spaced (numberWords [0])))) := rfl
  have hlaid : Laid rows text.toList := by
    dsimp only [text]
    rw [htext]
    exact .numbers [1, -2] rfl (.cons hends hcomment rfl (.numbers [] rfl (.header 5 9 rfl (.last_numbers [0]))))
  have hne : ∀ c ∈ [[1, -2]], ∀ l ∈ c, l ≠ (0 : Int) := by decide
  obtain ⟨d, hd, hclauses, hvars⟩ := (parse_of_laid hlaid hne (List.forall_mem_nil _) rfl).1 rfl hshort
  have hmax : some (5 : Int) = some (d.numVars : Int) := hvars
  rw [Option.some.injEq] at hmax
  exact ⟨hlaid, hshort, rfl, d, hd, hclauses, by omega⟩

/-- A number of too many digits is refused, even if it only counts the clauses. -/
theorem parse_refuses_long_count :
    let rows : List Row := [.header 1 (10 ^ maxDigits), .numbers [1, 0], .numbers []]
    let text := "p cnf 1 " ++ toString (10 ^ maxDigits : Int) ++ "\n1 0\n"
    Laid rows text.toList ∧ rows.flatMap Row.literals = [[1]].flatMap (· ++ [0]) ∧ ¬∃ d, parse text = .ok d := by
  intro rows text
  have hlaid (n : Int) :
      Laid [.header 1 n, .numbers [1, 0], .numbers []] ("p cnf 1 " ++ toString n ++ "\n1 0\n").toList := by
    have htext : ("p cnf 1 " ++ toString n ++ "\n1 0\n").toList =
        spaced (headerWords 1 n) ++ '\n' :: (spaced (numberWords [1, 0]) ++ '\n' :: spaced (numberWords [])) := by
      rw [← toList_header]
      simp only [String.toList_append, List.append_assoc]
      rfl
    rw [htext]
    exact .header 1 n rfl (.numbers [1, 0] rfl (.last_numbers []))
  refine ⟨hlaid _, rfl, ?_⟩
  rintro ⟨d, hd⟩
  obtain ⟨v?, hsays, -⟩ := parse_eq_ok_iff.1 hd
  have hshort := ((hlaid _).says_iff.1 hsays).1 _ (List.mem_cons_self ..)
  have hlong : ((10 : Int) ^ maxDigits).natAbs < 10 ^ maxDigits := hshort.2
  have hten : (10 : Int).natAbs = 10 := rfl
  rw [Int.natAbs_pow, hten] at hlong
  exact Nat.lt_irrefl _ hlong

end Clausify.Dimacs
