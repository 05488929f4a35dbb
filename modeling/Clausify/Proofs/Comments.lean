import Clausify.Proofs.Parsing

/-!
# Comments

A comment is written as one line, but its text may have line ends, and the reader takes the lines behind them for
lines of the document.  So comments leave the document alone exactly if all these lines are silent: blank, comments,
end marks or headers (`comments_change_nothing_iff`).
-/

namespace Clausify.Dimacs

open Text

variable {l : List Char} {ls : List (List Char)} {ns : List Int} {v? : Option Int}

/-! ### Silent lines -/

/-- A line is silent if it is blank, a comment, an end mark or a header. -/
inductive Silent (l : List Char) : Prop
  | blank (h : trim l = [])
  | comment {cs : List Char} (h : trim l = 'c' :: cs)
  | endMark {cs : List Char} (h : trim l = '%' :: cs)
  | header {cs : List Char} {v : Int} (h : trim l = 'p' :: cs) (hv : header? (trim l) = some v)

/-- The silent lines are those that are accepted and have no numbers. -/
private theorem silent_iff_readsAs : Silent l ↔ ∃ x, ReadsAs l x ∧ tokens [x] = [] := by
  constructor
  · intro h
    have hline : ∃ x, readLine 0 l = .ok x ∧ tokens [x] = [] := by
      unfold readLine
      dsimp only
      cases h with
      | blank h => exact ⟨.nothing, by rw [h], rfl⟩
      | comment h => exact ⟨.nothing, by rw [h]; rfl, rfl⟩
      | endMark h => exact ⟨.nothing, by rw [h]; rfl, rfl⟩
      | header h hv => exact ⟨.header _, by rw [hv, h]; rfl, rfl⟩
    obtain ⟨x, hx, htokens⟩ := hline
    exact ⟨x, readsAs_of_readLine hx, htokens⟩
  · rintro ⟨x, hx, htokens⟩
    have hread := hx 0
    unfold readLine at hread
    dsimp only at hread
    split at hread
    · exact .blank ‹_›
    · exact .comment ‹_›
    · exact .endMark ‹_›
    · split at hread
      · exact .header ‹_› ‹_›
      · cases hread
    · obtain ⟨ls, hls, hread⟩ := bind_eq_ok.1 hread
      cases hread
      rw [tokens_literals] at htokens
      rw [mapM_eq_ok, htokens, List.forall₂_nil_right_iff, words_trim] at hls
      exact .blank (trim_eq_nil hls)

private theorem silent_iff_says : Silent l ↔ ∃ v?, Says [l] [] v? := by
  rw [silent_iff_readsAs]
  constructor
  · rintro ⟨x, hx, htokens⟩
    exact ⟨_, [x], .cons hx .nil, htokens, rfl⟩
  · rintro ⟨_, _, hread, htokens, -⟩
    obtain ⟨x, _, hx, hnil, rfl⟩ := List.forall₂_cons_left_iff.1 hread
    cases hnil
    exact ⟨x, hx, htokens⟩

/-- Silent lines together have no numbers. -/
private theorem forall_silent_iff : (∀ l ∈ ls, Silent l) ↔ ∃ v?, Says ls [] v? := by
  induction ls with
  | nil => exact ⟨fun _ => ⟨none, says_nil.2 ⟨rfl, rfl⟩⟩, fun _ => List.forall_mem_nil _⟩
  | cons l ls ih =>
    rw [List.forall_mem_cons, ih, silent_iff_says]
    show _ ↔ ∃ v?, Says ([l] ++ ls) [] v?
    constructor
    · rintro ⟨⟨_, hl⟩, _, hls⟩
      exact ⟨_, says_append.2 ⟨_, _, _, _, hl, hls, rfl, rfl⟩⟩
    · rintro ⟨_, h⟩
      obtain ⟨ns₁, v₁, ns₂, v₂, hl, hls, hnil, -⟩ := says_append.1 h
      obtain ⟨rfl, rfl⟩ := List.nil_eq_append_iff.1 hnil
      exact ⟨⟨v₁, hl⟩, v₂, hls⟩

/-! ### Commented texts -/

/-- The lines that a comment becomes. -/
def commentLines (s : String) : List (List Char) := lines ("c " ++ s).toList

/-- The first line of a comment is a comment, the other lines may be anything. -/
private theorem forall_silent_commentLines (s : String) :
    (∀ l ∈ commentLines s, Silent l) ↔ ∀ l ∈ (lines s.toList).tail, Silent l := by
  have htext : ("c " ++ s).toList = 'c' :: ' ' :: s.toList := String.toList_append
  have hfirst : Silent ('c' :: ' ' :: (lines s.toList).headD []) := by
    obtain ⟨w, ws, hwords⟩ := exists_words_cons (c := 'c') (by decide) (' ' :: (lines s.toList).headD [])
    obtain ⟨cs, htrim⟩ := exists_trim_eq_cons hwords
    exact .comment htrim
  unfold commentLines
  rw [htext, lines_cons (by decide), lines_cons (by decide), List.headD_cons, List.tail_cons, List.forall_mem_cons]
  exact and_iff_right hfirst

/-- What comments put in front of a text. -/
def commentText (comments : List String) : String := String.join (comments.map fun s => "c " ++ s ++ "\n")

private theorem render_eq_append (d : Document) (comments : List String) :
    render d comments = (do let plain ← render d []; return commentText comments ++ plain) := by
  unfold render
  cases number d.numVars with
  | error x => rfl
  | ok v =>
    cases number d.clauses.length with
    | error x => rfl
    | ok n =>
      cases d.clauses.mapM clauseLine with
      | error x => rfl
      | ok cs =>
        refine congrArg Except.ok ?_
        rw [List.map_append, String.join_append, List.map_map]
        rfl

private theorem toList_commentText_cons (s : String) (comments : List String) (plain : String) :
    (commentText (s :: comments) ++ plain).toList =
      ("c " ++ s).toList ++ '\n' :: (commentText comments ++ plain).toList := by
  unfold commentText
  rw [List.map_cons, String.join_cons]
  simp only [String.toList_append, List.append_assoc]
  rfl

private theorem says_commentText (comments : List String) (plain : String) :
    Says (lines (commentText comments ++ plain).toList) ns v? ↔
      Says (comments.flatMap commentLines ++ lines plain.toList) ns v? := by
  induction comments generalizing ns v? with
  | nil =>
    have htext : commentText [] ++ plain = plain := String.empty_append
    rw [htext]
    rfl
  | cons s comments ih =>
    rw [toList_commentText_cons, says_lines_append (by decide), List.flatMap_cons, List.append_assoc, says_append,
      says_append]
    simp only [ih]
    rfl

private theorem parse_commentText_iff {d : Document} {plain : String} (hplain : render d [] = .ok plain)
    (comments : List String) : parse (commentText comments ++ plain) = .ok d ↔
      ∀ s ∈ comments, ∀ l ∈ (lines s.toList).tail, Silent l := by
  have hsays := says_render hplain
  have hsilent : (∀ s ∈ comments, ∀ l ∈ (lines s.toList).tail, Silent l) ↔
      ∃ v?, Says (comments.flatMap commentLines) [] v? := by
    simp only [← forall_silent_iff, List.forall_mem_flatMap, forall_silent_commentLines]
  rw [hsilent, parse_eq_ok_iff]
  simp only [says_commentText, says_append]
  constructor
  · rintro ⟨_, ⟨ns₁, v₁, ns₂, v₂, hcomments, hdocument, hns, -⟩, -⟩
    -- The document has all its numbers already, so the comments have none.
    obtain ⟨rfl, rfl⟩ := hsays.unique hdocument
    rw [List.self_eq_append_left] at hns
    exact ⟨v₁, hns ▸ hcomments⟩
  · rintro ⟨v, hcomments⟩
    -- The header of the document comes behind all headers in comments.
    refine ⟨some (d.numVars : Int), ⟨_, _, _, _, hcomments, hsays, rfl, rfl⟩, ?_⟩
    exact (max_numVars_maxVar d).symm

/-- Comments change nothing exactly if every line in them but their first ones is blank, a comment, an end mark or a
header. So they change nothing if they have no line ends. -/
theorem comments_change_nothing_iff (d : Document) (comments : List String) :
    (Writable d → ∃ text plain, render d comments = .ok text ∧ render d [] = .ok plain ∧ parse plain = .ok d ∧
      (parse text = parse plain ↔ ∀ s ∈ comments, ∀ l ∈ (lines s.toList).tail, Silent l) ∧
      ((∀ s ∈ comments, ∀ c ∈ s.toList, isLineEnd c = false) → parse text = parse plain)) ∧
    (¬Writable d → render d comments = .error .oversizedNumber) := by
  refine ⟨fun hw => ?_, fun hw => ?_⟩
  · obtain ⟨plain, hplain⟩ := exists_render hw
    have htext : render d comments = .ok (commentText comments ++ plain) := by
      rw [render_eq_append, hplain]
      rfl
    have hparse := parse_render hplain
    have hiff := parse_commentText_iff hplain comments
    rw [← hparse] at hiff
    refine ⟨_, plain, htext, hplain, hparse, hiff, fun hends => hiff.2 fun s hs l hl => ?_⟩
    rw [tail_lines_eq_nil (hends s hs)] at hl
    cases hl
  · rw [render_eq_append, render_eq_error hw]
    rfl

/-- A comment of two lines, the second of which is a comment as well. -/
theorem comments_change_nothing_iff_of_two_lines :
    let d : Document := ⟨1, [[1]], by decide⟩
    Writable d ∧ ∃ text plain, render d ["made by\nc hand"] = .ok text ∧ render d [] = .ok plain ∧
      parse text = parse plain := by
  intro d
  have hw : Writable d := ⟨lt_pow_maxDigits (by decide), lt_pow_maxDigits (by decide)⟩
  obtain ⟨text, plain, htext, hplain, -, hiff, -⟩ := (comments_change_nothing_iff d ["made by\nc hand"]).1 hw
  refine ⟨hw, text, plain, htext, hplain, hiff.2 ?_⟩
  rw [List.forall_mem_singleton]
  show ∀ l ∈ [['c', ' ', 'h', 'a', 'n', 'd']], Silent l
  exact List.forall_mem_singleton.2 (.comment rfl)

/-- A comment may add a clause, here one that makes the formula unsatisfiable. -/
theorem comments_add_clause :
    let d : Document := ⟨1, [[1]], by decide⟩
    ∃ text plain, render d ["x\n-1 0"] = .ok text ∧ render d [] = .ok plain ∧ parse plain = .ok d ∧
      ∃ e, parse text = .ok e ∧ e.clauses = [[-1], [1]] :=
  ⟨_, _, rfl, rfl, rfl, _, rfl, rfl⟩

end Clausify.Dimacs
