import Clausify.Text.Blank
import Clausify.Text.Line
import Mathlib.Data.List.DropRight

/-!
# Lines and words

A text of lines with a line feed behind each is split into these lines (`lines_terminated`).  Whatever a text holds, a
line end parts its lines, up to empty ones (`solid_lines_append`).  A line of words with blanks between them and
around them is split into these words (`Spread.words_eq`), and trimming it keeps them (`words_trim`).
-/

namespace Clausify.Text

/-! ### Lines -/

private theorem isBlank_of_isLineEnd {c : Char} (h : isLineEnd c = true) : isBlank c = true := by
  unfold isLineEnd at h
  unfold isBlank inRanges blankRanges
  simp only [List.any_cons, List.any_nil, Bool.or_false, Bool.or_eq_true, Bool.and_eq_true, decide_eq_true_iff,
    beq_iff_eq] at h ⊢
  omega

private theorem isLineEnd_of_not_blank {c : Char} (h : isBlank c = false) : isLineEnd c = false := by
  cases hc : isLineEnd c with
  | false => rfl
  | true =>
    rw [isBlank_of_isLineEnd hc] at h
    cases h

private theorem lines_cons_end {b : Char} (hb : isLineEnd b = true) {cs : List Char}
    (hcs : ∀ ds, b = '\r' → cs ≠ '\n' :: ds) : lines (b :: cs) = [] :: lines cs := by
  rw [lines, if_pos hb]
  exact hcs

theorem lines_cons {c : Char} (hc : isLineEnd c = false) (cs : List Char) :
    lines (c :: cs) = (c :: (lines cs).headD []) :: (lines cs).tail := by
  rw [lines, hc]
  · cases lines cs <;> rfl
  · rintro _ rfl
    cases hc

private theorem lines_lineFeed (cs : List Char) : lines ('\n' :: cs) = [] :: lines cs :=
  lines_cons_end (by decide) fun _ h => absurd h (by decide)

private theorem lines_append_newline {l : List Char} (hl : ∀ c ∈ l, isLineEnd c = false) (cs : List Char) :
    lines (l ++ '\n' :: cs) = l :: lines cs := by
  induction l with
  | nil => exact lines_lineFeed cs
  | cons c l ih =>
    rw [List.cons_append, lines_cons (hl c (List.mem_cons_self ..)), ih fun d hd => hl d (List.mem_cons_of_mem _ hd)]
    rfl

theorem lines_terminated {ls : List (List Char)} (h : ∀ l ∈ ls, ∀ c ∈ l, isLineEnd c = false) :
    lines (ls.flatMap (· ++ ['\n'])) = ls := by
  induction ls with
  | nil => rfl
  | cons l ls ih =>
    rw [List.flatMap_cons, List.append_assoc, List.singleton_append,
      lines_append_newline (h l (List.mem_cons_self ..)), ih fun m hm => h m (List.mem_cons_of_mem _ hm)]

/-! ### Empty lines -/

/-- The lines that are not empty. -/
def solid (ls : List (List Char)) : List (List Char) := ls.filter fun l => !l.isEmpty

theorem solid_eq_append (ls : List (List Char)) : solid ls = solid [ls.headD []] ++ solid ls.tail := by
  cases ls with
  | nil => rfl
  | cons l ls => exact List.filter_append (p := fun l => !l.isEmpty) [l] ls

/-- Where a text starts with a line end, its first line is empty, and a line end that follows may belong to it. -/
private theorem lines_end_cons {b : Char} (hb : isLineEnd b = true) (cs : List Char) :
    ∃ ls, lines (b :: cs) = [] :: ls ∧ solid ls = solid (lines cs) := by
  by_cases hcr : ∃ ds, b = '\r' ∧ cs = '\n' :: ds
  · obtain ⟨ds, rfl, rfl⟩ := hcr
    refine ⟨lines ds, rfl, ?_⟩
    rw [lines_lineFeed]
    rfl
  · exact ⟨lines cs, lines_cons_end hb fun ds h hds => hcr ⟨ds, h, hds⟩, rfl⟩

private theorem lines_append_end {b : Char} (hb : isLineEnd b = true) (l cs : List Char) :
    (lines (l ++ b :: cs)).headD [] = (lines l).headD [] ∧
      solid (lines (l ++ b :: cs)).tail = solid (lines l).tail ++ solid (lines cs) := by
  induction l with
  | nil =>
    obtain ⟨ls, hls, hsolid⟩ := lines_end_cons hb cs
    rw [List.nil_append, hls]
    exact ⟨rfl, hsolid⟩
  | cons c l ih =>
    rw [List.cons_append]
    cases hc : isLineEnd c with
    | false =>
      rw [lines_cons hc, lines_cons hc]
      exact ⟨congrArg (c :: ·) ih.1, ih.2⟩
    | true =>
      obtain ⟨ls, hls, hsolid⟩ := lines_end_cons hc (l ++ b :: cs)
      obtain ⟨ms, hms, hsolid'⟩ := lines_end_cons hc l
      rw [hls, hms]
      refine ⟨rfl, ?_⟩
      show solid ls = solid ms ++ _
      rw [hsolid, hsolid', solid_eq_append, ih.1, ih.2, solid_eq_append (lines l), List.append_assoc]

/-- A line end parts the lines, up to empty ones. -/
theorem solid_lines_append {b : Char} (hb : isLineEnd b = true) (l cs : List Char) :
    solid (lines (l ++ b :: cs)) = solid (lines l) ++ solid (lines cs) := by
  obtain ⟨hhead, htail⟩ := lines_append_end hb l cs
  rw [solid_eq_append, hhead, htail, solid_eq_append (lines l), List.append_assoc]

/-- A text without line ends is one line, if it is not empty. -/
theorem lines_eq_solid {l : List Char} (hl : ∀ c ∈ l, isLineEnd c = false) : lines l = solid [l] := by
  induction l with
  | nil => rfl
  | cons c l ih =>
    rw [lines_cons (hl c (List.mem_cons_self ..)), ih fun d hd => hl d (List.mem_cons_of_mem _ hd)]
    cases l <;> rfl

theorem tail_lines_eq_nil {l : List Char} (hl : ∀ c ∈ l, isLineEnd c = false) : (lines l).tail = [] := by
  rw [lines_eq_solid hl]
  cases l <;> rfl

/-! ### Words -/

/-- A word has characters, none of which is a blank. -/
structure IsWord (w : List Char) : Prop where
  ne_nil : w ≠ []
  not_blank : ∀ c ∈ w, isBlank c = false

private theorem go_append {w : List Char} (hw : ∀ c ∈ w, isBlank c = false) (word cs : List Char) :
    words.go word (w ++ cs) = words.go (w.reverse ++ word) cs := by
  induction w generalizing word with
  | nil => rfl
  | cons c w ih =>
    have hc := hw c (List.mem_cons_self ..)
    rw [List.cons_append, words.go, if_neg (by rw [hc]; exact Bool.false_ne_true),
      ih fun d hd => hw d (List.mem_cons_of_mem _ hd), List.reverse_cons, List.append_assoc, List.singleton_append]

private theorem words_word {w : List Char} (hw : IsWord w) : words w = [w] := by
  have h := go_append hw.not_blank [] []
  rw [List.append_nil, List.append_nil] at h
  unfold words
  rw [h, words.go, List.reverse_reverse, if_neg]
  rw [List.isEmpty_reverse, List.isEmpty_iff]
  exact hw.ne_nil

private theorem words_append_blank {w : List Char} (hw : IsWord w) {b : Char} (hb : isBlank b = true)
    (cs : List Char) : words (w ++ b :: cs) = w :: words cs := by
  have h := go_append hw.not_blank [] (b :: cs)
  rw [List.append_nil] at h
  unfold words
  rw [h, words.go, if_pos hb, List.reverse_reverse, if_neg]
  rw [List.isEmpty_reverse, List.isEmpty_iff]
  exact hw.ne_nil

private theorem go_cons {word : List Char} (hne : word ≠ []) (cs : List Char) :
    ∃ w ws, words.go word cs = (word.reverse ++ w) :: ws := by
  have hempty : word.isEmpty = false := List.isEmpty_eq_false_iff.2 hne
  induction cs generalizing word with
  | nil =>
    refine ⟨[], [], ?_⟩
    rw [words.go, hempty, List.append_nil]
    rfl
  | cons c cs ih =>
    rw [words.go, hempty]
    split
    · exact ⟨[], words.go [] cs, by rw [List.append_nil]; rfl⟩
    · obtain ⟨w, ws, h⟩ := ih (List.cons_ne_nil c word) rfl
      refine ⟨c :: w, ws, ?_⟩
      rw [h, List.reverse_cons, List.append_assoc, List.singleton_append]

/-- A character that is not a blank starts the first word. -/
theorem exists_words_cons {c : Char} (hc : isBlank c = false) (cs : List Char) :
    ∃ w ws, words (c :: cs) = (c :: w) :: ws := by
  unfold words
  rw [words.go, if_neg (by rw [hc]; exact Bool.false_ne_true)]
  exact go_cons (List.cons_ne_nil c []) cs

private theorem words_blank_cons {b : Char} (hb : isBlank b = true) (cs : List Char) :
    words (b :: cs) = words cs := by
  unfold words
  rw [words.go, if_pos hb]
  rfl

theorem words_blanks_append {bs : List Char} (hbs : ∀ b ∈ bs, isBlank b = true) (cs : List Char) :
    words (bs ++ cs) = words cs := by
  induction bs with
  | nil => rfl
  | cons b bs ih =>
    rw [List.cons_append, words_blank_cons (hbs b (List.mem_cons_self ..)),
      ih fun d hd => hbs d (List.mem_cons_of_mem _ hd)]

/-! ### Trimming -/

private theorem words_dropWhile (cs : List Char) : words (cs.dropWhile isBlank) = words cs := by
  induction cs with
  | nil => rfl
  | cons c cs ih =>
    rw [List.dropWhile_cons]
    split
    · rw [ih, words_blank_cons ‹_›]
    · rfl

private theorem go_concat_blank {b : Char} (hb : isBlank b = true) (word cs : List Char) :
    words.go word (cs ++ [b]) = words.go word cs := by
  induction cs generalizing word with
  | nil =>
    simp only [List.nil_append, words.go, hb, if_true]
    cases word <;> rfl
  | cons c cs ih => simp only [List.cons_append, words.go, ih]

private theorem words_rdropWhile (cs : List Char) : words (cs.rdropWhile isBlank) = words cs := by
  induction cs using List.reverseRecOn with
  | nil => rfl
  | append_singleton cs c ih =>
    rw [List.rdropWhile_concat]
    split
    · exact ih.trans (go_concat_blank ‹_› [] cs).symm
    · rfl

/-- Trimming keeps the words. -/
theorem words_trim (cs : List Char) : words (trim cs) = words cs :=
  (words_rdropWhile _).trans (words_dropWhile cs)

theorem isBlank_of_trim_eq {cs ds : List Char} {c : Char} (h : trim cs = c :: ds) : isBlank c = false := by
  obtain ⟨es, hes⟩ := List.rdropWhile_prefix isBlank (cs.dropWhile isBlank)
  have hhead : (cs.dropWhile isBlank).head? = some c := by
    rw [← hes]
    exact congrArg (fun ds => (ds ++ es).head?) h
  have hnot := List.head?_dropWhile_not isBlank cs
  rwa [hhead] at hnot

/-- Nothing is left of a text without words. -/
theorem trim_eq_nil {cs : List Char} (h : words cs = []) : trim cs = [] := by
  cases htrim : trim cs with
  | nil => rfl
  | cons c ds =>
    obtain ⟨w, ws, hwords⟩ := exists_words_cons (isBlank_of_trim_eq htrim) ds
    rw [← words_trim, htrim, hwords] at h
    cases h

/-- What is left of a text starts with its first word. -/
theorem exists_trim_eq_cons {cs : List Char} {c : Char} {w : List Char} {ws : List (List Char)}
    (h : words cs = (c :: w) :: ws) : ∃ ds, trim cs = c :: ds := by
  rw [← words_trim] at h
  cases htrim : trim cs with
  | nil =>
    rw [htrim] at h
    cases h
  | cons d ds =>
    obtain ⟨v, vs, hwords⟩ := exists_words_cons (isBlank_of_trim_eq htrim) ds
    rw [htrim, hwords] at h
    cases h
    exact ⟨ds, rfl⟩

/-! ### Spread words -/

/-- The words stand in the text in order, with blanks between them and around them. -/
inductive Spread : List (List Char) → List Char → Prop
  | nil : Spread [] []
  | blank {b : Char} {ws : List (List Char)} {cs : List Char} (hb : isBlank b = true) (h : Spread ws cs) :
      Spread ws (b :: cs)
  | last {w : List Char} (hw : IsWord w) : Spread [w] w
  | word {w : List Char} {b : Char} {ws : List (List Char)} {cs : List Char} (hw : IsWord w) (hb : isBlank b = true)
      (h : Spread ws cs) : Spread (w :: ws) (w ++ b :: cs)

/-- Spread words are told apart by the blanks. -/
theorem Spread.words_eq {ws : List (List Char)} {cs : List Char} (h : Spread ws cs) : words cs = ws := by
  induction h with
  | nil => rfl
  | blank hb _ ih => rw [words_blank_cons hb, ih]
  | last hw => exact words_word hw
  | word hw hb _ ih => rw [words_append_blank hw hb, ih]

/-- The words with a space between them. -/
def spaced (ws : List (List Char)) : List Char := [' '].intercalate ws

theorem spaced_cons_cons (w v : List Char) (ws : List (List Char)) :
    spaced (w :: v :: ws) = w ++ ' ' :: spaced (v :: ws) := by
  unfold spaced
  rw [List.intercalate_cons_cons, List.append_assoc, List.singleton_append]

theorem spaced_singleton (w : List Char) : spaced [w] = w := by
  unfold spaced
  exact List.intercalate_singleton

theorem spread_spaced {ws : List (List Char)} (h : ∀ w ∈ ws, IsWord w) : Spread ws (spaced ws) := by
  induction ws with
  | nil => exact .nil
  | cons w ws ih =>
    have hw := h w (List.mem_cons_self ..)
    cases ws with
    | nil =>
      rw [spaced_singleton]
      exact .last hw
    | cons v ws =>
      rw [spaced_cons_cons]
      exact .word hw (by decide) (ih fun u hu => h u (List.mem_cons_of_mem _ hu))

theorem words_spaced {ws : List (List Char)} (h : ∀ w ∈ ws, IsWord w) : words (spaced ws) = ws :=
  (spread_spaced h).words_eq

private theorem mem_spaced {ws : List (List Char)} {c : Char} (h : c ∈ spaced ws) : c = ' ' ∨ ∃ w ∈ ws, c ∈ w := by
  induction ws with
  | nil => cases h
  | cons w ws ih =>
    cases ws with
    | nil =>
      rw [spaced_singleton] at h
      exact .inr ⟨w, List.mem_cons_self .., h⟩
    | cons v ws =>
      rw [spaced_cons_cons, List.mem_append, List.mem_cons] at h
      rcases h with h | rfl | h
      · exact .inr ⟨w, List.mem_cons_self .., h⟩
      · exact .inl rfl
      · exact (ih h).imp_right fun ⟨u, hu, hc⟩ => ⟨u, List.mem_cons_of_mem _ hu, hc⟩

theorem isLineEnd_of_mem_spaced {ws : List (List Char)} (h : ∀ w ∈ ws, IsWord w) {c : Char} (hc : c ∈ spaced ws) :
    isLineEnd c = false := by
  rcases mem_spaced hc with rfl | ⟨w, hw, hcw⟩
  · decide
  · exact isLineEnd_of_not_blank ((h w hw).not_blank c hcw)

end Clausify.Text
