import Clausify.Document.Dimacs
import Clausify.Proofs.Documents
import Clausify.Proofs.Numerals
import Clausify.Proofs.Success
import Clausify.Proofs.Words
import Mathlib.Algebra.Group.Nat.Defs

/-!
# Reading what was written

The text of a document is read as the document (`Dimacs.parse_render`).  Its lines are the words of the header and of
the clauses with spaces between them, each word is read as the number that it was written for, and the zeros end the
clauses where they ended.  A document has a text unless a number in it has too many digits (`Dimacs.exists_render`,
`Dimacs.render_eq_error`).
-/

namespace Clausify.Dimacs

open Text

/-! ### Numbers -/

private theorem number_eq_ok {n : Int} {s : String} (h : number n = .ok s) :
    s = toString n ∧ n.natAbs < 10 ^ maxDigits := by
  unfold number at h
  split at h
  · cases h
    exact ⟨rfl, (Nat.length_toDigits_le_iff (by decide) (by decide)).1 ‹_›⟩
  · cases h

private theorem number_of_lt {n : Int} (h : n.natAbs < 10 ^ maxDigits) : number n = .ok (toString n) :=
  if_pos ((Nat.length_toDigits_le_iff (by decide) (by decide)).2 h)

private theorem number_of_le {n : Int} (h : 10 ^ maxDigits ≤ n.natAbs) : number n = .error .oversizedNumber :=
  if_neg fun hle => Nat.not_lt.2 h ((Nat.length_toDigits_le_iff (by decide) (by decide)).1 hle)

private theorem mapM_number {ls : List Int} {ss : List String} (h : ls.mapM number = .ok ss) :
    ss = ls.map toString ∧ ∀ l ∈ ls, l.natAbs < 10 ^ maxDigits := by
  rw [mapM_eq_ok] at h
  induction h with
  | nil => exact ⟨rfl, fun _ hl => absurd hl List.not_mem_nil⟩
  | cons hl _ ih =>
    obtain ⟨rfl, hshort⟩ := number_eq_ok hl
    obtain ⟨rfl, hshorts⟩ := ih
    exact ⟨rfl, List.forall_mem_cons.2 ⟨hshort, hshorts⟩⟩

private theorem isWord_toString (n : Int) : IsWord (toString n).toList :=
  ⟨toString_ne_nil n, fun _ hc => isBlank_of_mem_toString hc⟩

/-! ### Lines -/

/-- Whether a line is read as a contribution, whatever its number is. -/
def ReadsAs (l : List Char) (x : Line) : Prop := ∀ no, readLine no l = .ok x

/-- What an accepted line contributes does not depend on its number. -/
theorem readsAs_of_readLine {no : Nat} {raw : List Char} {x : Line} (h : readLine no raw = .ok x) :
    ReadsAs raw x := by
  intro no'
  unfold readLine at h ⊢
  dsimp only at h ⊢
  split at h
  · exact h
  · exact h
  · exact h
  · split at h
    · exact h
    · cases h
  · obtain ⟨ls, hls, h⟩ := bind_eq_ok.1 h
    refine bind_eq_ok.2 ⟨ls, mapM_eq_ok.2 ((mapM_eq_ok.1 hls).imp fun w l hl => ?_), h⟩
    split at hl
    · exact hl
    · cases hl

/-- The words of the header. -/
def headerWords (numVars clauses : Int) : List (List Char) :=
  [['p'], ['c', 'n', 'f'], (toString numVars).toList, (toString clauses).toList]

/-- The words of numbers. -/
def numberWords (ls : List Int) : List (List Char) := ls.map fun l => (toString l).toList

theorem isWord_headerWords (v n : Int) : ∀ w ∈ headerWords v n, IsWord w := by
  have hp : IsWord ['p'] := ⟨List.cons_ne_nil _ _, List.forall_mem_singleton.2 rfl⟩
  have hcnf : IsWord ['c', 'n', 'f'] :=
    ⟨List.cons_ne_nil _ _,
      List.forall_mem_cons.2 ⟨rfl, List.forall_mem_cons.2 ⟨rfl, List.forall_mem_singleton.2 rfl⟩⟩⟩
  unfold headerWords
  rw [List.forall_mem_cons, List.forall_mem_cons, List.forall_mem_cons, List.forall_mem_singleton]
  exact ⟨hp, hcnf, isWord_toString v, isWord_toString n⟩

theorem isWord_numberWords (ls : List Int) : ∀ w ∈ numberWords ls, IsWord w := by
  intro w hw
  obtain ⟨l, -, rfl⟩ := List.mem_map.1 hw
  exact isWord_toString l

theorem readLine_blank {raw : List Char} (hwords : words raw = []) (no : Nat) : readLine no raw = .ok .nothing := by
  unfold readLine
  dsimp only
  rw [trim_eq_nil hwords]

/-- Comments and end marks contribute nothing. -/
theorem readLine_skipped {raw w : List Char} {c : Char} {ws : List (List Char)} (hc : c = 'c' ∨ c = '%')
    (hwords : words raw = (c :: w) :: ws) (no : Nat) : readLine no raw = .ok .nothing := by
  obtain ⟨cs, htrim⟩ := exists_trim_eq_cons hwords
  unfold readLine
  dsimp only
  rw [htrim]
  rcases hc with rfl | rfl <;> rfl

theorem header?_eq_some_iff {line : List Char} {a : Int} : header? line = some a ↔
    ∃ p v n b, words line = [p, ['c', 'n', 'f'], v, n] ∧ integer? v = some a ∧ integer? n = some b := by
  unfold header?
  constructor
  · intro h
    split at h
    · rename_i p v n hwords
      obtain ⟨_, hv, h⟩ := Option.bind_eq_some_iff.1 h
      obtain ⟨b, hn, h⟩ := Option.bind_eq_some_iff.1 h
      cases h
      exact ⟨p, v, n, b, hwords, hv, hn⟩
    · cases h
  · rintro ⟨p, v, n, b, hwords, hv, hn⟩
    rw [hwords]
    simp [hv, hn]

/-- A line that starts with the letter of headers is accepted if it can be read as one. -/
theorem readLine_of_header {no : Nat} {raw w : List Char} {ws : List (List Char)} {x : Line}
    (hwords : words raw = ('p' :: w) :: ws) :
    readLine no raw = .ok x ↔ ∃ a, header? raw = some a ∧ x = .header a := by
  obtain ⟨cs, htrim⟩ := exists_trim_eq_cons hwords
  have hheader : header? ('p' :: cs) = header? raw := by
    unfold header?
    rw [← htrim, words_trim]
  unfold readLine
  dsimp only
  rw [htrim, hheader]
  cases header? raw with
  | none => simp
  | some a => simp [eq_comm]

/-- A header line is accepted if its numbers are. -/
theorem readLine_header {no : Nat} {raw : List Char} {v n : Int} {x : Line} (hwords : words raw = headerWords v n) :
    readLine no raw = .ok x ↔ (v.natAbs < 10 ^ maxDigits ∧ n.natAbs < 10 ^ maxDigits) ∧ x = .header v := by
  rw [readLine_of_header hwords]
  constructor
  · rintro ⟨a, ha, rfl⟩
    obtain ⟨p, v', n', b, hfour, hv, hn⟩ := header?_eq_some_iff.1 ha
    cases hwords.symm.trans hfour
    obtain ⟨hvshort, rfl⟩ := integer?_toString_eq_some.1 hv
    exact ⟨⟨hvshort, (integer?_toString_eq_some.1 hn).1⟩, rfl⟩
  · rintro ⟨⟨hv, hn⟩, rfl⟩
    have hheader := header?_eq_some_iff.2
      ⟨_, _, _, n, hwords, integer?_toString_eq_some.2 ⟨hv, rfl⟩, integer?_toString_eq_some.2 ⟨hn, rfl⟩⟩
    exact ⟨v, hheader, rfl⟩

/-- A line that does not start like a header, a comment or an end mark has numbers only. -/
theorem readLine_eq_ok_iff {no : Nat} {raw w : List Char} {c : Char} {ws : List (List Char)} {x : Line}
    (hwords : words raw = (c :: w) :: ws) (hc : c ≠ 'c' ∧ c ≠ '%' ∧ c ≠ 'p') :
    readLine no raw = .ok x ↔
      ∃ ls, List.Forall₂ (fun w l => integer? w = some l) (words raw) ls ∧ x = .literals ls := by
  obtain ⟨cs, htrim⟩ := exists_trim_eq_cons hwords
  unfold readLine
  dsimp only
  split
  · rename_i heq
    cases htrim.symm.trans heq
  · rename_i heq
    exact absurd (List.head_eq_of_cons_eq (htrim.symm.trans heq)) hc.1
  · rename_i heq
    exact absurd (List.head_eq_of_cons_eq (htrim.symm.trans heq)) hc.2.1
  · rename_i heq
    exact absurd (List.head_eq_of_cons_eq (htrim.symm.trans heq)) hc.2.2
  · rw [words_trim, bind_eq_ok]
    refine exists_congr fun ls => and_congr ?_ ?_
    · rw [mapM_eq_ok]
      constructor
      · refine fun h => h.imp fun w l hl => ?_
        split at hl
        · cases hl
          assumption
        · cases hl
      · refine fun h => h.imp fun w l hl => ?_
        rw [hl]
    · exact ⟨fun h => by cases h; rfl, fun h => by cases h; rfl⟩

/-- A line of numbers is accepted if they are. -/
theorem readLine_numbers {no : Nat} {raw : List Char} {ls : List Int} {x : Line} (hwords : words raw = numberWords ls)
    (hne : ls ≠ []) : readLine no raw = .ok x ↔ (∀ l ∈ ls, l.natAbs < 10 ^ maxDigits) ∧ x = .literals ls := by
  obtain ⟨l, ms, rfl⟩ := List.exists_cons_of_ne_nil hne
  obtain ⟨c, w, hw⟩ := List.exists_cons_of_ne_nil (toString_ne_nil l)
  have hfirst : words raw = (c :: w) :: numberWords ms := by
    rw [← hw]
    exact hwords
  have hc : c ≠ 'c' ∧ c ≠ '%' ∧ c ≠ 'p' := by
    rcases mem_toString (hw ▸ List.mem_cons_self ..) with rfl | hdigit
    · decide
    · refine ⟨?_, ?_, ?_⟩ <;>
      · rintro rfl
        exact absurd hdigit (by decide)
  rw [readLine_eq_ok_iff hfirst hc, hwords]
  unfold numberWords
  simp only [List.forall₂_map_left_iff, integer?_toString_eq_some, List.forall₂_and_left, List.forall₂_eq_eq_eq]
  constructor
  · rintro ⟨_, ⟨hshort, rfl⟩, rfl⟩
    exact ⟨hshort, rfl⟩
  · rintro ⟨hshort, rfl⟩
    exact ⟨_, ⟨hshort, rfl⟩, rfl⟩

/-! ### Clauses -/

private theorem splitClauses_cons {c : List Int} (hc : ∀ l ∈ c, l ≠ 0) (ls : List Int) :
    splitClauses (c ++ 0 :: ls) = (c :: (splitClauses ls).1, (splitClauses ls).2) := by
  induction c with
  | nil =>
    rw [List.nil_append, splitClauses]
    exact if_pos rfl
  | cons l c ih =>
    rw [List.cons_append, splitClauses, ih fun k hk => hc k (List.mem_cons_of_mem _ hk)]
    exact if_neg (hc l (List.mem_cons_self ..))

/-- Clauses with zeros behind them are told apart by the zeros. -/
theorem splitClauses_append {cs : List (List Int)} (h : ∀ c ∈ cs, ∀ l ∈ c, l ≠ 0) (ls : List Int) :
    splitClauses (cs.flatMap (· ++ [0]) ++ ls) = (cs ++ (splitClauses ls).1, (splitClauses ls).2) := by
  induction cs with
  | nil => rfl
  | cons c cs ih =>
    rw [List.flatMap_cons, List.append_assoc, List.append_assoc, List.singleton_append,
      splitClauses_cons (h c (List.mem_cons_self ..)), ih fun d hd => h d (List.mem_cons_of_mem _ hd)]
    rfl

theorem splitClauses_flatMap {cs : List (List Int)} (h : ∀ c ∈ cs, ∀ l ∈ c, l ≠ 0) :
    splitClauses (cs.flatMap (· ++ [0])) = (cs, []) := by
  rw [← List.append_nil (cs.flatMap _), splitClauses_append h]
  show (cs ++ [], []) = _
  rw [List.append_nil]

/-- Without a zero, no clause ends. -/
theorem splitClauses_eq_rest {ls : List Int} (h : ∀ l ∈ ls, l ≠ 0) : splitClauses ls = ([], ls) := by
  induction ls with
  | nil => rfl
  | cons l ls ih =>
    rw [splitClauses, ih fun k hk => h k (List.mem_cons_of_mem _ hk)]
    exact if_neg (h l (List.mem_cons_self ..))

private theorem foldl_max_le_iff {ls : List Int} {m n : Nat} :
    ls.foldl (fun n l => max n l.natAbs) m ≤ n ↔ m ≤ n ∧ ∀ l ∈ ls, l.natAbs ≤ n := by
  induction ls generalizing m with
  | nil => simp
  | cons l ls ih => rw [List.foldl_cons, ih, Nat.max_le, List.forall_mem_cons, and_assoc]

theorem maxVar_le_iff {n : Nat} {cs : List (List Int)} : maxVar cs ≤ n ↔ ∀ c ∈ cs, ∀ l ∈ c, l.natAbs ≤ n := by
  have hstart (m : Nat) : cs.foldl (fun n c => c.foldl (fun n l => max n l.natAbs) n) m ≤ n ↔
      m ≤ n ∧ ∀ c ∈ cs, ∀ l ∈ c, l.natAbs ≤ n := by
    induction cs generalizing m with
    | nil => simp
    | cons c cs ih => rw [List.foldl_cons, ih, foldl_max_le_iff, List.forall_mem_cons, and_assoc]
  exact (hstart 0).trans (and_iff_right n.zero_le)

/-! ### Documents -/

theorem mapM_readLine_eq_ok {ls : List (List Char)} {xs : List Line} (i : Nat) :
    (ls.zipIdx i).mapM (fun (raw, i) => readLine (i + 1) raw) = .ok xs ↔ List.Forall₂ ReadsAs ls xs := by
  rw [mapM_eq_ok]
  induction ls generalizing i xs with
  | nil => rw [List.zipIdx_nil, List.forall₂_nil_left_iff, List.forall₂_nil_left_iff]
  | cons l ls ih =>
    have hl {x : Line} : readLine (i + 1) l = .ok x ↔ ReadsAs l x := ⟨readsAs_of_readLine, fun h => h _⟩
    simp only [List.zipIdx_cons, List.forall₂_cons_left_iff, ih, hl]

/-- A text is read as a document if its lines have the clauses in order, and no header with more variables. -/
theorem parse_eq_ok {text : String} {xs : List Line} {d : Document}
    (hread : List.Forall₂ ReadsAs (lines text.toList) xs) (htokens : tokens xs = d.clauses.flatMap (· ++ [0]))
    (hsize : max ((declared? xs).getD 0) (maxVar d.clauses) = d.numVars) : parse text = .ok d := by
  have hsplit := splitClauses_flatMap fun c hc l hl => (d.inRange c hc l hl).1
  unfold parse
  rw [bind_eq_ok]
  refine ⟨xs, (mapM_readLine_eq_ok 0).2 hread, ?_⟩
  dsimp only
  rw [htokens, hsplit]
  dsimp only
  rw [hsize, d.ofClauses_eq_ok]
  rfl

private theorem toList_clauseLine {c : List Int} {s : String} (h : clauseLine c = .ok s) :
    s.toList = spaced (numberWords (c ++ [0])) ∧ ∀ l ∈ c ++ [0], l.natAbs < 10 ^ maxDigits := by
  obtain ⟨ss, hss, h⟩ := bind_eq_ok.1 h
  cases h
  obtain ⟨rfl, hshort⟩ := mapM_number hss
  constructor
  · rw [String.toList_intercalate, List.map_append, List.map_map]
    unfold numberWords
    rw [List.map_append]
    rfl
  · rw [List.forall_mem_append]
    exact ⟨hshort, List.forall_mem_singleton.2 (Nat.pow_pos (by decide))⟩

theorem toList_header (v n : Int) :
    ("p cnf " ++ toString v ++ " " ++ toString n).toList = spaced (headerWords v n) := by
  unfold headerWords
  rw [spaced_cons_cons, spaced_cons_cons, spaced_cons_cons, spaced_singleton]
  simp only [String.toList_append, List.append_assoc]
  rfl

theorem toList_join (ls : List String) :
    (String.join (ls.map (· ++ "\n"))).toList = (ls.map String.toList).flatMap (· ++ ['\n']) := by
  rw [String.toList_join, List.flatMap_map, List.flatMap_map]
  exact congrArg (ls.flatMap ·) (funext fun l => String.toList_append)

/-- The lines of a text that was written. -/
theorem lines_render {d : Document} {text : String} (h : render d [] = .ok text) :
    List.Forall₂ ReadsAs (lines text.toList) (.header d.numVars :: d.clauses.map fun c => .literals (c ++ [0])) := by
  obtain ⟨v, hv, h⟩ := bind_eq_ok.1 h
  obtain ⟨n, hn, h⟩ := bind_eq_ok.1 h
  obtain ⟨cs, hcs, h⟩ := bind_eq_ok.1 h
  rw [mapM_eq_ok] at hcs
  obtain ⟨rfl, hvars⟩ := number_eq_ok hv
  obtain ⟨rfl, hsize⟩ := number_eq_ok hn
  have hheader := toList_header d.numVars d.clauses.length
  generalize "p cnf " ++ toString (d.numVars : Int) ++ " " ++ toString (d.clauses.length : Int) = s at h hheader
  have hends : ∀ l ∈ (s :: cs).map String.toList, ∀ c ∈ l, isLineEnd c = false := by
    rw [List.map_cons, List.forall_mem_cons, List.forall_mem_map, hheader]
    refine ⟨fun c => isLineEnd_of_mem_spaced (isWord_headerWords _ _), fun s hs c => ?_⟩
    obtain ⟨_, -, hc⟩ := exists_mem_of_forall₂ hcs hs
    rw [(toList_clauseLine hc).1]
    exact isLineEnd_of_mem_spaced (isWord_numberWords _)
  have hlines := (congrArg lines (toList_join (s :: cs))).trans (lines_terminated hends)
  cases h
  show List.Forall₂ ReadsAs (lines (String.join ((s :: cs).map (· ++ "\n"))).toList) _
  rw [hlines, List.map_cons, hheader, List.forall₂_cons, List.forall₂_map_left_iff, List.forall₂_map_right_iff]
  refine ⟨fun no => ?_, (List.Forall₂.imp ?_ hcs).flip⟩
  · exact (readLine_header (words_spaced (isWord_headerWords _ _))).2 ⟨⟨hvars, hsize⟩, rfl⟩
  · intro c s hc no
    obtain ⟨hs, hshort⟩ := toList_clauseLine hc
    have hne : c ++ [0] ≠ [] := List.append_ne_nil_of_right_ne_nil _ (List.cons_ne_nil _ _)
    show readLine no s.toList = _
    rw [hs]
    exact (readLine_numbers (words_spaced (isWord_numberWords _)) hne).2 ⟨hshort, rfl⟩

theorem tokens_written (d : Document) :
    tokens (.header d.numVars :: d.clauses.map fun c => .literals (c ++ [0])) = d.clauses.flatMap (· ++ [0]) := by
  unfold tokens
  rw [List.flatMap_cons, List.nil_append, List.flatMap_map]

theorem declared?_written (d : Document) :
    declared? (.header d.numVars :: d.clauses.map fun c => .literals (c ++ [0])) = some (d.numVars : Int) := by
  unfold declared?
  rw [List.foldl_cons, List.foldl_map]
  exact List.foldlRecOn (motive := (· = some _)) d.clauses _ rfl fun _ h _ _ => h

theorem max_numVars_maxVar (d : Document) : max (d.numVars : Int) (maxVar d.clauses) = d.numVars :=
  Int.max_eq_left (Int.ofNat_le.2 (maxVar_le_iff.2 fun c hc l hl => (d.inRange c hc l hl).2))

/-- The text of a document is read as the document. -/
theorem parse_render {d : Document} {text : String} (h : render d [] = .ok text) : parse text = .ok d := by
  refine parse_eq_ok (lines_render h) (tokens_written d) ?_
  rw [declared?_written, Option.getD_some]
  exact max_numVars_maxVar d

/-- Whether the numbers that head the text of a document have at most `Text.maxDigits` digits. -/
def Writable (d : Document) : Prop := d.numVars < 10 ^ maxDigits ∧ d.clauses.length < 10 ^ maxDigits

private theorem exists_clauseLine {c : List Int} (h : ∀ l ∈ c, l.natAbs < 10 ^ maxDigits) :
    ∃ s, clauseLine c = .ok s := by
  obtain ⟨ss, hss⟩ := exists_forall₂ (R := fun l s => number l = .ok s) fun l hl => ⟨_, number_of_lt (h l hl)⟩
  exact ⟨_, bind_eq_ok.2 ⟨ss, mapM_eq_ok.2 hss, rfl⟩⟩

theorem exists_render {d : Document} (h : Writable d) : ∃ text, render d [] = .ok text := by
  obtain ⟨cs, hcs⟩ := exists_forall₂ (R := fun c s => clauseLine c = .ok s) fun c hc =>
    exists_clauseLine fun l hl => Nat.lt_of_le_of_lt (d.inRange c hc l hl).2 h.1
  have hv := number_of_lt (n := d.numVars) h.1
  have hn := number_of_lt (n := d.clauses.length) h.2
  exact ⟨_, bind_eq_ok.2 ⟨_, hv, bind_eq_ok.2 ⟨_, hn, bind_eq_ok.2 ⟨cs, mapM_eq_ok.2 hcs, rfl⟩⟩⟩⟩

theorem render_eq_error {d : Document} (h : ¬Writable d) : render d [] = .error .oversizedNumber := by
  unfold render
  by_cases hv : d.numVars < 10 ^ maxDigits
  · have hn : 10 ^ maxDigits ≤ d.clauses.length := Nat.not_lt.1 fun hn => h ⟨hv, hn⟩
    rw [number_of_lt (n := d.numVars) hv, number_of_le (n := d.clauses.length) hn]
    rfl
  · rw [number_of_le (n := d.numVars) (Nat.not_lt.1 hv)]
    rfl

end Clausify.Dimacs
