import Clausify.Proofs.Parsing

/-!
# Accepted texts

The language of the reader.  What an accepted line has on it is said by `Denotes`, without a word of how it is read
(`readLine_eq_ok_iff_denotes`).  A text is accepted if its lines are and the last number on them is zero
(`parse_accepts_iff_denotes`).

The format of the files is stricter (`InFormat`): a header starts with the word `p` alone, its numbers have no sign,
and the digits are those of ASCII without underscores.  Lines of the format are accepted unless a word on them is too
long (`exists_denotes_of_inFormat`), but so are others (`parse_accepts_outside_format`).
-/

namespace Clausify.Dimacs

open Text

variable {raw l : List Char} {x : Line} {ns : List Int}

/-! ### Accepted lines -/

/-- What stands on an accepted line, and what the line contributes. -/
inductive Denotes (l : List Char) : Line → Prop
  | blank (h : words l = []) : Denotes l .nothing
  | skipped {c : Char} {w : List Char} {ws : List (List Char)} (hc : c = 'c' ∨ c = '%')
      (h : words l = (c :: w) :: ws) :
      Denotes l .nothing
  /-- Only the first character of the first word is looked at. -/
  | header {p v n : List Char} {a b : Int} (h : words l = [('p' :: p), ['c', 'n', 'f'], v, n]) (hv : Numeral v a)
      (hn : Numeral n b) : Denotes l (.header a)
  | numbers {ns : List Int} (hne : words l ≠ []) (h : List.Forall₂ Numeral (words l) ns) : Denotes l (.literals ns)

/-- No numeral starts like a header, a comment or an end mark. -/
private theorem ne_of_numeral {c : Char} {w : List Char} {n : Int} (h : Numeral (c :: w) n) :
    c ≠ 'c' ∧ c ≠ '%' ∧ c ≠ 'p' := by
  have hvalue {d : Char} {cs : List Char} {ds : List Nat} (h : Digits (d :: cs) ds) : digitValue? d ≠ none := by
    obtain ⟨e, x, rest, heq, he⟩ := h.exists_cons
    cases heq
    simp [he]
  have hc : c = '+' ∨ c = '-' ∨ digitValue? c ≠ none := by
    cases h with
    | unsigned h _ => exact .inr (.inr (hvalue h))
    | plus _ _ => exact .inl rfl
    | minus _ _ => exact .inr (.inl rfl)
  refine ⟨?_, ?_, ?_⟩ <;>
  · rintro rfl
    revert hc
    decide

/-- Exactly these lines are accepted, whatever their number is. -/
theorem readLine_eq_ok_iff_denotes {no : Nat} : readLine no raw = .ok x ↔ Denotes raw x := by
  constructor
  · intro h
    cases htrim : trim raw with
    | nil =>
      have hwords : words raw = [] := by
        rw [← words_trim, htrim]
        rfl
      rw [readLine_blank hwords] at h
      cases h
      exact .blank hwords
    | cons c cs =>
      obtain ⟨w, ws, hwords⟩ := exists_words_cons (isBlank_of_trim_eq htrim) cs
      rw [← htrim, words_trim] at hwords
      by_cases hskip : c = 'c' ∨ c = '%'
      · rw [readLine_skipped hskip hwords] at h
        cases h
        exact .skipped hskip hwords
      rw [not_or] at hskip
      by_cases hp : c = 'p'
      · subst hp
        obtain ⟨a, ha, rfl⟩ := (readLine_of_header hwords).1 h
        obtain ⟨p, v, n, b, hfour, hv, hn⟩ := header?_eq_some_iff.1 ha
        cases hwords.symm.trans hfour
        exact .header hfour (integer?_eq_some_iff.1 hv) (integer?_eq_some_iff.1 hn)
      · obtain ⟨ns, hns, rfl⟩ := (readLine_eq_ok_iff hwords ⟨hskip.1, hskip.2, hp⟩).1 h
        exact .numbers (by simp [hwords]) (hns.imp fun _ _ => integer?_eq_some_iff.1)
  · intro h
    cases h with
    | blank hwords => exact readLine_blank hwords no
    | skipped hc hwords => exact readLine_skipped hc hwords no
    | header hwords hv hn =>
      have hheader := header?_eq_some_iff.2
        ⟨_, _, _, _, hwords, integer?_eq_some_iff.2 hv, integer?_eq_some_iff.2 hn⟩
      exact (readLine_of_header hwords).2 ⟨_, hheader, rfl⟩
    | numbers hne hns =>
      obtain ⟨w, ws, hwords⟩ := List.exists_cons_of_ne_nil hne
      have hread := hns.imp fun _ _ => integer?_eq_some_iff.2
      rw [hwords] at hns
      obtain ⟨n, ns, hw, -, rfl⟩ := List.forall₂_cons_left_iff.1 hns
      obtain ⟨c, cs, rfl⟩ := hw.exists_cons
      exact (readLine_eq_ok_iff hwords (ne_of_numeral hw)).2 ⟨_, hread, rfl⟩

private theorem says_iff_denotes {ls : List (List Char)} {v? : Option Int} : Says ls ns v? ↔
    ∃ xs, List.Forall₂ Denotes ls xs ∧ tokens xs = ns ∧ declared? xs = v? := by
  have hreads : ReadsAs = Denotes := by
    funext l x
    exact propext ⟨fun h => readLine_eq_ok_iff_denotes.1 (h 0), fun h _ => readLine_eq_ok_iff_denotes.2 h⟩
  unfold Says
  rw [hreads]

/-! ### Accepted texts -/

/-- No numbers are left behind the last zero if the last number is a zero, or there is none. -/
private theorem splitClauses_rest_eq_nil_iff : (splitClauses ns).2 = [] ↔ ns.getLastD 0 = 0 := by
  have hall := flatMap_splitClauses ns
  constructor
  · intro h
    rw [h, List.append_nil] at hall
    obtain hnil | ⟨cs, c, hcs⟩ := (splitClauses ns).1.eq_nil_or_concat
    · rw [hnil] at hall
      rw [← hall]
      rfl
    · rw [hcs] at hall
      rw [← hall]
      simp
  · intro h
    obtain hnil | ⟨ms, m, hms⟩ := (splitClauses ns).2.eq_nil_or_concat
    · exact hnil
    · have hm : m ≠ 0 := (ne_zero_of_mem_splitClauses ns).2 m (by simp [hms])
      rw [hms] at hall
      rw [← hall] at h
      simp at h
      exact absurd h hm

/-- The texts that are accepted, and the document as which each of them is read. -/
theorem parse_accepts_iff_denotes (text : String) :
    ((∃ d, parse text = .ok d) ↔ ∃ xs, List.Forall₂ Denotes (lines text.toList) xs ∧ (tokens xs).getLastD 0 = 0) ∧
    ∀ d, parse text = .ok d ↔ ∃ xs, List.Forall₂ Denotes (lines text.toList) xs ∧
      tokens xs = d.clauses.flatMap (· ++ [0]) ∧
      (d.numVars : Int) = max ((declared? xs).getD 0) (maxVar d.clauses) := by
  refine ⟨⟨?_, ?_⟩, fun d => ?_⟩
  · rintro ⟨d, hd⟩
    obtain ⟨v?, hsays, -⟩ := parse_eq_ok_iff.1 hd
    obtain ⟨xs, hxs, htokens, -⟩ := says_iff_denotes.1 hsays
    have hsplit := splitClauses_flatMap fun c hc l hl => (d.inRange c hc l hl).1
    refine ⟨xs, hxs, ?_⟩
    rw [← splitClauses_rest_eq_nil_iff, htokens, hsplit]
  · rintro ⟨xs, hxs, hlast⟩
    obtain ⟨d, hd, -⟩ := exists_parse (says_iff_denotes.2 ⟨xs, hxs, rfl, rfl⟩) (splitClauses_rest_eq_nil_iff.2 hlast)
    exact ⟨d, hd⟩
  · rw [parse_eq_ok_iff]
    constructor
    · rintro ⟨v?, hsays, hvars⟩
      obtain ⟨xs, hxs, htokens, rfl⟩ := says_iff_denotes.1 hsays
      exact ⟨xs, hxs, htokens, hvars⟩
    · rintro ⟨xs, hxs, htokens, hvars⟩
      exact ⟨_, says_iff_denotes.2 ⟨xs, hxs, htokens, rfl⟩, hvars⟩

/-! ### The format -/

/-- ASCII digits, at least one. -/
def IsCount (w : List Char) : Prop := w ≠ [] ∧ ∀ c ∈ w, c.isDigit = true

/-- The words are those of a line of the format. -/
inductive InFormat : List (List Char) → Prop
  | blank : InFormat []
  | skipped {c : Char} {w : List Char} {ws : List (List Char)} (hc : c = 'c' ∨ c = '%') : InFormat ((c :: w) :: ws)
  | header {v n : List Char} (hv : IsCount v) (hn : IsCount n) : InFormat [['p'], ['c', 'n', 'f'], v, n]
  | numbers {ws : List (List Char)} (h : ∀ w ∈ ws, IsCount (splitSign w).2) : InFormat ws

private theorem exists_numeral {w : List Char} (h : IsCount (splitSign w).2) (hlength : w.length ≤ maxDigits) :
    ∃ n, Numeral w n := by
  have hdigits {cs : List Char} (h : IsCount cs) (hcs : cs.length ≤ maxDigits) :
      ∃ ds, Digits cs ds ∧ ds.length ≤ maxDigits :=
    ⟨_, digits?_eq_some_iff.1 (digits?_of_isDigit h.1 h.2), by simpa using hcs⟩
  unfold splitSign at h
  split at h
  · obtain ⟨ds, hds, hshort⟩ := hdigits h (Nat.le_of_succ_le hlength)
    exact ⟨_, .minus hds hshort⟩
  · obtain ⟨ds, hds, hshort⟩ := hdigits h (Nat.le_of_succ_le hlength)
    exact ⟨_, .plus hds hshort⟩
  · obtain ⟨ds, hds, hshort⟩ := hdigits h hlength
    exact ⟨_, .unsigned hds hshort⟩

private theorem IsCount.splitSign_eq {w : List Char} (h : IsCount w) : splitSign w = (false, w) := by
  unfold splitSign
  split
  · have := h.2 '-' (by simp)
    contradiction
  · have := h.2 '+' (by simp)
    contradiction
  · rfl

/-- Lines of the format are accepted unless a word on them is too long. -/
theorem exists_denotes_of_inFormat (h : InFormat (words l)) (hlength : ∀ w ∈ words l, w.length ≤ maxDigits) :
    ∃ x, Denotes l x := by
  have hnumeral {w : List Char} (hw : IsCount w) (hmem : w ∈ words l) : ∃ n, Numeral w n :=
    exists_numeral (by rwa [hw.splitSign_eq]) (hlength w hmem)
  generalize hwords : words l = ws at h
  cases h with
  | blank => exact ⟨_, .blank hwords⟩
  | skipped hc => exact ⟨_, .skipped hc hwords⟩
  | header hv hn =>
    obtain ⟨a, ha⟩ := hnumeral hv (by simp [hwords])
    obtain ⟨b, hb⟩ := hnumeral hn (by simp [hwords])
    exact ⟨_, .header hwords ha hb⟩
  | numbers h =>
    subst hwords
    obtain ⟨ns, hns⟩ := exists_forall₂ (R := Numeral) fun w hw => exists_numeral (h w hw) (hlength w hw)
    by_cases hne : words l = []
    · exact ⟨_, .blank hne⟩
    · exact ⟨_, .numbers hne hns⟩

/-- A header may start with any word that starts with its letter, and have negative numbers.  A number may have
underscores between its digits. -/
theorem parse_accepts_outside_format :
    (∃ d, parse "problem cnf 2 1\n1 0\n" = .ok d ∧ ∃ l ∈ lines "problem cnf 2 1\n1 0\n".toList, ¬InFormat (words l)) ∧
    (∃ d, parse "p cnf -1 0\n" = .ok d ∧ ∃ l ∈ lines "p cnf -1 0\n".toList, ¬InFormat (words l)) ∧
    ∃ d, parse "1_0 0\n" = .ok d ∧ d.clauses = [[10]] ∧ ∃ l ∈ lines "1_0 0\n".toList, ¬InFormat (words l) := by
  refine ⟨⟨_, rfl, _, List.mem_cons_self .., fun h => ?_⟩, ⟨_, rfl, _, List.mem_cons_self .., fun h => ?_⟩,
    _, rfl, rfl, _, List.mem_cons_self .., fun h => ?_⟩
  · change InFormat [['p', 'r', 'o', 'b', 'l', 'e', 'm'], ['c', 'n', 'f'], ['2'], ['1']] at h
    cases h with
    | skipped hc => revert hc; decide
    | numbers h => exact absurd ((h _ (List.mem_cons_self ..)).2 'p' (List.mem_cons_self ..)) (by decide)
  · change InFormat [['p'], ['c', 'n', 'f'], ['-', '1'], ['0']] at h
    cases h with
    | skipped hc => revert hc; decide
    | header hv _ => exact absurd (hv.2 '-' (List.mem_cons_self ..)) (by decide)
    | numbers h => exact absurd ((h _ (List.mem_cons_self ..)).2 'p' (List.mem_cons_self ..)) (by decide)
  · change InFormat [['1', '_', '0'], ['0']] at h
    cases h with
    | skipped hc => revert hc; decide
    | numbers h => exact absurd ((h _ (List.mem_cons_self ..)).2 '_' (by decide)) (by decide)

end Clausify.Dimacs
