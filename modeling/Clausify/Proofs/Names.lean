import Clausify.Expr.Json
import Mathlib.Data.String.Basic

/-!
# Names that are accepted

A name has 1 to 64 characters, each a letter, a digit or an underscore of ASCII (`IsName`).  Reading a variable
accepts every name, and besides the names those with a line feed behind them, if they are not too long with it
(`readVar_accepts_iff`).  Every other text is refused with the fault that it has.
-/

namespace Clausify

/-- A letter, a digit or an underscore of ASCII. -/
def IsNameCharacter (c : Char) : Prop :=
  ('a' ≤ c ∧ c ≤ 'z') ∨ ('A' ≤ c ∧ c ≤ 'Z') ∨ ('0' ≤ c ∧ c ≤ '9') ∨ c = '_'

/-- A name, as the rules say. -/
structure IsName (s : String) : Prop where
  one_le_length : 1 ≤ s.length
  length_le : s.length ≤ 64
  characters : ∀ c ∈ s.toList, IsNameCharacter c

variable {s : String}

private theorem isNameChar_iff {c : Char} : isNameChar c = true ↔ IsNameCharacter c := by
  have hle (a b : Char) : a ≤ b ↔ a.val ≤ b.val := Iff.rfl
  unfold isNameChar Char.isAlphanum Char.isAlpha Char.isUpper Char.isLower Char.isDigit IsNameCharacter
  simp only [Bool.or_eq_true, Bool.and_eq_true, decide_eq_true_iff, hle, or_assoc]
  exact or_left_comm

private theorem not_isNameCharacter_lineFeed : ¬IsNameCharacter '\n' := by
  rw [← isNameChar_iff]
  decide

private theorem IsName.not_append_lineFeed {t : String} : ¬IsName (t ++ "\n") := fun h => by
  refine not_isNameCharacter_lineFeed (h.characters '\n' ?_)
  rw [String.toList_append]
  exact List.mem_append_right _ (List.mem_singleton_self _)

/-- Name characters, or name characters and a line feed. -/
private theorem isNameText_iff : isNameText s = true ↔
    ∃ t : String, t ≠ "" ∧ (∀ c ∈ t.toList, IsNameCharacter c) ∧ (s = t ∨ s = t ++ "\n") := by
  have hbody (t : String) : (!t.toList.isEmpty && t.toList.all isNameChar) = true ↔
      t ≠ "" ∧ ∀ c ∈ t.toList, IsNameCharacter c := by
    simp only [Bool.and_eq_true, Bool.not_eq_true', List.isEmpty_eq_false_iff, List.all_eq_true, isNameChar_iff,
      ne_eq, String.toList_eq_nil_iff]
  have hwith (t : String) : isNameText (t ++ "\n") = true ↔ t ≠ "" ∧ ∀ c ∈ t.toList, IsNameCharacter c := by
    rw [← hbody]
    unfold isNameText
    rw [String.toList_append]
    have hlast : (t.toList ++ "\n".toList).getLast? = some '\n' := List.getLast?_concat
    have hdrop : (t.toList ++ "\n".toList).dropLast = t.toList := List.dropLast_concat
    simp only [hlast, hdrop, if_true]
  have hwithout (h : s.toList.getLast? ≠ some '\n') :
      isNameText s = true ↔ s ≠ "" ∧ ∀ c ∈ s.toList, IsNameCharacter c := by
    rw [← hbody]
    unfold isNameText
    simp only [h, if_false]
  constructor
  · intro h
    -- only a line feed at the very end is left out of the test
    by_cases hlast : s.toList.getLast? = some '\n'
    · obtain ⟨cs, hcs⟩ := List.getLast?_eq_some_iff.1 hlast
      have hs : s = String.ofList cs ++ "\n" := by
        rw [← String.toList_inj, String.toList_append, String.toList_ofList, hcs]
        rfl
      rw [hs, hwith] at h
      exact ⟨_, h.1, h.2, .inr hs⟩
    · obtain ⟨hne, hcs⟩ := (hwithout hlast).1 h
      exact ⟨s, hne, hcs, .inl rfl⟩
  · rintro ⟨t, hne, hcs, rfl | rfl⟩
    · refine (hwithout fun hlast => ?_).2 ⟨hne, hcs⟩
      exact not_isNameCharacter_lineFeed (hcs _ (List.mem_of_getLast? hlast))
    · exact (hwith t).2 ⟨hne, hcs⟩

private theorem nameFault?_eq_none_iff :
    nameFault? s = none ↔ s.length ≤ 64 ∧ ∃ t, IsName t ∧ (s = t ∨ s = t ++ "\n") := by
  have hlength {t : String} (h : s = t ∨ s = t ++ "\n") : t.length ≤ s.length := by
    rcases h with rfl | rfl
    · exact Nat.le_refl _
    · rw [String.length_append]
      exact Nat.le_add_right _ _
  have hpos {t : String} : t ≠ "" ↔ 1 ≤ t.length := by
    rw [Nat.one_le_iff_ne_zero, ne_eq, ne_eq, String.length_eq_zero_iff]
  unfold nameFault?
  constructor
  · intro h
    split at h
    · cases h
    split at h
    · cases h
    rename_i hle
    split at h
    · rename_i htext
      obtain ⟨t, hne, hcs, hs⟩ := isNameText_iff.1 htext
      exact ⟨by omega, t, ⟨hpos.1 hne, by have := hlength hs; omega, hcs⟩, hs⟩
    · cases h
  · rintro ⟨hle, t, ht, hs⟩
    have hne : s ≠ "" := hpos.2 (Nat.le_trans ht.one_le_length (hlength hs))
    have htext : isNameText s = true := isNameText_iff.2 ⟨t, hpos.2 ht.one_le_length, ht.characters, hs⟩
    rw [if_neg (by rwa [String.isEmpty_iff]), if_neg (by omega), if_pos htext]

/-- A name that breaks a rule is refused with that rule, at its place in the variable. -/
private theorem readVar_nameToJson (s : String) : readVar (nameToJson s) =
    match nameFault? s with
    | some r => .error [⟨[.field "name"], .rule r⟩]
    | none => .ok s := by
  have hread : readVar (nameToJson s) = Record.under (.field "name") (Record.checked nameFault? (.ok s)) := rfl
  have hchecked : Record.checked nameFault? (.ok s) =
      match nameFault? s with
      | some r => Record.fault (.rule r)
      | none => .ok s := rfl
  rw [hread, hchecked]
  cases nameFault? s <;> rfl

/-- The variable with a name is accepted exactly if the text is a name, or a name with a line feed behind it that has
at most 64 characters in all.  So the names are the accepted texts that do not end with a line feed.  A text that is
not accepted is refused at the field of the name: for being empty or too long, or else for its characters. -/
theorem readVar_accepts_iff (s : String) :
    (readVar (nameToJson s) = .ok s ↔ s.length ≤ 64 ∧ ∃ t, IsName t ∧ (s = t ∨ s = t ++ "\n")) ∧
      (IsName s ↔ readVar (nameToJson s) = .ok s ∧ ∀ t, s ≠ t ++ "\n") ∧
      (readVar (nameToJson s) = .ok s ∨
        readVar (nameToJson s) = .error [⟨[.field "name"],
          .rule (if s = "" then .emptyName else if 64 < s.length then .longName else .nameCharacters)⟩]) := by
  have haccepts : readVar (nameToJson s) = .ok s ↔ nameFault? s = none := by
    rw [readVar_nameToJson]
    cases nameFault? s <;> simp
  refine ⟨haccepts.trans nameFault?_eq_none_iff, ?_, ?_⟩
  · rw [haccepts, nameFault?_eq_none_iff]
    constructor
    · intro hs
      refine ⟨⟨hs.length_le, s, hs, .inl rfl⟩, ?_⟩
      rintro t rfl
      exact hs.not_append_lineFeed
    · rintro ⟨⟨-, t, ht, hs⟩, hlast⟩
      exact hs.resolve_right (hlast t) ▸ ht
  · rw [readVar_nameToJson]
    unfold nameFault?
    simp only [String.isEmpty_iff]
    split_ifs
    · exact .inr rfl
    · exact .inr rfl
    · exact .inl rfl
    · exact .inr rfl

/-- A name with a line feed behind it is accepted and is no name. -/
theorem readVar_accepts_line_feed : readVar (nameToJson "a\n") = .ok "a\n" ∧ ¬IsName "a\n" :=
  ⟨rfl, IsName.not_append_lineFeed (t := "a")⟩

end Clausify
