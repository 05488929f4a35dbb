import Clausify.Text.Blank
import Clausify.Text.Integer
import Mathlib.Algebra.Group.Nat.Defs

/-!
# Numerals

The decimal text of an integer is read as that integer, unless it has too many digits (`integer?_toString_eq`).  None
of its characters is a blank.  But more is read than these texts: digits of any script, leading zeros, a plus sign,
and single underscores between digits (`Numeral`, `integer?_eq_some_iff`).
-/

namespace Clausify.Text

/-! ### Digits -/

private theorem isDigit_iff {c : Char} : c.isDigit = true ↔ 48 ≤ c.toNat ∧ c.toNat ≤ 57 := Char.isDigit_iff_toNat

private theorem digitValue?_of_isDigit {c : Char} (h : c.isDigit = true) : digitValue? c = some (c.toNat - 48) := by
  have hc := isDigit_iff.1 h
  have hfirst : (decide (48 ≤ c.toNat) && decide (c.toNat < 48 + 10)) = true := by
    rw [Bool.and_eq_true, decide_eq_true_iff, decide_eq_true_iff]
    omega
  have hfind : digitZeros.find? (fun z => z ≤ c.toNat && c.toNat < z + 10) = some 48 := by
    have hzeros : digitZeros = 48 :: digitZeros.tail := rfl
    rw [hzeros]
    exact List.find?_cons_of_pos hfirst
  unfold digitValue?
  rw [hfind]
  rfl

theorem digits?_of_isDigit {cs : List Char} (hne : cs ≠ []) (h : ∀ c ∈ cs, c.isDigit = true) :
    digits? digitValue? cs = some (cs.map fun c => c.toNat - 48) := by
  fun_induction digits? digitValue? cs with
  | case1 => exact absurd rfl hne
  | case2 c =>
    rw [digitValue?_of_isDigit (h c (List.mem_cons_self ..))]
    rfl
  | case3 c cs ih =>
    have hu := h '_' (List.mem_cons_of_mem _ (List.mem_cons_self ..))
    exact absurd hu (by decide)
  | case4 c cs hcs _ ih =>
    have hrest := ih hcs fun d hd => h d (List.mem_cons_of_mem _ hd)
    rw [digitValue?_of_isDigit (h c (List.mem_cons_self ..)), hrest]
    rfl

private theorem isDigit_of_mem_toDigits {n : Nat} : ∀ c ∈ Nat.toDigits 10 n, c.isDigit = true := fun _ hc =>
  Nat.isDigit_of_mem_toDigits (by decide) (by decide) hc

private theorem ofDigits_toDigits (n : Nat) : ofDigits ((Nat.toDigits 10 n).map fun c => c.toNat - 48) = n := by
  unfold ofDigits
  rw [List.foldl_map]
  exact Nat.ofDigitChars_toDigits (by decide) (by decide)

/-! ### Integers -/

private theorem toList_toString (n : Int) :
    (toString n).toList = if n < 0 then '-' :: Nat.toDigits 10 n.natAbs else Nat.toDigits 10 n.natAbs := by
  cases n with
  | ofNat n =>
    have hn : ¬Int.ofNat n < 0 := Int.not_lt.2 (Int.natCast_nonneg n)
    rw [if_neg hn]
    exact String.toList_ofList
  | negSucc n =>
    rw [if_pos (Int.negSucc_lt_zero n)]
    show ("-" ++ String.ofList (Nat.toDigits 10 (n + 1))).toList = _
    rw [String.toList_append]
    exact congrArg (['-'] ++ ·) String.toList_ofList

private theorem integer?_of_splitSign {cs body : List Char} {negative : Bool} {ds : List Nat}
    (hs : splitSign cs = (negative, body)) (hd : digits? digitValue? body = some ds) :
    integer? cs =
      if ds.length ≤ maxDigits then some (if negative then -(ofDigits ds : Int) else ofDigits ds) else none := by
  unfold integer?
  rw [hs]
  dsimp only
  rw [hd]
  rfl

/-- The text of an integer is read as the integer, unless it has too many digits. -/
theorem integer?_toString_eq (n : Int) :
    integer? (toString n).toList = if (Nat.toDigits 10 n.natAbs).length ≤ maxDigits then some n else none := by
  have hdigits := digits?_of_isDigit (Nat.toDigits_ne_nil (n := n.natAbs) (b := 10)) isDigit_of_mem_toDigits
  rw [toList_toString]
  by_cases hn : n < 0
  · have hsign : splitSign ('-' :: Nat.toDigits 10 n.natAbs) = (true, Nat.toDigits 10 n.natAbs) := rfl
    have hvalue : -(n.natAbs : Int) = n := by omega
    rw [if_pos hn, integer?_of_splitSign hsign hdigits, ofDigits_toDigits, List.length_map, if_pos rfl, hvalue]
  · have hsign : splitSign (Nat.toDigits 10 n.natAbs) = (false, Nat.toDigits 10 n.natAbs) := by
      unfold splitSign
      split
      · rename_i cs hcs
        have := isDigit_of_mem_toDigits (n := n.natAbs) '-' (hcs ▸ List.mem_cons_self ..)
        exact absurd this (by decide)
      · rename_i cs hcs
        have := isDigit_of_mem_toDigits (n := n.natAbs) '+' (hcs ▸ List.mem_cons_self ..)
        exact absurd this (by decide)
      · rfl
    have hvalue : (n.natAbs : Int) = n := by omega
    rw [if_neg hn, integer?_of_splitSign hsign hdigits, ofDigits_toDigits, List.length_map, if_neg Bool.false_ne_true,
      hvalue]

theorem integer?_toString_eq_some {n m : Int} :
    integer? (toString n).toList = some m ↔ n.natAbs < 10 ^ maxDigits ∧ n = m := by
  rw [integer?_toString_eq, Option.ite_none_right_eq_some, Nat.length_toDigits_le_iff (by decide) (by decide),
    Option.some.injEq]

/-- A single digit is few enough. -/
theorem lt_pow_maxDigits {n : Nat} (h : n < 10) : n < 10 ^ maxDigits :=
  Nat.lt_of_lt_of_le h (Nat.le_self_pow (by decide) 10)

/-- The characters of the text of an integer. -/
theorem mem_toString {n : Int} {c : Char} (h : c ∈ (toString n).toList) : c = '-' ∨ c.isDigit = true := by
  rw [toList_toString] at h
  split at h
  · rcases List.mem_cons.1 h with rfl | h
    · exact .inl rfl
    · exact .inr (isDigit_of_mem_toDigits c h)
  · exact .inr (isDigit_of_mem_toDigits c h)

theorem toString_ne_nil (n : Int) : (toString n).toList ≠ [] := by
  rw [toList_toString]
  split
  · exact List.cons_ne_nil _ _
  · exact Nat.toDigits_ne_nil

/-- Different integers have different texts. -/
theorem eq_of_toString {m n : Int} (h : (toString m).toList = (toString n).toList) : m = n := by
  have hdigits {a b : Nat} (h : Nat.toDigits 10 a = Nat.toDigits 10 b) : a = b := by
    rw [← ofDigits_toDigits a, h, ofDigits_toDigits]
  have hminus {a : Nat} {cs : List Char} (h : '-' :: cs = Nat.toDigits 10 a) : False :=
    absurd (isDigit_of_mem_toDigits '-' (h ▸ List.mem_cons_self ..)) (by decide)
  rw [toList_toString, toList_toString] at h
  by_cases hm : m < 0 <;> by_cases hn : n < 0
  · rw [if_pos hm, if_pos hn] at h
    have := hdigits (List.cons.inj h).2
    omega
  · rw [if_pos hm, if_neg hn] at h
    exact (hminus h).elim
  · rw [if_neg hm, if_pos hn] at h
    exact (hminus h.symm).elim
  · rw [if_neg hm, if_neg hn] at h
    have := hdigits h
    omega

/-- A numeral has no blanks. -/
theorem isBlank_of_mem_toString {n : Int} {c : Char} (h : c ∈ (toString n).toList) : isBlank c = false := by
  rcases mem_toString h with rfl | hc
  · decide
  · have hc := isDigit_iff.1 hc
    unfold isBlank inRanges blankRanges
    simp only [List.any_cons, List.any_nil, Bool.or_false, Bool.or_eq_false_iff, Bool.and_eq_false_iff,
      decide_eq_false_iff_not]
    omega

/-! ### Numerals that are read -/

/-- The digits of the text, in order, have these values. Single underscores may stand between them. -/
inductive Digits : List Char → List Nat → Prop
  | last {c : Char} {d : Nat} (hc : digitValue? c = some d) : Digits [c] [d]
  | digit {c : Char} {cs : List Char} {d : Nat} {ds : List Nat} (hc : digitValue? c = some d) (h : Digits cs ds) :
      Digits (c :: cs) (d :: ds)
  | underscore {c : Char} {cs : List Char} {d : Nat} {ds : List Nat} (hc : digitValue? c = some d)
      (h : Digits cs ds) :
      Digits (c :: '_' :: cs) (d :: ds)

/-- The text is a numeral of the integer: a sign or none, and digits of any script, not too many of them. -/
inductive Numeral : List Char → Int → Prop
  | unsigned {cs : List Char} {ds : List Nat} (h : Digits cs ds) (hlength : ds.length ≤ maxDigits) :
      Numeral cs (ofDigits ds)
  | plus {cs : List Char} {ds : List Nat} (h : Digits cs ds) (hlength : ds.length ≤ maxDigits) :
      Numeral ('+' :: cs) (ofDigits ds)
  | minus {cs : List Char} {ds : List Nat} (h : Digits cs ds) (hlength : ds.length ≤ maxDigits) :
      Numeral ('-' :: cs) (-(ofDigits ds : Int))

variable {w cs : List Char} {ds : List Nat} {n : Int}

theorem Digits.exists_cons (h : Digits cs ds) : ∃ c d rest, cs = c :: rest ∧ digitValue? c = some d := by
  cases h with
  | last hc => exact ⟨_, _, _, rfl, hc⟩
  | digit hc _ => exact ⟨_, _, _, rfl, hc⟩
  | underscore hc _ => exact ⟨_, _, _, rfl, hc⟩

theorem Numeral.exists_cons (h : Numeral w n) : ∃ c cs, w = c :: cs := by
  cases h with
  | unsigned h _ =>
    obtain ⟨c, _, cs, rfl, -⟩ := h.exists_cons
    exact ⟨c, cs, rfl⟩
  | plus _ _ => exact ⟨_, _, rfl⟩
  | minus _ _ => exact ⟨_, _, rfl⟩

theorem digits?_eq_some_iff : digits? digitValue? cs = some ds ↔ Digits cs ds := by
  constructor
  · intro h
    fun_induction digits? digitValue? cs generalizing ds with
    | case1 => cases h
    | case2 c =>
      obtain ⟨d, hd, rfl⟩ := Option.map_eq_some_iff.1 h
      exact .last hd
    | case3 c cs ih =>
      obtain ⟨d, hd, h⟩ := Option.bind_eq_some_iff.1 h
      obtain ⟨es, hes, h⟩ := Option.bind_eq_some_iff.1 h
      cases h
      exact .underscore hd (ih hes)
    | case4 c cs _ _ ih =>
      obtain ⟨d, hd, h⟩ := Option.bind_eq_some_iff.1 h
      obtain ⟨es, hes, h⟩ := Option.bind_eq_some_iff.1 h
      cases h
      exact .digit hd (ih hes)
  · intro h
    induction h with
    | last hc => simp [digits?, hc]
    | underscore hc _ ih => simp [digits?, hc, ih]
    | @digit c cs d ds hc h ih =>
      -- An underscore has no value, so the digit that comes next is none.
      obtain ⟨e, x, rest, rfl, he⟩ := h.exists_cons
      have hne : e ≠ '_' := by
        rintro rfl
        have hnone : digitValue? '_' = none := by decide
        rw [hnone] at he
        cases he
      rw [digits?, hc, ih]
      · rfl
      · simp
      · rintro _ hcons
        exact hne (List.cons.inj hcons).1

/-- Exactly the numerals are read as integers. -/
theorem integer?_eq_some_iff : integer? w = some n ↔ Numeral w n := by
  constructor
  · intro h
    obtain ⟨ds, hds, h⟩ := Option.bind_eq_some_iff.1 h
    rw [digits?_eq_some_iff] at hds
    by_cases hlength : ds.length ≤ maxDigits
    · rw [if_pos hlength] at h
      cases h
      split at hds
      · exact .minus hds hlength
      · exact .plus hds hlength
      · exact .unsigned hds hlength
    · rw [if_neg hlength] at h
      cases h
  · intro h
    cases h with
    | @unsigned _ ds h hlength =>
      obtain ⟨c, d, rest, rfl, hc⟩ := h.exists_cons
      have hsign : splitSign (c :: rest) = (false, c :: rest) := by
        unfold splitSign
        split
        · rename_i heq
          cases heq
          have hnone : digitValue? '-' = none := by decide
          rw [hnone] at hc
          cases hc
        · rename_i heq
          cases heq
          have hnone : digitValue? '+' = none := by decide
          rw [hnone] at hc
          cases hc
        · rfl
      rw [integer?_of_splitSign hsign (digits?_eq_some_iff.2 h), if_pos hlength, if_neg Bool.false_ne_true]
    | @plus cs ds h hlength =>
      have hsign : splitSign ('+' :: cs) = (false, cs) := rfl
      rw [integer?_of_splitSign hsign (digits?_eq_some_iff.2 h), if_pos hlength, if_neg Bool.false_ne_true]
    | @minus cs ds h hlength =>
      have hsign : splitSign ('-' :: cs) = (true, cs) := rfl
      rw [integer?_of_splitSign hsign (digits?_eq_some_iff.2 h), if_pos hlength, if_pos rfl]

end Clausify.Text
