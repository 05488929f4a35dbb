import Clausify.Document.Statistics
import Clausify.Proofs.Canonical
import Clausify.Proofs.Universe
import Mathlib.Order.Interval.Finset.Nat

/-!
# Occurrences of variables

Literals can be counted in slots, one for each number up to the number of variables.  The variable of a literal is
counted in its own slot, and slot 0 is left out at the end; where there is no literal, as many slots as there are
variables stay at zero (`Document.occurrences`).  If a document can be counted in words, the slots tell of each
variable how often it occurs, whichever way they were made (`Document.occurrences_eq`).  So the slots at zero are the
variables without a literal, and these are the variables that are left when those that occur are taken away
(`Document.numUnused_eq`).

The statistics are the numbers of the document, and the order of clauses and of literals in them changes nothing
(`Document.statistics_counts`).
-/

namespace Clausify

/-! ### Slots -/

namespace Slots

/-- Counts a number in its slot. -/
def countUp (slots : List Nat) (v : Nat) : List Nat :=
  slots.modify v (· + 1)

/-- Counts numbers in slots, enough of them for all numbers and never fewer than `least`. -/
def tally (least : Nat) (vs : List Nat) : List Nat :=
  vs.foldl countUp (List.replicate (vs.max?.elim least fun m => max least (m + 1)) 0)

private theorem getElem?_countUp (slots : List Nat) (v w : Nat) :
    (countUp slots v)[w]? = slots[w]?.map (· + if v == w then 1 else 0) := by
  unfold countUp
  rw [List.getElem?_modify]
  by_cases h : v = w
  · simp [h]
  · simp [h]

private theorem getElem?_foldl_countUp (slots vs : List Nat) (w : Nat) :
    (vs.foldl countUp slots)[w]? = slots[w]?.map (· + vs.count w) := by
  induction vs generalizing slots with
  | nil => simp
  | cons v vs ih =>
    rw [List.foldl_cons, ih, getElem?_countUp, Option.map_map, List.count_cons]
    have hsum : ((· + vs.count w) ∘ (· + if v == w then 1 else 0)) =
        (· + (vs.count w + if v == w then 1 else 0)) := by
      funext n
      rw [Function.comp_apply, Nat.add_assoc, Nat.add_comm (vs.count w)]
    rw [hsum]

/-- No slots are added for numbers that have one. -/
private theorem tally_eq {least : Nat} {vs : List Nat} (h : ∀ v ∈ vs, v < least) :
    tally least vs = (List.range least).map fun v => vs.count v := by
  have hsize : (vs.max?.elim least fun m => max least (m + 1)) = least := by
    cases hmax : vs.max? with
    | none => rfl
    | some m => exact Nat.max_eq_left (h m (List.max?_mem hmax))
  unfold tally
  rw [hsize]
  apply List.ext_getElem?
  intro v
  rw [getElem?_foldl_countUp, List.getElem?_map]
  by_cases hv : v < least
  · simp [hv]
  · simp [hv]

end Slots

namespace Document

variable {d e : Document} {v : Nat}

/-! ### Variables that occur -/

/-- The variables of the literals, in order. -/
def litVars (d : Document) : List Nat :=
  d.clauses.flatten.map Int.natAbs

/-- No clause has the variable, with either sign. -/
def Unused (d : Document) (v : Nat) : Prop := ∀ c ∈ d.clauses, (v : Int) ∉ c ∧ -(v : Int) ∉ c

instance (d : Document) (v : Nat) : Decidable (d.Unused v) := List.decidableBAll _ _

private theorem mem_litVars : v ∈ d.litVars ↔ ∃ c ∈ d.clauses, (v : Int) ∈ c ∨ -(v : Int) ∈ c := by
  unfold litVars
  constructor
  · intro h
    obtain ⟨l, hl, rfl⟩ := List.mem_map.1 h
    obtain ⟨c, hc, hlc⟩ := List.mem_flatten.1 hl
    refine ⟨c, hc, ?_⟩
    rcases Int.natAbs_eq l with habs | habs
    · exact .inl (habs ▸ hlc)
    · exact .inr (habs ▸ hlc)
  · rintro ⟨c, hc, h | h⟩
    · exact List.mem_map.2 ⟨v, List.mem_flatten_of_mem hc h, Int.natAbs_natCast v⟩
    · exact List.mem_map.2 ⟨-v, List.mem_flatten_of_mem hc h, by rw [Int.natAbs_neg, Int.natAbs_natCast]⟩

private theorem unused_iff : d.Unused v ↔ v ∉ d.litVars := by
  rw [mem_litVars]
  unfold Unused
  push Not
  rfl

private theorem range_of_mem_litVars (h : v ∈ d.litVars) : 1 ≤ v ∧ v ≤ d.numVars := by
  obtain ⟨l, hl, rfl⟩ := List.mem_map.1 h
  obtain ⟨c, hc, hlc⟩ := List.mem_flatten.1 hl
  have := d.inRange c hc l hlc
  omega

private theorem natAbs_le_of_mem {l : Int} (h : l ∈ d.clauses.flatten) : l.natAbs ≤ d.numVars :=
  (range_of_mem_litVars (List.mem_map_of_mem h)).2

theorem numUnused_eq (d : Document) :
    d.numVars - d.usedVars.length = {v ∈ Finset.Icc 1 d.numVars | d.Unused v}.card := by
  have hused : {v ∈ Finset.Icc 1 d.numVars | ¬d.Unused v} = d.usedVars.toFinset := by
    ext v
    unfold usedVars
    rw [Finset.mem_filter, unused_iff, not_not, List.mem_toFinset, List.mem_eraseDups, Finset.mem_Icc]
    exact and_iff_right_of_imp range_of_mem_litVars
  have hlength : d.usedVars.toFinset.card = d.usedVars.length := List.toFinset_card_of_nodup (nodup_eraseDups _)
  have hsum := Finset.card_filter_add_card_filter_not (s := Finset.Icc 1 d.numVars) d.Unused
  rw [hused, hlength, Nat.card_Icc] at hsum
  exact Nat.sub_eq_of_eq_add hsum.symm

/-! ### Counting in words -/

/-- The variable of a literal in words of 64 bits, of which the least one has no absolute value. -/
def wordVar (l : Int) : Nat :=
  (Int64.ofInt l).abs.toNatClampNeg

/-- How often each variable occurs, found by counting in slots. -/
def occurrences (d : Document) : List Nat :=
  let vars := d.clauses.flatten.map wordVar
  if vars.isEmpty then List.replicate d.numVars 0 else (Slots.tally (d.numVars + 1) vars).tail

private theorem wordVar_eq {l : Int} (h : l.natAbs < 2 ^ 63) : wordVar l = l.natAbs := by
  have hint : (Int64.ofInt l).toBitVec.toInt = l := Int64.toInt_ofInt_of_le (by omega) (by omega)
  have hmin : (Int64.ofInt l).toBitVec ≠ BitVec.intMin 64 := by
    intro heq
    have hleast : (BitVec.intMin 64).toInt = -2 ^ 63 := by decide
    rw [heq, hleast] at hint
    omega
  have habs : (Int64.ofInt l).abs.toInt = l.natAbs := by
    show (Int64.ofInt l).toBitVec.abs.toInt = _
    rw [BitVec.toInt_abs_eq_natAbs, if_neg hmin, hint]
  unfold wordVar
  rw [← Int64.toNat_toInt, habs, Int.toNat_natCast]

private theorem isWord_of_natAbs_lt {n : Int} (h : n.natAbs < 2 ^ 63) : isWord n = true := by
  unfold isWord
  simp only [Bool.and_eq_true, decide_eq_true_iff]
  omega

/-- The literals of a document need no test of their own, being no greater than its number of variables. -/
private theorem checkCountable_eq_ok_iff : d.checkCountable = .ok () ↔ d.numVars < 2 ^ 60 := by
  unfold checkCountable
  dsimp only
  constructor
  · intro h
    split at h
    · cases h
    split at h
    · cases h
    split at h
    · cases h
    · omega
  · intro h
    have hlits : d.clauses.flatten.all isWord = true := by
      rw [List.all_eq_true]
      intro l hl
      have := natAbs_le_of_mem hl
      exact isWord_of_natAbs_lt (by omega)
    have hsize : isWord (d.numVars + 1) = true := isWord_of_natAbs_lt (by omega)
    rw [hlits, hsize, Bool.or_true, if_neg (by decide), if_neg (by decide), if_neg (by omega)]

private theorem map_wordVar (h : d.checkCountable = .ok ()) : d.clauses.flatten.map wordVar = d.litVars := by
  have hsize := checkCountable_eq_ok_iff.1 h
  refine List.map_congr_left fun l hl => wordVar_eq ?_
  have := natAbs_le_of_mem hl
  omega

/-- Without literals the slots are the same as those that would be left of a count. -/
theorem occurrences_eq (h : d.checkCountable = .ok ()) :
    d.occurrences = (List.range' 1 d.numVars).map fun v => d.litVars.count v := by
  unfold occurrences
  rw [map_wordVar h]
  dsimp only
  by_cases hempty : d.litVars = []
  · simp [hempty]
  · -- of the slots from 0 on, the tail has those from 1 on
    have hslots : ∀ v ∈ d.litVars, v < d.numVars + 1 := fun v hv => Nat.lt_succ_of_le (range_of_mem_litVars hv).2
    rw [if_neg (by rwa [List.isEmpty_iff]), Slots.tally_eq hslots, List.range_eq_range', List.range'_succ]
    rfl

/-- The empty clause takes up no slot, with other clauses and without. -/
example : (⟨4, [[1, -3], [], [-1]], by decide⟩ : Document).occurrences = [2, 0, 1, 0] ∧
    (⟨2, [[], []], by decide⟩ : Document).occurrences = [0, 0] := by decide

private theorem count_occurrences (h : d.checkCountable = .ok ()) :
    d.occurrences.count 0 = {v ∈ Finset.Icc 1 d.numVars | d.Unused v}.card := by
  have hzeros : {v ∈ Finset.Icc 1 d.numVars | d.Unused v} =
      ((List.range' 1 d.numVars).filter fun v => d.litVars.count v == 0).toFinset := by
    rw [List.toFinset_filter, List.toFinset_range'_1_1]
    refine Finset.filter_congr fun v _ => ?_
    rw [unused_iff, beq_iff_eq, List.count_eq_zero]
  rw [occurrences_eq h, List.count_eq_countP, List.countP_map, List.countP_eq_length_filter, hzeros,
    List.toFinset_card_of_nodup ((List.nodup_range' 1).filter _)]
  rfl

end Document

/-! ### The least and the greatest number -/

private theorem isLeast_min? {ns : List Nat} (h : ns ≠ []) : IsLeast {n | n ∈ ns} (ns.min?.getD 0) := by
  obtain ⟨n, hn⟩ := Option.isSome_iff_exists.1 (List.isSome_min?_of_ne_nil h)
  obtain ⟨hmem, hle⟩ := List.min?_eq_some_iff.1 hn
  rw [hn]
  exact ⟨hmem, fun m hm => hle m hm⟩

private theorem isGreatest_max? {ns : List Nat} (h : ns ≠ []) : IsGreatest {n | n ∈ ns} (ns.max?.getD 0) := by
  obtain ⟨n, hn⟩ := Option.isSome_iff_exists.1 (List.isSome_max?_of_ne_nil h)
  obtain ⟨hmem, hle⟩ := List.max?_eq_some_iff.1 hn
  rw [hn]
  exact ⟨hmem, fun m hm => hle m hm⟩

private theorem min?_eq_of_perm {ms ns : List Nat} (h : ms.Perm ns) : ms.min? = ns.min? := by
  ext n
  simp only [List.min?_eq_some_iff, h.mem_iff]

private theorem max?_eq_of_perm {ms ns : List Nat} (h : ms.Perm ns) : ms.max? = ns.max? := by
  ext n
  simp only [List.max?_eq_some_iff, h.mem_iff]

/-! ### Statistics -/

/-- The numbers are those of the document. -/
structure Statistics.Describes (s : Statistics) (d : Document) : Prop where
  unused : s.numUnused = {v ∈ Finset.Icc 1 d.numVars | d.Unused v}.card
  units : s.numUnits = d.clauses.countP fun c => c.length = 1
  empties : s.numEmpty = d.clauses.countP fun c => c.length = 0
  shortest : d.clauses ≠ [] → IsLeast {n | ∃ c ∈ d.clauses, c.length = n} s.minLength
  longest : d.clauses ≠ [] → IsGreatest {n | ∃ c ∈ d.clauses, c.length = n} s.maxLength
  none : d.clauses = [] → s.minLength = 0 ∧ s.maxLength = 0

namespace Document

variable {d e : Document}

private theorem statistics_describes (d : Document) (numNamed : Int) : (d.statistics numNamed).Describes d := by
  have hlengths : {n | ∃ c ∈ d.clauses, c.length = n} = {n | n ∈ d.lengths} := by
    ext n
    exact List.mem_map.symm
  have hcount (n : Nat) : d.lengths.count n = d.clauses.countP fun c => c.length = n := by
    unfold lengths
    rw [List.count_eq_countP, List.countP_map]
    rfl
  have hne (h : d.clauses ≠ []) : d.lengths ≠ [] := fun hmap => h (List.map_eq_nil_iff.1 hmap)
  constructor
  case unused => exact d.numUnused_eq
  case units => exact hcount 1
  case empties => exact hcount 0
  case shortest =>
    intro h
    rw [hlengths]
    exact isLeast_min? (hne h)
  case longest =>
    intro h
    rw [hlengths]
    exact isGreatest_max? (hne h)
  case none =>
    intro h
    simp [statistics, lengths, h]

private theorem checkCountable_eq_of_rearranged (hsize : d.numVars = e.numVars)
    (h : Canonical.Rearranged d.clauses e.clauses) :
    d.checkCountable = e.checkCountable := by
  have hlits := h.flatten_perm
  unfold checkCountable
  rw [hsize, hlits.all_eq, hlits.isEmpty_eq]

private theorem usedVars_perm (h : Canonical.Rearranged d.clauses e.clauses) : d.usedVars.Perm e.usedVars := by
  unfold usedVars
  rw [List.perm_ext_iff_of_nodup (nodup_eraseDups _) (nodup_eraseDups _)]
  intro v
  rw [List.mem_eraseDups, List.mem_eraseDups]
  exact (h.flatten_perm.map Int.natAbs).mem_iff

private theorem statistics_eq_of_rearranged (hsize : d.numVars = e.numVars)
    (h : Canonical.Rearranged d.clauses e.clauses) (numNamed : Int) :
    d.statistics numNamed = e.statistics numNamed := by
  have hlengths : d.lengths.Perm e.lengths := h.lengths_perm
  have hlits := h.flatten_perm
  have hclauses : d.clauses.length = e.clauses.length := by simpa [lengths] using hlengths.length_eq
  have hnone : d.clauses.isEmpty = e.clauses.isEmpty := by simpa [lengths] using hlengths.isEmpty_eq
  unfold statistics
  dsimp only
  rw [hsize, hclauses, hlengths.count_eq, hlengths.count_eq, min?_eq_of_perm hlengths, max?_eq_of_perm hlengths,
    hnone, hlits.length_eq, hlits.isEmpty_eq, hlits.countP_eq, (usedVars_perm h).length_eq]

/-- The statistics of a document are its numbers.  The document can be counted in words exactly if a word for each of
its variables can be addressed, and then as many slots are zero as variables are reported to occur nowhere.  Documents
that differ only in the order of clauses and of literals in clauses have the same statistics. -/
theorem statistics_counts :
    (∀ (d : Document) (numNamed : Int),
      (d.statistics numNamed).Describes d ∧
        (d.checkCountable = .ok () ↔ d.numVars < 2 ^ 60) ∧
        (d.checkCountable = .ok () → (d.statistics numNamed).numUnused = d.occurrences.count 0)) ∧
    ∀ (d e : Document) (numNamed : Int), d.numVars = e.numVars → Canonical.Rearranged d.clauses e.clauses →
      d.checkCountable = e.checkCountable ∧ d.statistics numNamed = e.statistics numNamed := by
  constructor
  · intro d numNamed
    refine ⟨d.statistics_describes numNamed, checkCountable_eq_ok_iff, fun h => ?_⟩
    rw [count_occurrences h]
    exact d.numUnused_eq
  · intro d e numNamed hsize h
    exact ⟨checkCountable_eq_of_rearranged hsize h, statistics_eq_of_rearranged hsize h numNamed⟩

/-- Two variables have no literal, and one clause is empty. -/
theorem statistics_counts_of_unused_variables :
    let d : Document := ⟨5, [[1, -2], [3], [], [-1, 2, 3]], by decide⟩
    let e : Document := ⟨5, [[], [3, -1, 2], [-2, 1], [3]], by decide⟩
    d.numVars = e.numVars ∧ Canonical.Rearranged d.clauses e.clauses ∧ d.statistics 3 = e.statistics 3 ∧
      e.checkCountable = .ok () ∧ e.occurrences.count 0 = 2 ∧ (e.statistics 3).numUnused = 2 ∧
      (e.statistics 3).numUnits = 1 ∧ (e.statistics 3).numEmpty = 1 ∧
      IsLeast {n | ∃ c ∈ e.clauses, c.length = n} 0 ∧ IsGreatest {n | ∃ c ∈ e.clauses, c.length = n} 3 := by
  intro d e
  have h : Canonical.Rearranged d.clauses e.clauses :=
    ⟨[[-2, 1], [3], [], [3, -1, 2]],
      .cons (by decide) (.cons (by decide) (.cons (by decide) (.cons (by decide) .nil))), by decide⟩
  obtain ⟨hdescribes, hiff, hslots⟩ := statistics_counts.1 e 3
  have hcountable := hiff.2 (by decide)
  have hunused : (e.statistics 3).numUnused = 2 := hdescribes.unused.trans (by decide)
  exact ⟨rfl, h, (statistics_counts.2 d e 3 rfl h).2, hcountable, (hslots hcountable).symm.trans hunused, hunused,
    hdescribes.units, hdescribes.empties, hdescribes.shortest (by decide), hdescribes.longest (by decide)⟩

end Document

end Clausify
