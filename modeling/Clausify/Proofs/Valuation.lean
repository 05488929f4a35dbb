import Clausify.Proofs.Soundness

/-!
# Truth values of formulas

A formula is solvable over a range of indices from given truth values if some values on the range complete them to a
solution (`Cnf.Solvable`).  Over two ranges that follow each other, two formulas of which each touches only one of
them are solvable together exactly if each is (`Cnf.solvable_append`): the solutions are merged.
-/

namespace Clausify.Cnf

/-- A signed index is true: its index has its sign as value. -/
def Holds (σ : Int → Bool) (l : Int) : Prop := σ l.natAbs = decide (0 < l)

def Satisfies (σ : Int → Bool) (cs : List (List Int)) : Prop := ∀ c ∈ cs, ∃ l ∈ c, Holds σ l

/-- The truth values agree outside of the indices from `lo` on below `hi`. -/
def AgreeOff (lo hi : Int) (σ τ : Int → Bool) : Prop := ∀ i, i < lo ∨ hi ≤ i → τ i = σ i

/-- Some values for the indices from `lo` on below `hi` satisfy the formula. -/
def Solvable (lo hi : Int) (σ : Int → Bool) (cs : List (List Int)) : Prop := ∃ τ, AgreeOff lo hi σ τ ∧ Satisfies τ cs

/-- All literals belong to indices with a property. -/
def Within (p : Int → Prop) (cs : List (List Int)) : Prop := ∀ c ∈ cs, ∀ l ∈ c, p l.natAbs

/-- The signed index of a value is true if the index has the value. -/
theorem holds_signed {σ : Int → Bool} {i : Int} (hi : 0 < i) (b : Bool) :
    Holds σ (if b then i else -i) ↔ σ i = b := by
  have habs : ((i.natAbs : Nat) : Int) = i := by omega
  unfold Holds
  cases b with
  | true => simp [habs, hi]
  | false =>
    have hneg : ¬i < 0 := by omega
    simp [habs, hneg]

theorem satisfies_append {σ : Int → Bool} {cs ds : List (List Int)} :
    Satisfies σ (cs ++ ds) ↔ Satisfies σ cs ∧ Satisfies σ ds :=
  List.forall_mem_append

theorem satisfies_congr {p : Int → Prop} {σ τ : Int → Bool} {cs : List (List Int)} (hcs : Within p cs)
    (h : ∀ i, p i → σ i = τ i) : Satisfies σ cs ↔ Satisfies τ cs := by
  refine forall₂_congr fun c hc => exists_congr fun l => and_congr_right fun hl => ?_
  unfold Holds
  rw [h _ (hcs c hc l hl)]

theorem AgreeOff.refl (lo hi : Int) (σ : Int → Bool) : AgreeOff lo hi σ σ := fun _ _ => rfl

private theorem AgreeOff.trans {lo mid hi : Int} {σ τ υ : Int → Bool} (h : AgreeOff lo mid σ τ)
    (h' : AgreeOff mid hi τ υ) (hlo : lo ≤ mid) (hhi : mid ≤ hi) : AgreeOff lo hi σ υ := by
  intro i hi
  rw [h' i (by omega), h i (by omega)]

/-- The first values below `mid` and the second from there on. -/
private def merge (mid : Int) (σ τ : Int → Bool) : Int → Bool := fun i => if i < mid then σ i else τ i

private theorem merge_of_lt {mid i : Int} {σ τ : Int → Bool} (h : i < mid) : merge mid σ τ i = σ i := if_pos h

private theorem merge_of_le {mid i : Int} {σ τ : Int → Bool} (h : mid ≤ i) : merge mid σ τ i = τ i :=
  if_neg (Int.not_lt.2 h)

theorem solvable_append {lo mid hi : Int} {σ : Int → Bool} {cs ds : List (List Int)} (hlo : lo ≤ mid) (hhi : mid ≤ hi)
    (hcs : Within (fun i => i < mid) cs) (hds : Within (fun i => i < lo ∨ mid ≤ i) ds) :
    Solvable lo hi σ (cs ++ ds) ↔ Solvable lo mid σ cs ∧ Solvable mid hi σ ds := by
  constructor
  · rintro ⟨τ, hτ, h⟩
    obtain ⟨hc, hd⟩ := satisfies_append.1 h
    refine ⟨⟨merge mid τ σ, fun i hi => ?_, ?_⟩, ⟨merge mid σ τ, fun i hi => ?_, ?_⟩⟩
    · by_cases h : i < mid
      · rw [merge_of_lt h]
        exact hτ i (by omega)
      · exact merge_of_le (by omega)
    · exact (satisfies_congr hcs fun i hi => merge_of_lt hi).2 hc
    · by_cases h : i < mid
      · exact merge_of_lt h
      · rw [merge_of_le (by omega)]
        exact hτ i (by omega)
    · refine (satisfies_congr hds fun i hi => ?_).2 hd
      rcases hi with hi | hi
      · rw [merge_of_lt (by omega), hτ i (by omega)]
      · exact merge_of_le hi
  · rintro ⟨⟨τ, hτ, hc⟩, ⟨υ, hυ, hd⟩⟩
    refine ⟨merge mid τ υ, fun i hi => ?_, satisfies_append.2 ⟨?_, ?_⟩⟩
    · by_cases h : i < mid
      · rw [merge_of_lt h]
        exact hτ i (by omega)
      · rw [merge_of_le (by omega)]
        exact hυ i (by omega)
    · exact (satisfies_congr hcs fun i hi => merge_of_lt hi).2 hc
    · refine (satisfies_congr hds fun i hi => ?_).2 hd
      rcases hi with hi | hi
      · rw [merge_of_lt (by omega), hτ i (by omega), hυ i (by omega)]
      · exact merge_of_le hi

/-- Without a range only the given values are left. -/
theorem solvable_self {n : Int} {σ : Int → Bool} {cs : List (List Int)} : Solvable n n σ cs ↔ Satisfies σ cs := by
  constructor
  · rintro ⟨τ, hτ, h⟩
    have : τ = σ := funext fun i => hτ i (by omega)
    rw [← this]
    exact h
  · intro h
    exact ⟨σ, AgreeOff.refl n n σ, h⟩

/-- Values for the lower part of a range may be chosen first. -/
theorem solvable_iff_exists {lo mid hi : Int} {σ : Int → Bool} {cs : List (List Int)} (hlo : lo ≤ mid)
    (hhi : mid ≤ hi) :
    Solvable lo hi σ cs ↔ ∃ τ, AgreeOff lo mid σ τ ∧ Solvable mid hi τ cs := by
  constructor
  · rintro ⟨τ, hτ, h⟩
    refine ⟨merge mid τ σ, fun i hi => ?_, τ, fun i hi => ?_, h⟩
    · by_cases h : i < mid
      · rw [merge_of_lt h]
        exact hτ i (by omega)
      · exact merge_of_le (by omega)
    · by_cases h : i < mid
      · exact (merge_of_lt h).symm
      · rw [merge_of_le (by omega)]
        exact hτ i (by omega)
  · rintro ⟨τ, hτ, υ, hυ, h⟩
    exact ⟨υ, hτ.trans hυ hlo hhi, h⟩

/-- It is enough to keep the values of the indices below the range that the formula has. -/
theorem solvable_iff_of_within {p : Int → Prop} {lo hi : Int} {σ : Int → Bool} {cs : List (List Int)}
    (hcs : Within (fun i => p i ∨ lo ≤ i ∧ i < hi) cs) (hp : ∀ i, p i → i < lo) :
    Solvable lo hi σ cs ↔ ∃ τ, (∀ i, p i → τ i = σ i) ∧ Satisfies τ cs := by
  constructor
  · rintro ⟨τ, hτ, h⟩
    exact ⟨τ, fun i hi => hτ i (.inl (hp i hi)), h⟩
  · rintro ⟨τ, hτ, h⟩
    refine ⟨fun i => if lo ≤ i ∧ i < hi then τ i else σ i, fun i hi => if_neg (by omega), ?_⟩
    refine (satisfies_congr hcs fun i hi => ?_).2 h
    split
    · rfl
    · rcases hi with hi | hi
      · exact (hτ i hi).symm
      · contradiction

end Clausify.Cnf
