import Clausify.Proofs.Allocation
import Clausify.Proofs.Universe

/-!
# Sound states

In a sound state the indices in use are pairwise different, and these and all literals of the formula are allocated.
`State.check` passes exactly the sound states (`State.check_eq_ok_iff`).  Soundness carries over from a state to
each later one at the same level (`State.Frame.sound`) and into temporary scopes (`State.Sound.enter`), and the state
at the start of a run is sound (`State.initial_sound`).
-/

namespace Clausify

/-! ### Maps -/

/-- The indices in use are pairwise different and lie from 1 on below `next`. -/
structure VarMap.Sound (m : VarMap Int) (next : Int) : Prop where
  indices_nodup : m.usedIndices.Nodup
  indices_between : ∀ i ∈ m.usedIndices, 0 < i ∧ i < next

private theorem TempRange.nodup_indices (r : TempRange) : r.indices.Nodup :=
  List.nodup_range.map fun i j h => by
    have : r.base + (i : Int) = r.base + j := h
    omega

/-- The indices of a list of scopes in the order of use. -/
theorem VarMap.usedIndices_int (m : VarMap Int) :
    m.usedIndices = m.named.values ++ m.scopes.reverse.flatMap TempRange.indices :=
  congrArg (m.named.values ++ ·) (List.map_id _)

theorem VarMap.IsOf.sound {m : VarMap Int} {vars : List Value} (h : m.IsOf vars) : m.Sound (vars.length + 1) := by
  have e : m.usedIndices = m.named.values := by
    rw [m.usedIndices_int, h.scopes_eq]
    exact List.append_nil _
  refine ⟨e ▸ h.values_nodup, fun i hi => ?_⟩
  have := h.values_between i (e ▸ hi)
  omega

namespace VarMap.Sound

variable {m : VarMap Int} {next : Int}

theorem mono {next' : Int} (h : m.Sound next) (hn : next ≤ next') : m.Sound next' := by
  refine ⟨h.indices_nodup, fun i hi => ?_⟩
  have := h.indices_between i hi
  omega

/-- Fresh indices may be added, since they are above all that are in use. -/
private theorem extend (h : m.Sound next) (hn : 0 < next) (n : Nat) : (m.extend next n).Sound (next + n) := by
  have e : (m.extend next n).usedIndices = m.usedIndices ++ TempRange.indices ⟨next, n⟩ := by
    rw [usedIndices_extend]
    exact congrArg _ (List.map_id _)
  constructor
  · rw [e, List.nodup_append]
    refine ⟨h.indices_nodup, TempRange.nodup_indices _, fun i hi j hj hij => ?_⟩
    have h1 := h.indices_between i hi
    have h2 := TempRange.mem_indices.1 hj
    dsimp only at h2
    omega
  · rw [e]
    intro i hi
    rcases List.mem_append.1 hi with hi | hi
    · have := h.indices_between i hi
      omega
    · have := TempRange.mem_indices.1 hi
      dsimp only at this
      omega

private theorem index_extend {named : Table Int} {r : TempRange} {rs : List TempRange} {v : Value} {i : Int}
    (h : VarMap.scopedIndex named (r :: rs) v = .ok i) :
    (∃ j, v = .temp j ∧ i = r.base + j ∧ i ∈ r.indices) ∨
      ∃ w, v = .outer w ∧ VarMap.scopedIndex named rs w = .ok i := by
  cases v with
  | temp j =>
    simp only [VarMap.scopedIndex] at h
    split at h
    · cases h
      refine .inl ⟨j, rfl, rfl, TempRange.mem_indices.2 ?_⟩
      show r.base ≤ r.base + j ∧ r.base + j < r.base + r.count
      omega
    · cases h
  | outer w => exact .inr ⟨w, rfl, h⟩
  | _ => cases h

end VarMap.Sound

/-! ### States -/

/-- The map of a sound state is sound, and the literals of the formula are nonzero and allocated. -/
structure State.Sound (s : State Int) : Prop where
  varMap_sound : s.varMap.Sound s.nextVar
  nextVar_pos : 0 < s.nextVar
  literals_between : ∀ c ∈ s.clauses, ∀ l ∈ c, l ≠ 0 ∧ (l.natAbs : Int) < s.nextVar

private theorem checkDistinct_eq_ok {seen is : List Int} :
    VarMap.checkDistinct seen is = .ok () ↔ is.Nodup ∧ ∀ i ∈ is, i ∉ seen := by
  induction is generalizing seen with
  | nil => exact ⟨fun _ => ⟨List.nodup_nil, fun i hi => by cases hi⟩, fun _ => rfl⟩
  | cons i is ih =>
    have hany : seen.any (Index.same i) = decide (i ∈ seen) := by
      rw [Bool.eq_iff_iff, List.any_eq_true, decide_eq_true_iff]
      simp only [Index.same_int, decide_eq_true_iff, exists_eq_right']
    unfold VarMap.checkDistinct
    rw [Index.hashable_int, hany]
    by_cases hi : i ∈ seen
    · simp [hi]
    · simp only [hi, decide_false, Bool.not_true, Bool.false_eq_true, if_false, ih, List.nodup_cons, List.mem_cons,
        not_or]
      constructor
      · rintro ⟨hn, h⟩
        refine ⟨⟨fun hm => (h i hm).1 rfl, hn⟩, fun j hj => ?_⟩
        rcases hj with rfl | hj
        · exact hi
        · exact (h j hj).2
      · rintro ⟨⟨hm, hn⟩, h⟩
        refine ⟨hn, fun j hj => ⟨fun e => hm (e ▸ hj), h j (.inr hj)⟩⟩

private theorem checkIndices_eq_ok {s : State Int} :
    s.checkIndices = .ok () ↔ ∀ i ∈ s.varMap.usedIndices, 0 < i ∧ i < s.nextVar := by
  unfold State.checkIndices
  rw [forM_eq_ok]
  refine forall₂_congr fun i _ => ?_
  rw [Index.isBetween_int]
  refine throwIf_eq_ok.trans ?_
  rw [Bool.not_eq_false', decide_eq_true_iff]

private theorem checkLiterals_eq_ok {s : State Int} :
    s.checkLiterals = .ok () ↔ ∀ c ∈ s.clauses, ∀ l ∈ c, l ≠ 0 ∧ (l.natAbs : Int) < s.nextVar := by
  have hstray (l : Int) : s.isStray l = .ok (decide ¬(l ≠ 0 ∧ (l.natAbs : Int) < s.nextVar)) := by
    unfold State.isStray
    rw [Index.isZero_int, Index.reaches_int]
    by_cases h : l = 0
    · simp [h]
    · simp [h]
  have hclause (i : Nat) (c : List Int) : (c.forM fun l => do
      if ← s.isStray l then throw (.literalOutOfRange i (Index.toValue l) s.nextVar)) = Except.ok () ↔
        ∀ l ∈ c, l ≠ 0 ∧ (l.natAbs : Int) < s.nextVar := by
    rw [forM_eq_ok]
    refine forall₂_congr fun l _ => ?_
    rw [hstray]
    refine throwIf_eq_ok.trans ?_
    rw [decide_eq_false_iff_not, not_not]
  unfold State.checkLiterals
  rw [forM_eq_ok]
  constructor
  · intro h c hc
    obtain ⟨i, hi⟩ := List.mem_iff_getElem?.1 hc
    exact (hclause i c).1 (h (c, i) (List.mk_mem_zipIdx_iff_getElem?.2 hi))
  · rintro h ⟨c, i⟩ hc
    exact (hclause i c).2 (h c (List.fst_mem_of_mem_zipIdx hc))

/-- The check passes the sound states. -/
theorem State.check_eq_ok_iff {s : State Int} (h : 0 < s.nextVar) : s.check = .ok () ↔ s.Sound := by
  unfold State.check VarMap.checkInjective
  constructor
  · intro hc
    obtain ⟨⟨⟩, hn, hc⟩ := bind_eq_ok.1 hc
    obtain ⟨⟨⟩, hi, hl⟩ := bind_eq_ok.1 hc
    exact ⟨⟨(checkDistinct_eq_ok.1 hn).1, checkIndices_eq_ok.1 hi⟩, h, checkLiterals_eq_ok.1 hl⟩
  · rintro ⟨⟨hn, hi⟩, -, hl⟩
    have hn := checkDistinct_eq_ok.2 ⟨hn, fun _ _ => List.not_mem_nil⟩
    exact bind_eq_ok.2 ⟨(), hn, bind_eq_ok.2 ⟨(), checkIndices_eq_ok.2 hi, checkLiterals_eq_ok.2 hl⟩⟩

namespace State

/-- A literal that is reached between bounds is nonzero and below them. -/
private theorem Sound.lt_of_reaches {s : State Int} (h : s.Sound) {hi l : Int} (hl : s.varMap.Reaches s.nextVar hi l)
    (hle : s.nextVar ≤ hi) : l ≠ 0 ∧ (l.natAbs : Int) < hi := by
  obtain ⟨i, hl, hu⟩ := hl
  have hpos := h.nextVar_pos
  have : 0 < i ∧ i < hi := by
    rcases hu with hu | ⟨n, h1, h2, e⟩
    · have := h.varMap_sound.indices_between i hu
      omega
    · have e : i = n := e
      omega
  rcases hl with rfl | hl
  · omega
  · have hl : -i = l := Except.ok.inj hl
    omega

private theorem checkAllocated_eq_ok {s : State Int} {c : List Int} :
    s.checkAllocated c = .ok () ↔ ∀ l ∈ c, (l.natAbs : Int) < s.nextVar := by
  unfold checkAllocated
  rw [forM_eq_ok]
  refine forall₂_congr fun l _ => ?_
  rw [Index.reaches_int]
  refine throwIf_eq_ok.trans ?_
  rw [decide_eq_false_iff_not, Int.not_le]

/-- A clause with indices in a sound state is allocated. -/
theorem Sound.addClause_eq {s : State Int} (h : s.Sound) (c : List Literal) :
    s.addClause c = (s.signedClause c).map fun d => { s with clauses := s.clauses ++ [d] } := by
  cases hd : s.signedClause c with
  | error x =>
    unfold addClause
    rw [hd]
    rfl
  | ok d =>
    refine addClause_eq_ok.2 ⟨d, hd, fun _ => checkAllocated_eq_ok.2 fun l hl => ?_, rfl⟩
    exact (h.lt_of_reaches (signedClause_reaches hd _ _ l hl) (Int.le_refl _)).2

theorem Sound.congr {s t : State Int} (h : s.Sound) (hm : t.varMap = s.varMap) (hn : t.nextVar = s.nextVar)
    (hc : t.clauses = s.clauses) : t.Sound := by
  obtain ⟨h1, h2, h3⟩ := h
  rw [← hm, ← hn] at h1
  rw [← hn] at h2
  rw [← hn, ← hc] at h3
  exact ⟨h1, h2, h3⟩

theorem Sound.openContext {s : State Int} (h : s.Sound) (name : String) : (s.openContext name).Sound := by
  obtain ⟨j, e⟩ := s.openContext_eq name
  rw [e]
  exact h.congr rfl rfl rfl

/-- Each later state at the same level is sound. -/
theorem Frame.sound {s t : State Int} (h : s.Frame t) (hs : s.Sound) : t.Sound := by
  refine ⟨?_, Int.lt_of_lt_of_le hs.nextVar_pos h.nextVar_le, ?_⟩
  · rw [h.varMap_eq]
    exact hs.varMap_sound.mono h.nextVar_le
  · obtain ⟨cs, hcs, hl⟩ := h.clauses_eq
    rw [hcs]
    intro c hc l hlc
    rcases List.mem_append.1 hc with hc | hc
    · have := hs.literals_between c hc l hlc
      have := h.nextVar_le
      omega
    · exact hs.lt_of_reaches (hl c hc l hlc) h.nextVar_le

/-- The state inside a temporary scope is sound. -/
theorem Sound.enter {s inner : State Int} {n : Nat} (h : s.Sound)
    (he : (s.takeFresh n).enter s.nextVar n = .ok inner) : inner.Sound := by
  obtain ⟨gs, -, rfl⟩ := enter_eq_ok.1 he
  have ht := (frame_takeFresh s n).sound h
  exact ⟨h.varMap_sound.extend h.nextVar_pos n, ht.nextVar_pos, ht.literals_between⟩

theorem nextVar_initial {m : VarMap Int} {vars : List Value} (h : m.IsOf vars) (ci tc : Bool) (j : Journal) :
    (initial m ci tc j).nextVar = vars.length + 1 := by
  show (m.named.size : Int) + 1 = _
  rw [h.size_eq]

theorem initial_sound {m : VarMap Int} {vars : List Value} (h : m.IsOf vars) (ci tc : Bool) (j : Journal) :
    (initial m ci tc j).Sound := by
  constructor
  · show m.Sound (m.named.size + 1)
    rw [h.size_eq]
    exact h.sound
  · show (0 : Int) < m.named.size + 1
    omega
  · intro c hc
    cases hc

end State

end Clausify
