import Clausify.Proofs.Dimacs
import Clausify.Proofs.Program
import Clausify.Proofs.Runs
import Clausify.Result.Basic

/-!
# Results that passed the check

The steps of a client may do anything to the state.  What counts is the state at the end: if it passes the check and
no scope is open, the result is intact (`State.Sound.intact`), and an intact result is a document
(`Result.Intact.toDocument`).  So a run that checks the invariants returns nothing else (`Encoder.run_intact`).
-/

namespace Clausify

variable {α : Type}

/-! ### Results -/

namespace Result

/-- Different variables of a universe of `n` variables have different indices, and all indices, those of the variables
and those of the formula, are among the ones from 1 to the number of variables. -/
structure Intact (r : Result Int α) (n : Nat) : Prop where
  values_nodup : r.varMap.values.Nodup
  values_between : ∀ i ∈ r.varMap.values, 0 < i ∧ i ≤ r.numVars
  le_numVars : (n : Int) ≤ r.numVars
  literals_between : ∀ c ∈ r.clauses, ∀ l ∈ c, l ≠ 0 ∧ (l.natAbs : Int) ≤ r.numVars

theorem Intact.toDocument {r : Result Int α} {n : Nat} (h : r.Intact n) :
    ∃ d, r.toDocument = .ok d ∧ (d.numVars : Int) = r.numVars ∧ d.clauses = r.clauses := by
  have hsize : (r.numVars.toNat : Int) = r.numVars :=
    Int.toNat_of_nonneg (Int.le_trans (Int.natCast_nonneg n) h.le_numVars)
  have hrange : ∀ c ∈ r.clauses, ∀ l ∈ c, l ≠ 0 ∧ l.natAbs ≤ r.numVars.toNat := by
    intro c hc l hl
    have := h.literals_between c hc l hl
    omega
  let d : Document := ⟨r.numVars.toNat, r.clauses, hrange⟩
  refine ⟨d, ?_, hsize, rfl⟩
  have hread : Document.ofValues (.int d.numVars) (d.clauses.map fun c => c.map .int) = .ok d := d.ofValues_eq_ok
  rw [hsize] at hread
  exact hread

end Result

/-! ### Final states -/

private theorem State.checkFinished_eq_ok {s : State Int} (h : s.checkFinished true = .ok ()) :
    s.check = .ok () ∧ s.assumptions = [] ∧ s.contexts = [] := by
  unfold checkFinished at h
  rw [if_pos rfl] at h
  obtain ⟨⟨⟩, hcheck, hopen⟩ := bind_eq_ok.1 h
  have hopen := throwIf_eq_ok.1 hopen
  rw [Bool.not_eq_false', Bool.and_eq_true, List.isEmpty_iff, List.isEmpty_iff] at hopen
  exact ⟨hcheck, hopen⟩

theorem State.Sound.intact {s : State Int} (h : s.Sound) {n : Nat} (hn : (n : Int) < s.nextVar) (a : α) :
    Result.Intact ⟨a, s.clauses, s.varMap.named, s.nextVar - 1⟩ n where
  values_nodup := by
    have hused := h.varMap_sound.indices_nodup
    rw [s.varMap.usedIndices_int] at hused
    exact (List.nodup_append.1 hused).1
  values_between i hi := by
    have hused : i ∈ s.varMap.usedIndices := by
      rw [s.varMap.usedIndices_int]
      exact List.mem_append_left _ hi
    have := h.varMap_sound.indices_between i hused
    dsimp only
    omega
  le_numVars := Int.le_sub_one_of_lt hn
  literals_between c hc l hl := by
    obtain ⟨hne, hlt⟩ := h.literals_between c hc l hl
    exact ⟨hne, Int.le_sub_one_of_lt hlt⟩

/-! ### Runs -/

namespace Encoder

/-- A client may take any number of indices without using them. -/
private theorem run_of_moved_counter {vars : List Value} {embedding : Option (Table Value)} {m : VarMap Int}
    (hm : VarMap.ofUniverse vars embedding = .ok m) {n : Nat} (hn : vars.length ≤ n) (config : Config) (j : Journal) :
    ∃ j', run vars (.encoder (.modify fun s : State Int => { s with nextVar := n + 1 })) embedding config j =
      .ok ⟨(), [], m.named, n⟩ j' := by
  have hof := VarMap.ofUniverse_spec hm
  let s : State Int := .initial m config.checkInvariants config.traceContexts j
  let t : State Int := { s with nextVar := n + 1 }
  have hsound : t.Sound := by
    refine ⟨hof.sound.mono ?_, ?_, fun c hc => absurd hc List.not_mem_nil⟩
    · show (vars.length + 1 : Int) ≤ n + 1
      omega
    · show (0 : Int) < n + 1
      omega
  have hstep : (modify fun s : State Int => { s with nextVar := n + 1 }).runOn s = .ok () t := by
    refine runOn_eq_ok_iff.2 ⟨rfl, ?_⟩
    have hnext : s.nextVar = vars.length + 1 := State.nextVar_initial hof _ _ _
    show s.nextVar ≤ n + 1
    omega
  have hfin : t.checkFinished s.checkInvariants = .ok () := by
    rw [hsound.checkFinished_eq]
    rfl
  have hlast : (n : Int) + 1 - 1 = n := by omega
  refine ⟨_, run_eq_ok.2 ⟨m, hm, runFrom_eq_ok.2 ⟨t, hstep, hfin, ?_, rfl⟩⟩⟩
  show (⟨(), [], m.named, n⟩ : Result Int Unit) = ⟨(), [], m.named, n + 1 - 1⟩
  rw [hlast]

/-- A run with the check on returns only intact results, without open scopes, and as a document that is read from its
text again.  The text is refused only if it has a number with too many digits to be written. -/
theorem run_intact {e : Encoder Int α} {vars : List Value} {embedding : Option (Table Value)} {config : Config}
    {j j' : Journal} {r : Result Int α} (hc : config.checkInvariants = true)
    (h : run vars (.encoder e) embedding config j = .ok r j') :
    r.Intact vars.length ∧
      (∃ m t, VarMap.ofUniverse vars embedding = .ok m ∧
        e.runOn (.initial m true config.traceContexts j) = .ok r.value t ∧ t.assumptions = [] ∧ t.contexts = []) ∧
      ∃ d, r.toDocument = .ok d ∧ (d.numVars : Int) = r.numVars ∧ d.clauses = r.clauses ∧
        (Dimacs.Writable d → ∃ text, Dimacs.render d [] = .ok text ∧ Dimacs.parse text = .ok d) ∧
        (¬Dimacs.Writable d → Dimacs.render d [] = .error .oversizedNumber) := by
  obtain ⟨m, hm, hr⟩ := run_eq_ok.1 h
  obtain ⟨t, ht, hfin, hres, -⟩ := runFrom_eq_ok.1 hr
  rw [hc] at ht hfin
  obtain ⟨hcheck, hopen⟩ := State.checkFinished_eq_ok hfin
  have hle := (runOn_eq_ok_iff.1 ht).2
  rw [State.nextVar_initial (VarMap.ofUniverse_spec hm)] at hle
  have hsound : t.Sound := (State.check_eq_ok_iff (by omega)).1 hcheck
  have hintact : r.Intact vars.length := by
    rw [hres]
    exact hsound.intact (Int.lt_of_add_one_le hle) r.value
  obtain ⟨d, hd, hvars, hclauses⟩ := hintact.toDocument
  refine ⟨hintact, ⟨m, t, hm, ht, hopen⟩, d, hd, hvars, hclauses, fun hw => ?_, Dimacs.render_eq_error⟩
  obtain ⟨text, htext⟩ := Dimacs.exists_render hw
  exact ⟨text, htext, Dimacs.parse_render htext⟩

/-- A client adds a clause of an index that is not allocated, catches a failure that leaves a context open, and then
moves the counter, closes the context and replaces the map. -/
theorem run_intact_of_compensation :
    let stray : Encoder Int Unit := .modify fun s => { s with clauses := s.clauses ++ [[12, -3], []] }
    let failing : Encoder Int Unit := .context "c" (.require [.named (.str "z") true])
    let named : Table Int := (Table.empty.insert (.str "a") 12).insert (.str "b") 3
    let amend : Encoder Int Unit := .modify fun s =>
      { s with nextVar := s.nextVar + 10, contexts := [], varMap := .ofTable named }
    ∃ (r : Result Int Unit) (j : Journal) (d : Document) (text : String),
      run [.str "a", .str "b"] (.encoder (stray.andThen (failing.attempt.andThen amend))) none {} .empty = .ok r j ∧
        r.varMap.values = [12, 3] ∧ r.clauses = [[12, -3], []] ∧ r.numVars = 12 ∧ r.Intact 2 ∧
        r.toDocument = .ok d ∧ d.clauses = r.clauses ∧
        Dimacs.render d [] = .ok text ∧ Dimacs.parse text = .ok d := by
  intro stray failing named amend
  obtain ⟨r, j, hrun, hvalues, hclauses, hvars⟩ : ∃ r j,
      run [.str "a", .str "b"] (.encoder (stray.andThen (failing.attempt.andThen amend))) none {} .empty = .ok r j ∧
        r.varMap.values = [12, 3] ∧ r.clauses = [[12, -3], []] ∧ r.numVars = 12 := ⟨_, _, rfl, rfl, rfl, rfl⟩
  obtain ⟨hintact, -, d, hd, hsize, heq, hwritable, -⟩ := run_intact rfl hrun
  have hpow : 10 ^ 2 ≤ 10 ^ Text.maxDigits := Nat.pow_le_pow_right (by decide) (by decide)
  have hlength : d.clauses.length = 2 := by
    rw [heq, hclauses]
    rfl
  obtain ⟨text, htext, hread⟩ := hwritable ⟨by omega, by omega⟩
  exact ⟨r, j, d, text, hrun, hvalues, hclauses, hvars, hintact, hd, heq, htext, hread⟩

/-- A client moves the counter so far that the number of variables has too many digits.  The run returns its result,
and the text of that is refused. -/
theorem run_returns_oversized_number :
    let moved : Encoder Int Unit := .modify fun s => { s with nextVar := (10 ^ Text.maxDigits : Nat) + 1 }
    ({} : Config).checkInvariants = true ∧ ∃ (r : Result Int Unit) (j : Journal) (d : Document),
      run [.str "a"] (.encoder moved) none {} .empty = .ok r j ∧ r.numVars = (10 ^ Text.maxDigits : Nat) ∧
        r.toDocument = .ok d ∧ Dimacs.render d [] = .error .oversizedNumber ∧
        ¬∃ text, Dimacs.render d [] = .ok text ∧ Dimacs.parse text = .ok d := by
  intro moved
  have hm : VarMap.ofUniverse [.str "a"] none = .ok (VarMap.ofTable (Table.empty.insert (.str "a") (1 : Int))) := rfl
  obtain ⟨j, hrun⟩ := run_of_moved_counter hm (n := 10 ^ Text.maxDigits) (Nat.pow_pos (by decide)) {} .empty
  let d : Document := ⟨10 ^ Text.maxDigits, [], fun c hc => absurd hc List.not_mem_nil⟩
  have hrender : Dimacs.render d [] = .error .oversizedNumber :=
    Dimacs.render_eq_error fun hw => Nat.lt_irrefl _ hw.1
  refine ⟨rfl, _, j, d, hrun, rfl, d.ofValues_eq_ok, hrender, ?_⟩
  rintro ⟨text, htext, -⟩
  cases hrender.symm.trans htext

end Encoder

end Clausify
