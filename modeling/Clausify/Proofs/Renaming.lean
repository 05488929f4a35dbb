import Clausify.Proofs.Lockstep
import Clausify.Proofs.Meaning
import Mathlib.Data.Set.Function

/-!
# Renamed indices

A renaming permutes the indices of the variables of a universe and leaves the fresh ones above them (`Renaming`).  It
turns the literals of a formula into others with the same sign (`Cnf.rename`), so the solutions of the renamed formula
are the solutions of the formula, renamed (`Cnf.satisfies_rename`).  A state in which all indices are renamed
(`State.rename`) shows the same as before, and stays so under each step (`State.bisimilar_rename`).
-/

namespace Clausify

/-- The function permutes the indices from 1 to `n` and leaves those above. -/
structure Renaming (n : Int) (f : Int → Int) : Prop where
  between {i : Int} : 0 < i → i ≤ n → 0 < f i ∧ f i ≤ n
  injective {i j : Int} : 0 < i → i ≤ n → 0 < j → j ≤ n → f i = f j → i = j
  above {i : Int} : n < i → f i = i

namespace Renaming

variable {n : Int} {f : Int → Int}

theorem pos (h : Renaming n f) {i : Int} (hi : 0 < i) : 0 < f i := by
  rcases Int.lt_or_le n i with hn | hn
  · rwa [h.above hn]
  · exact (h.between hi hn).1

theorem injOn (h : Renaming n f) : Set.InjOn f {i | 0 < i} := by
  intro i hi j hj hij
  rcases Int.lt_or_le n i with hin | hin
  · rcases Int.lt_or_le n j with hjn | hjn
    · rwa [h.above hin, h.above hjn] at hij
    · have hfj := h.between hj hjn
      rw [h.above hin] at hij
      omega
  · rcases Int.lt_or_le n j with hjn | hjn
    · have hfi := h.between hi hin
      rw [h.above hjn] at hij
      omega
    · exact h.injective hi hin hj hjn hij

end Renaming

/-! ### Formulas -/

namespace Cnf

/-- The literal of the renamed index, with the same sign. -/
def rename (f : Int → Int) (l : Int) : Int := l.sign * f l.natAbs

variable {f : Int → Int} {l : Int}

private theorem rename_of_pos (hl : 0 < l) : rename f l = f l := by
  have habs : ((l.natAbs : Nat) : Int) = l := by omega
  rw [rename, Int.sign_eq_one_of_pos hl, habs, Int.one_mul]

private theorem rename_neg (l : Int) : rename f (-l) = -rename f l := by
  rw [rename, rename, Int.sign_neg, Int.natAbs_neg, Int.neg_mul]

/-- A renamed literal holds if the literal does under the values of the renamed indices. -/
private theorem holds_rename (hl : l ≠ 0) (hf : 0 < f l.natAbs) (σ : Int → Bool) :
    Holds σ (rename f l) ↔ Holds (fun i => σ (f i)) l := by
  rcases Int.lt_or_gt_of_ne hl with h | h
  · have e : rename f l = -f l.natAbs := by
      rw [rename, Int.sign_eq_neg_one_of_neg h, Int.neg_mul, Int.one_mul]
    have habs : ((rename f l).natAbs : Int) = f l.natAbs := by omega
    have hsign : ¬0 < rename f l := by omega
    have hsign' : ¬0 < l := by omega
    unfold Holds
    rw [habs, decide_eq_false hsign, decide_eq_false hsign']
  · have e : rename f l = f l.natAbs := by
      rw [rename, Int.sign_eq_one_of_pos h, Int.one_mul]
    have habs : ((rename f l).natAbs : Int) = f l.natAbs := by omega
    have hsign : 0 < rename f l := by omega
    unfold Holds
    rw [habs, decide_eq_true hsign, decide_eq_true h]

theorem satisfies_rename {cs : List (List Int)} (hcs : Within (fun i => 0 < i) cs) (hf : ∀ i, 0 < i → 0 < f i)
    (σ : Int → Bool) : Satisfies σ (cs.map (List.map (rename f))) ↔ Satisfies (fun i => σ (f i)) cs := by
  unfold Satisfies
  rw [List.forall_mem_map]
  refine forall₂_congr fun c hc => ?_
  simp only [List.mem_map, exists_exists_and_eq_and]
  refine exists_congr fun l => and_congr_right fun hl => ?_
  have hpos := hcs c hc l hl
  exact holds_rename (by omega) (hf _ hpos) σ

end Cnf

/-! ### States -/

/-- The map with renamed indices for the variables of the universe. -/
def VarMap.rename (f : Int → Int) (m : VarMap Int) : VarMap Int := ⟨m.named.map fun _ i => f i, m.scopes⟩

theorem Table.find?_map {β γ : Type} (t : Table β) (g : β → γ) (v : Value) :
    (t.map fun _ b => g b).find? v = (t.find? v).map g := by
  unfold Table.find? Table.map
  rw [List.find?_map, Option.map_map, Option.map_map]
  rfl

namespace VarMap

variable {f : Int → Int} {n : Int}

private theorem index_rename {m : VarMap Int} (hf : ∀ i, n < i → f i = i) (hm : ∀ r ∈ m.scopes, n < r.base)
    (v : Value) : (m.rename f).index v = (m.index v).map f := by
  obtain ⟨named, scopes⟩ := m
  show scopedIndex (named.map fun _ i => f i) scopes v = (scopedIndex named scopes v).map f
  replace hm : ∀ r ∈ scopes, n < r.base := hm
  induction scopes generalizing v with
  | nil =>
    show namedIndex _ v = (namedIndex named v).map f
    unfold namedIndex
    rw [Table.find?_map]
    split
    · cases named.find? v <;> rfl
    · rfl
  | cons r rs ih =>
    obtain ⟨hr, hrs⟩ := List.forall_mem_cons.1 hm
    cases v with
    | temp i =>
      unfold scopedIndex
      dsimp only
      split
      · next hi =>
        have e : f (r.base + i) = r.base + i := hf _ (by omega)
        exact congrArg Except.ok e.symm
      · rfl
    | outer v => exact ih v hrs
    | _ => rfl

private theorem signedIndex_rename {m : VarMap Int} {next : Int} (hs : m.Sound next) (hf : ∀ i, n < i → f i = i)
    (hm : ∀ r ∈ m.scopes, n < r.base) (l : Literal) :
    (m.rename f).signedIndex l = (m.signedIndex l).map (Cnf.rename f) := by
  have hindex := index_rename hf hm l.var
  cases hi : m.index l.var with
  | error x =>
    rw [hi] at hindex
    unfold signedIndex
    rw [hi, hindex]
    rfl
  | ok i =>
    have hpos := (hs.indices_between i (index_mem_usedIndices hi)).1
    rw [hi] at hindex
    rw [signedIndex_of_index hindex, signedIndex_of_index hi]
    refine congrArg Except.ok ?_
    split
    · exact (Cnf.rename_of_pos hpos).symm
    · rw [Cnf.rename_neg, Cnf.rename_of_pos hpos]

end VarMap

private theorem mapM_map {α β γ : Type} (g : β → γ) (k : α → Except Error β) (xs : List α) :
    (xs.mapM fun x => (k x).map g) = (xs.mapM k).map (List.map g) := by
  have hreturn (x : α) : (k x).map g = do return g (← k x) := by cases k x <;> rfl
  simp only [hreturn, mapM_return]
  cases xs.mapM k <;> rfl

namespace State

/-- The state with renamed indices for the variables of the universe. -/
def rename (f : Int → Int) (s : State Int) : State Int :=
  { s with clauses := s.clauses.map (List.map (Cnf.rename f)), varMap := s.varMap.rename f }

variable {f : Int → Int} {n : Int} {s t u v : State Int}

theorem length_clauses_rename (f : Int → Int) (s : State Int) : (s.rename f).clauses.length = s.clauses.length :=
  List.length_map _

private theorem eventIf_rename (s : State Int) (b : Bool) (e : Event) :
    (s.rename f).eventIf b e = (s.eventIf b e).rename f := by
  cases b <;> rfl

private theorem openContext_rename (f : Int → Int) (s : State Int) (name : String) :
    (s.rename f).openContext name = (s.openContext name).rename f := by
  unfold openContext
  dsimp only
  rw [length_clauses_rename, ← eventIf_rename]
  rfl

private theorem enter_rename (f : Int → Int) (s : State Int) (base : Int) (k : Nat) :
    (s.rename f).enter base k = (s.enter base k).map (rename f) := by
  rw [enter_eq, enter_eq]
  show (do
    let lifted ← s.assumptions.mapM fun v => return (← Literal.ofValue v).lift.toValue
    return { s.rename f with varMap := (s.varMap.rename f).extend base k, assumptions := lifted }) = _
  cases s.assumptions.mapM (m := Except Error) fun v => return (← Literal.ofValue v).lift.toValue <;> rfl

private theorem leave_rename (f : Int → Int) (s u : State Int) :
    (s.rename f).leave (u.rename f) = match s.leave u with
    | .ok () t => .ok () (t.rename f)
    | .error x t => .error x (t.rename f) := by
  unfold leave
  by_cases h : u.nextVar < s.nextVar
  · have h' : (u.rename f).nextVar < (s.rename f).nextVar := h
    dsimp only
    rw [if_pos h, if_pos h']
    rfl
  · have h' : ¬(u.rename f).nextVar < (s.rename f).nextVar := h
    dsimp only
    rw [if_neg h, if_neg h']
    rfl

/-- The state to which a sound scope returns is sound. -/
private theorem Sound.leave (h : s.Sound) (h' : u.Sound) : (endState (s.leave u)).Sound := by
  unfold State.leave
  dsimp only
  split
  · next hback =>
    refine ⟨h.varMap_sound, h.nextVar_pos, fun c hc l hl => ?_⟩
    have hbetween := h'.literals_between c hc l hl
    exact ⟨hbetween.1, Int.lt_trans hbetween.2 hback⟩
  · next hback => exact ⟨h.varMap_sound.mono (Int.not_lt.1 hback), h'.nextVar_pos, h'.literals_between⟩

/-- The second state is the first one with renamed indices, both are sound, and the indices that scopes take are above
the renamed ones. -/
structure Renamed (n : Int) (f : Int → Int) (s t : State Int) : Prop where
  eq_rename : t = s.rename f
  sound : s.Sound
  sound_rename : (s.rename f).Sound
  lt_nextVar : n < s.nextVar
  lt_base : ∀ r ∈ s.varMap.scopes, n < r.base

namespace Renamed

private theorem congr (h : Renamed n f s t) (he : v = u.rename f) (hm : u.varMap = s.varMap)
    (hn : u.nextVar = s.nextVar) (hc : u.clauses = s.clauses) : Renamed n f u v where
  eq_rename := he
  sound := h.sound.congr hm hn hc
  sound_rename := h.sound_rename.congr (congrArg (VarMap.rename f) hm) hn
    (congrArg (List.map (List.map (Cnf.rename f))) hc)
  lt_nextVar := hn ▸ h.lt_nextVar
  lt_base := hm ▸ h.lt_base

private theorem signedClause_eq (hf : ∀ i, n < i → f i = i) (h : Renamed n f s t) (c : List Literal) :
    (s.rename f).signedClause c = (s.signedClause c).map (List.map (Cnf.rename f)) := by
  have hsigned (l : Literal) : (s.rename f).varMap.signedIndex l = (s.varMap.signedIndex l).map (Cnf.rename f) :=
    VarMap.signedIndex_rename h.sound.varMap_sound hf h.lt_base l
  have hguard (v : Value) : (do (s.rename f).varMap.signedIndex (← Literal.ofValue v) : Except Error Int) =
      (do s.varMap.signedIndex (← Literal.ofValue v) : Except Error Int).map (Cnf.rename f) := by
    cases Literal.ofValue v with
    | error x => rfl
    | ok l => exact hsigned l
  have hguards : ((s.rename f).assumptions.mapM fun v => do (s.rename f).varMap.signedIndex (← Literal.ofValue v)) =
      (s.assumptions.mapM fun v => do s.varMap.signedIndex (← Literal.ofValue v)).map (List.map (Cnf.rename f)) := by
    rw [← mapM_map]
    exact congrArg s.assumptions.mapM (funext hguard)
  have hlits : c.mapM (s.rename f).varMap.signedIndex =
      (c.mapM s.varMap.signedIndex).map (List.map (Cnf.rename f)) := by
    rw [← mapM_map]
    exact congrArg c.mapM (funext hsigned)
  unfold signedClause
  rw [hguards, hlits]
  cases s.assumptions.mapM (m := Except Error) fun v => do s.varMap.signedIndex (← Literal.ofValue v) with
  | error x => rfl
  | ok guards =>
    cases c.mapM s.varMap.signedIndex with
    | error x => rfl
    | ok lits => exact congrArg Except.ok List.map_append.symm

private theorem addClause (hf : ∀ i, n < i → f i = i) (h : Renamed n f s t) (c : List Literal) :
    SameResult (Renamed n f) (s.addClause c) (t.addClause c) := by
  cases h.eq_rename
  have hsound (s' : State Int) (hs' : s.addClause c = .ok s') : s'.Sound := (frame_addClause hs').sound h.sound
  have hsound' (t' : State Int) (ht' : (s.rename f).addClause c = .ok t') : t'.Sound :=
    (frame_addClause ht').sound h.sound_rename
  rw [h.sound.addClause_eq] at hsound ⊢
  rw [h.sound_rename.addClause_eq, h.signedClause_eq hf] at hsound' ⊢
  cases hd : s.signedClause c with
  | error x => exact .error x
  | ok d =>
    rw [hd] at hsound hsound'
    have he : State.rename f { s with clauses := s.clauses ++ [d] } =
        { s.rename f with clauses := (s.rename f).clauses ++ [d.map (Cnf.rename f)] } := by
      unfold State.rename
      rw [List.map_append]
      rfl
    exact .ok ⟨he.symm, hsound _ rfl, he ▸ hsound' _ rfl, h.lt_nextVar, h.lt_base⟩

private theorem takeFresh (h : Renamed n f s t) (k : Nat) : Renamed n f (s.takeFresh k) (t.takeFresh k) where
  eq_rename := by
    rw [h.eq_rename]
    rfl
  sound := (frame_takeFresh s k).sound h.sound
  sound_rename := (frame_takeFresh (s.rename f) k).sound h.sound_rename
  lt_nextVar := Int.lt_of_lt_of_le h.lt_nextVar (frame_takeFresh s k).nextVar_le
  lt_base := h.lt_base

theorem enter (h : Renamed n f s t) (k : Nat) :
    SameResult (Renamed n f) ((s.takeFresh k).enter s.nextVar k) ((t.takeFresh k).enter t.nextVar k) := by
  cases h.eq_rename
  have he : ((s.rename f).takeFresh k).enter (s.rename f).nextVar k =
      ((s.takeFresh k).enter s.nextVar k).map (State.rename f) := enter_rename f (s.takeFresh k) s.nextVar k
  have hsound (inner : State Int) (hi : (s.takeFresh k).enter s.nextVar k = .ok inner) : inner.Sound :=
    h.sound.enter hi
  have hsound' (inner : State Int) (hi : ((s.rename f).takeFresh k).enter (s.rename f).nextVar k = .ok inner) :
      inner.Sound := h.sound_rename.enter hi
  rw [he] at hsound' ⊢
  cases hi : (s.takeFresh k).enter s.nextVar k with
  | error x => exact .error x
  | ok inner =>
    rw [hi] at hsound'
    obtain ⟨gs, -, rfl⟩ := enter_eq_ok.1 hi
    refine .ok ⟨rfl, hsound _ hi, hsound' _ rfl, (h.takeFresh k).lt_nextVar, ?_⟩
    exact List.forall_mem_cons.2 ⟨h.lt_nextVar, h.lt_base⟩

private theorem leave (h : Renamed n f s t) (h' : Renamed n f u v) :
    SameOutcome (Renamed n f) Eq (s.leave u) (t.leave v) := by
  cases h.eq_rename
  cases h'.eq_rename
  have hsound := h.sound.leave h'.sound
  have hsound' := h.sound_rename.leave h'.sound_rename
  rw [leave_rename] at hsound' ⊢
  have hscopes : (endState (s.leave u)).varMap = s.varMap ∧ n < (endState (s.leave u)).nextVar := by
    unfold State.leave
    dsimp only
    split
    · exact ⟨rfl, h.lt_nextVar⟩
    · exact ⟨rfl, h'.lt_nextVar⟩
  cases hl : s.leave u with
  | ok a t =>
    rw [hl] at hsound hsound' hscopes
    exact .ok rfl ⟨rfl, hsound, hsound', hscopes.2, hscopes.1 ▸ h.lt_base⟩
  | error x t =>
    rw [hl] at hsound hsound' hscopes
    exact .error x ⟨rfl, hsound, hsound', hscopes.2, hscopes.1 ▸ h.lt_base⟩

end Renamed

theorem bisimilar_rename (hf : ∀ i, n < i → f i = i) : State.Bisimilar (Renamed n f) Eq where
  nextVar_eq h := by
    rw [h.eq_rename]
    rfl
  warn x h := h.congr (congrArg (State.warn · x) h.eq_rename) rfl rfl rfl
  addClause h hcd := by
    cases hcd
    exact h.addClause hf _
  openContext {s t} name h := by
    obtain ⟨j, ho⟩ := s.openContext_eq name
    refine h.congr ?_ ?_ ?_ ?_
    · rw [h.eq_rename, openContext_rename]
    all_goals rw [ho]
  closeContext h := h.congr (congrArg State.closeContext h.eq_rename) rfl rfl rfl
  contextLeft {s t u v} name h h' := by
    have hpath : (t.openContext name).path = (s.openContext name).path := by
      rw [h.eq_rename, openContext_rename]
      rfl
    have htrace : t.traceContexts = s.traceContexts := by
      rw [h.eq_rename]
      rfl
    have hv : v.eventIf t.traceContexts (.contextLeft (t.openContext name).path v.nextVar v.clauses.length) =
        (u.eventIf s.traceContexts (.contextLeft (s.openContext name).path u.nextVar u.clauses.length)).rename f := by
      rw [hpath, htrace, h'.eq_rename, length_clauses_rename]
      exact eventIf_rename u _ _
    obtain ⟨j, hj⟩ := u.eventIf_eq s.traceContexts (.contextLeft (s.openContext name).path u.nextVar u.clauses.length)
    rw [hj] at hv ⊢
    exact h'.congr hv rfl rfl rfl
  assuming {s t gs hs} h hgs := by
    cases hgs
    exact h.congr (by rw [h.eq_rename]; rfl) rfl rfl rfl
  restore h h' := h'.congr (by rw [h.eq_rename, h'.eq_rename]; rfl) rfl rfl rfl
  takeFresh k h := h.takeFresh k
  enter k h := h.enter k
  leave h h' := h.leave h'

end State

end Clausify
