import Clausify.Proofs.Universe
import Clausify.Proofs.Valuation
import Clausify.Result.Models
import Mathlib.Algebra.Group.Nat.Defs

/-!
# Brute force finds the models

Trying all values of the auxiliary indices decides whether some of them complete a row to a solution
(`Result.isModelRow_decides`), so the models of a result are the assignments of its variables that extend to a
solution of its formula (`Result.models_eq_ok`).
-/

namespace Clausify

/-- The computation succeeds and its answer is whether the property holds. -/
def Decides {ε : Type} (x : Except ε Bool) (p : Prop) : Prop := ∃ b, x = .ok b ∧ (b = true ↔ p)

namespace Decides

variable {ε α : Type} {x : Except ε Bool} {p q : Prop}

theorem congr (h : Decides x p) (hpq : p ↔ q) : Decides x q := by
  obtain ⟨b, hb, hp⟩ := h
  exact ⟨b, hb, hp.trans hpq⟩

/-- Computations that decide the same have the same answer. -/
private theorem eq {y : Except ε Bool} (hx : Decides x p) (hy : Decides y q) (hpq : p ↔ q) : x = y := by
  obtain ⟨b, rfl, hb⟩ := hx
  obtain ⟨c, rfl, hc⟩ := hy
  exact congrArg Except.ok (Bool.eq_iff_iff.2 (hb.trans (hpq.trans hc.symm)))

private theorem anyM {f : α → Except ε Bool} {p : α → Prop} {xs : List α} (h : ∀ x ∈ xs, Decides (f x) (p x)) :
    Decides (xs.anyM f) (∃ x ∈ xs, p x) := by
  induction xs with
  | nil => exact ⟨false, rfl, by simp⟩
  | cons x xs ih =>
    obtain ⟨b, hb, hp⟩ := h x (List.mem_cons_self ..)
    obtain ⟨c, hc, hq⟩ := ih fun y hy => h y (List.mem_cons_of_mem _ hy)
    rw [List.anyM_cons, hb]
    cases b with
    | true => exact ⟨true, rfl, by simp [← hp]⟩
    | false => exact ⟨c, hc, by simp [← hp, hq]⟩

private theorem allM {f : α → Except ε Bool} {p : α → Prop} {xs : List α} (h : ∀ x ∈ xs, Decides (f x) (p x)) :
    Decides (xs.allM f) (∀ x ∈ xs, p x) := by
  induction xs with
  | nil => exact ⟨true, rfl, by simp⟩
  | cons x xs ih =>
    obtain ⟨b, hb, hp⟩ := h x (List.mem_cons_self ..)
    obtain ⟨c, hc, hq⟩ := ih fun y hy => h y (List.mem_cons_of_mem _ hy)
    rw [List.allM_cons, hb]
    cases b with
    | true => exact ⟨c, hc, by simp [← hp, hq]⟩
    | false => exact ⟨false, rfl, by simp [← hp]⟩

/-- Of two alternatives the second is only tried if the first fails. -/
private theorem orElse {y : Except ε Bool} (hx : Decides x p) (hy : Decides y q) :
    Decides (do if ← x then return true else y) (p ∨ q) := by
  obtain ⟨b, rfl, hp⟩ := hx
  obtain ⟨c, rfl, hq⟩ := hy
  cases b with
  | true => exact ⟨true, rfl, by simp [← hp]⟩
  | false => exact ⟨c, rfl, by simp [← hp, hq]⟩

end Decides

/-! ### Values of auxiliary indices -/

namespace Valuation

/-- The truth values are those of the valuation, except on the given indices. -/
def Extends (σ : Valuation Int) (is : List Int) (τ : Int → Bool) : Prop := ∀ i b, i ∉ is → σ i = some b → τ i = b

/-- Each literal has a value or is about to get one. -/
def Covers (σ : Valuation Int) (is : List Int) (cs : List (List Int)) : Prop :=
  Cnf.Within (fun i => i ∈ is ∨ ∃ b, σ i = some b) cs

private theorem set_self (σ : Valuation Int) (i : Int) (b : Bool) : σ.set i b i = some b := by
  unfold set
  rw [Index.same_int, decide_eq_true rfl, if_pos rfl]

private theorem set_of_ne (σ : Valuation Int) {i j : Int} (b : Bool) (h : j ≠ i) : σ.set i b j = σ j := by
  unfold set
  rw [Index.same_int, decide_eq_false h]
  rfl

private theorem literal_decides {σ : Valuation Int} {τ : Int → Bool} (hτ : σ.Extends [] τ) {l : Int} {b : Bool}
    (h : σ l.natAbs = some b) : Decides (σ.literal l) (Cnf.Holds τ l) := by
  refine ⟨b == decide (0 < l), ?_, ?_⟩
  · unfold literal
    rw [Index.magnitude_int, Index.positive_int]
    refine bind_eq_ok.2 ⟨l.natAbs, rfl, ?_⟩
    rw [h]
    rfl
  · rw [beq_iff_eq]
    unfold Cnf.Holds
    rw [hτ _ _ List.not_mem_nil h]

private theorem satisfies_decides {σ : Valuation Int} {cs : List (List Int)} (hcs : σ.Covers [] cs) :
    Decides (σ.satisfies cs) (∃ τ, σ.Extends [] τ ∧ Cnf.Satisfies τ cs) := by
  have hdec (τ : Int → Bool) (hτ : σ.Extends [] τ) : Decides (σ.satisfies cs) (Cnf.Satisfies τ cs) := by
    refine Decides.allM fun c hc => Decides.anyM fun l hl => ?_
    rcases hcs c hc l hl with h | ⟨b, hb⟩
    · cases h
    · exact literal_decides hτ hb
  have hσ : σ.Extends [] fun i => (σ i).getD false := by
    intro i b _ h
    show (σ i).getD false = b
    rw [h, Option.getD_some]
  obtain ⟨b, hb, hs⟩ := hdec _ hσ
  refine ⟨b, hb, fun h => ⟨_, hσ, hs.1 h⟩, ?_⟩
  rintro ⟨τ, hτ, h⟩
  -- the answer does not depend on the values that extend the valuation
  obtain ⟨b', hb', hs'⟩ := hdec τ hτ
  cases hb.symm.trans hb'
  exact hs'.2 h

private theorem extends_cons {σ : Valuation Int} {i : Int} {is : List Int} {τ : Int → Bool} :
    σ.Extends (i :: is) τ ↔ (σ.set i false).Extends is τ ∨ (σ.set i true).Extends is τ := by
  have hset (b : Bool) (h : σ.Extends (i :: is) τ) (hb : i ∉ is → τ i = b) : (σ.set i b).Extends is τ := by
    intro j c hj hc
    by_cases hji : j = i
    · rw [hji, set_self] at hc
      rw [hji, hb (hji ▸ hj), Option.some.inj hc]
    · rw [set_of_ne σ b hji] at hc
      exact h j c (List.not_mem_cons_of_ne_of_not_mem hji hj) hc
  have hcons (b : Bool) (h : (σ.set i b).Extends is τ) : σ.Extends (i :: is) τ := by
    intro j c hj hc
    rw [List.mem_cons, not_or] at hj
    exact h j c hj.2 ((set_of_ne σ b hj.1).trans hc)
  constructor
  · intro h
    cases hb : τ i with
    | false => exact .inl (hset false h fun _ => hb)
    | true => exact .inr (hset true h fun _ => hb)
  · rintro (h | h)
    · exact hcons false h
    · exact hcons true h

private theorem covers_set {σ : Valuation Int} {i : Int} {is : List Int} {cs : List (List Int)}
    (h : σ.Covers (i :: is) cs) (b : Bool) : (σ.set i b).Covers is cs := by
  intro c hc l hl
  by_cases hi : (l.natAbs : Int) = i
  · exact .inr ⟨b, by rw [hi, set_self]⟩
  · rcases h c hc l hl with h | ⟨b', hb'⟩
    · exact .inl ((List.mem_cons.1 h).resolve_left hi)
    · exact .inr ⟨b', (set_of_ne σ b hi).trans hb'⟩

private theorem extends?_decides {σ : Valuation Int} {is : List Int} {cs : List (List Int)} (hcs : σ.Covers is cs) :
    Decides (σ.extends? cs is) (∃ τ, σ.Extends is τ ∧ Cnf.Satisfies τ cs) := by
  induction is generalizing σ with
  | nil => exact satisfies_decides hcs
  | cons i is ih =>
    refine ((ih (covers_set hcs false)).orElse (ih (covers_set hcs true))).congr ?_
    simp only [extends_cons, or_and_right, exists_or]

private theorem foldl_set_of_ne {ps : List (Int × Bool)} {σ : Valuation Int} {i : Int} (h : ∀ p ∈ ps, p.1 ≠ i) :
    ps.foldl (fun σ p => σ.set p.1 p.2) σ i = σ i := by
  induction ps generalizing σ with
  | nil => rfl
  | cons p ps ih =>
    rw [List.foldl_cons, ih fun q hq => h q (List.mem_cons_of_mem _ hq)]
    exact set_of_ne σ p.2 (h p (List.mem_cons_self ..)).symm

private theorem foldl_set_of_mem {ps : List (Int × Bool)} {σ : Valuation Int} (hn : (ps.map (·.1)).Nodup) :
    ∀ p ∈ ps, ps.foldl (fun σ p => σ.set p.1 p.2) σ p.1 = some p.2 := by
  induction ps generalizing σ with
  | nil =>
    intro p hp
    cases hp
  | cons q ps ih =>
    obtain ⟨hq, hn⟩ := List.nodup_cons.1 hn
    intro p hp
    rw [List.foldl_cons]
    rcases List.mem_cons.1 hp with rfl | hp
    · have hne : ∀ r ∈ ps, r.1 ≠ p.1 := by
        intro r hr h
        exact hq (List.mem_map.2 ⟨r, hr, h⟩)
      rw [foldl_set_of_ne hne]
      exact set_self σ p.1 p.2
    · exact ih hn p hp

end Valuation

/-! ### Models -/

namespace Result

variable {α : Type}

/-- Different variables have different indices, and the formula has indices from 1 to the number of variables. -/
structure Sound (r : Result Int α) : Prop where
  values_nodup : r.varMap.values.Nodup
  clauses_within : Cnf.Within (fun i => 0 < i ∧ i ≤ r.numVars) r.clauses

/-- Truth values of indices that give the variables those of an assignment. -/
def Gives (r : Result Int α) (a : Assignment) (τ : Int → Bool) : Prop :=
  ∀ e ∈ r.varMap.entries, a.find? e.1 = some (τ e.2)

/-- Some solution of the formula gives the variables the values of an assignment. -/
def Admits (r : Result Int α) (a : Assignment) : Prop := ∃ τ, r.Gives a τ ∧ Cnf.Satisfies τ r.clauses

theorem checkIndices_eq_ok (r : Result Int α) : r.checkIndices = .ok () := by
  unfold checkIndices
  rw [List.all_eq_true.2 fun i _ => Index.hashable_int i]
  rfl

private theorem mem_auxiliary {r : Result Int α} {i : Int} :
    i ∈ r.auxiliary ↔ (0 < i ∧ i ≤ r.numVars) ∧ i ∉ r.varMap.values := by
  unfold auxiliary
  rw [List.mem_filter, List.mem_map]
  have hany : (r.varMap.values.any fun j => Index.same i j) = decide (i ∈ r.varMap.values) := by
    rw [Bool.eq_iff_iff, List.any_eq_true, decide_eq_true_iff]
    simp only [Index.same_int, decide_eq_true_iff, exists_eq_right']
  refine and_congr ⟨?_, fun h => ?_⟩ ?_
  · rintro ⟨k, hk, rfl⟩
    have := List.mem_range.1 hk
    show 0 < (k + 1 : Int) ∧ (k + 1 : Int) ≤ r.numVars
    omega
  · refine ⟨(i - 1).toNat, List.mem_range.2 (by omega), ?_⟩
    show (((i - 1).toNat : Nat) + 1 : Int) = i
    omega
  · show (!r.varMap.values.any fun j => Index.same i j) = true ↔ _
    rw [hany, Bool.not_eq_true', decide_eq_false_iff_not]

private theorem map_fst_zip {α β : Type} {xs : List α} {ys : List β} (h : xs.length = ys.length) :
    (xs.zip ys).map (·.1) = xs :=
  List.map_fst_zip (Nat.le_of_eq h)

variable {r : Result Int α} {bs : List Bool}

private theorem valuation_of_not_mem {i : Int} (hi : i ∉ r.varMap.values) : r.valuation bs i = none := by
  refine Valuation.foldl_set_of_ne fun p hp h => hi ?_
  rw [← h]
  exact (List.of_mem_zip hp).1

/-- A row gives a variable and its index the same value. -/
private theorem exists_row_value (hr : r.Sound) (hbs : bs.length = r.varMap.size) :
    ∀ e ∈ r.varMap.entries, ∃ b, (r.ofRow bs).find? e.1 = some b ∧ r.valuation bs e.2 = some b := by
  have hlen : r.varMap.entries.length = bs.length := hbs.symm
  have hvalues : r.varMap.values.zip bs = (r.varMap.entries.zip bs).map fun p => (p.1.2, p.2) := by
    rw [Table.values, List.zip_map_left]
    rfl
  have hkeys : (r.ofRow bs).entries = (r.varMap.entries.zip bs).map fun p => (p.1.1, p.2) := by
    show r.varMap.keys.zip bs = _
    rw [Table.keys, List.zip_map_left]
    rfl
  have hset : ∀ p ∈ r.varMap.values.zip bs, r.valuation bs p.1 = some p.2 := by
    refine Valuation.foldl_set_of_mem ?_
    rw [map_fst_zip (by rw [Table.values, List.length_map, hlen])]
    exact hr.values_nodup
  intro e he
  rw [← map_fst_zip hlen] at he
  obtain ⟨p, hp, rfl⟩ := List.mem_map.1 he
  refine ⟨p.2, Table.find?_of_mem ?_, hset (p.1.2, p.2) ?_⟩
  · rw [hkeys]
    exact List.mem_map_of_mem (f := fun p : (Value × Int) × Bool => (p.1.1, p.2)) hp
  · rw [hvalues]
    exact List.mem_map_of_mem (f := fun p : (Value × Int) × Bool => (p.1.2, p.2)) hp

private theorem extends_valuation_iff (hr : r.Sound) (hbs : bs.length = r.varMap.size) {τ : Int → Bool} :
    (r.valuation bs).Extends r.auxiliary τ ↔ r.Gives (r.ofRow bs) τ := by
  have hrow := exists_row_value hr hbs
  constructor
  · intro h e he
    obtain ⟨b, hb, hv⟩ := hrow e he
    have hi : e.2 ∉ r.auxiliary := fun hi => (mem_auxiliary.1 hi).2 (List.mem_map_of_mem (f := (·.2)) he)
    rw [hb, h _ _ hi hv]
  · intro h i b _ hv
    by_cases hi : i ∈ r.varMap.values
    · obtain ⟨e, he, rfl⟩ := List.mem_map.1 hi
      obtain ⟨b', hb, hv'⟩ := hrow e he
      rw [hv'] at hv
      rw [h e he] at hb
      rw [Option.some.inj hb, Option.some.inj hv]
    · rw [valuation_of_not_mem hi] at hv
      cases hv

private theorem covers_valuation (hr : r.Sound) (hbs : bs.length = r.varMap.size) :
    (r.valuation bs).Covers r.auxiliary r.clauses := by
  intro c hc l hl
  by_cases hi : (l.natAbs : Int) ∈ r.varMap.values
  · obtain ⟨e, he, hel⟩ := List.mem_map.1 hi
    obtain ⟨b, -, hv⟩ := exists_row_value hr hbs e he
    exact .inr ⟨b, hel ▸ hv⟩
  · exact .inl (mem_auxiliary.2 ⟨hr.clauses_within c hc l hl, hi⟩)

theorem isModelRow_decides (hr : r.Sound) (hbs : bs.length = r.varMap.size) :
    Decides (r.isModelRow bs) (∃ τ, r.Gives (r.ofRow bs) τ ∧ Cnf.Satisfies τ r.clauses) := by
  unfold isModelRow
  rw [r.checkIndices_eq_ok]
  refine (Valuation.extends?_decides (covers_valuation hr hbs)).congr ?_
  simp only [extends_valuation_iff hr hbs]

end Result

theorem mem_rows {n : Nat} {bs : List Bool} : bs ∈ rows n ↔ bs.length = n := by
  induction n generalizing bs with
  | zero => rw [rows, List.mem_singleton, List.length_eq_zero_iff]
  | succ n ih =>
    rw [rows, List.mem_append, List.mem_map, List.mem_map]
    constructor
    · rintro (⟨bs, hbs, rfl⟩ | ⟨bs, hbs, rfl⟩)
      · rw [List.length_cons, ih.1 hbs]
      · rw [List.length_cons, ih.1 hbs]
    · intro h
      cases bs with
      | nil => cases h
      | cons b bs =>
        have hbs := ih.2 (Nat.succ.inj h)
        cases b with
        | false => exact .inl ⟨bs, hbs, rfl⟩
        | true => exact .inr ⟨bs, hbs, rfl⟩

private theorem length_rows (n : Nat) : (rows n).length = 2 ^ n := by
  induction n with
  | zero => rfl
  | succ n ih =>
    rw [rows, List.length_append, List.length_map, List.length_map, ih]
    omega

theorem nodup_rows (n : Nat) : (rows n).Nodup := by
  have hcons (b : Bool) : Function.Injective (b :: ·) := fun _ _ h => List.tail_eq_of_cons_eq h
  induction n with
  | zero => exact List.nodup_singleton []
  | succ n ih =>
    rw [rows, List.nodup_append]
    refine ⟨ih.map (hcons false), ih.map (hcons true), fun bs hbs cs hcs h => ?_⟩
    obtain ⟨bs, -, rfl⟩ := List.mem_map.1 hbs
    obtain ⟨cs, -, rfl⟩ := List.mem_map.1 hcs
    exact Bool.false_ne_true (List.head_eq_of_cons_eq h)

theorem selectRows_sublist {p : List Bool → Except Error Bool} {bss sel : List (List Bool)}
    (h : selectRows p bss = .ok sel) : sel.Sublist bss := by
  induction bss generalizing sel with
  | nil =>
    cases h
    exact List.Sublist.refl _
  | cons bs bss ih =>
    obtain ⟨keep, -, h⟩ := bind_eq_ok.1 h
    obtain ⟨rest, hrest, h⟩ := bind_eq_ok.1 h
    cases keep with
    | false =>
      cases h
      exact (ih hrest).cons bs
    | true =>
      cases h
      exact (ih hrest).cons_cons bs

theorem selectRows_eq_ok {p : List Bool → Except Error Bool} {P : List Bool → Prop} {bss : List (List Bool)}
    (h : ∀ bs ∈ bss, Decides (p bs) (P bs)) :
    ∃ sel, selectRows p bss = .ok sel ∧ ∀ bs, bs ∈ sel ↔ bs ∈ bss ∧ P bs := by
  induction bss with
  | nil => exact ⟨[], rfl, by simp⟩
  | cons bs bss ih =>
    obtain ⟨b, hb, hp⟩ := h bs (List.mem_cons_self ..)
    obtain ⟨sel, hsel, hmem⟩ := ih fun bs' hbs' => h bs' (List.mem_cons_of_mem _ hbs')
    refine ⟨if b then bs :: sel else sel, ?_, fun bs' => ?_⟩
    · unfold selectRows
      rw [hb, hsel]
      rfl
    · cases b with
      | true =>
        have hbs : P bs := hp.1 rfl
        simp only [if_true, List.mem_cons, hmem]
        constructor
        · rintro (rfl | ⟨h1, h2⟩)
          · exact ⟨.inl rfl, hbs⟩
          · exact ⟨.inr h1, h2⟩
        · rintro ⟨h1 | h1, h2⟩
          · exact .inl h1
          · exact .inr ⟨h1, h2⟩
      | false =>
        have hbs : ¬P bs := fun h => Bool.false_ne_true (hp.2 h)
        simp only [Bool.false_eq_true, if_false, List.mem_cons, hmem]
        constructor
        · rintro ⟨h1, h2⟩
          exact ⟨.inr h1, h2⟩
        · rintro ⟨rfl | h1, h2⟩
          · exact absurd h2 hbs
          · exact ⟨h1, h2⟩

private theorem selectRows_congr {p q : List Bool → Except Error Bool} {bss : List (List Bool)}
    (h : ∀ bs ∈ bss, p bs = q bs) :
    selectRows p bss = selectRows q bss := by
  induction bss with
  | nil => rfl
  | cons bs bss ih =>
    obtain ⟨hbs, hbss⟩ := List.forall_mem_cons.1 h
    unfold selectRows
    rw [hbs, ih hbss]

namespace Result

variable {α : Type}

private theorem ofRow_values {r : Result Int α} {a : Assignment} (h : a.keys = r.varMap.keys) :
    r.ofRow a.values = a := by
  refine Table.ext ?_
  show r.varMap.keys.zip a.values = a.entries
  have hz := List.zip_unzip a.entries
  rw [List.unzip_fst, List.unzip_snd] at hz
  rw [← h]
  exact hz

/-- The models come from different rows. -/
private theorem exists_rows {r : Result Int α} {ms : List Assignment} (h : r.models = .ok ms) :
    ∃ sel : List (List Bool), sel.Sublist (rows r.varMap.size) ∧ ms = sel.map r.ofRow := by
  obtain ⟨sel, hsel, h⟩ := bind_eq_ok.1 h
  cases h
  exact ⟨sel, selectRows_sublist hsel, rfl⟩

theorem models_nodup {r : Result Int α} {ms : List Assignment} (h : r.models = .ok ms) : ms.Nodup := by
  obtain ⟨sel, hsel, rfl⟩ := exists_rows h
  refine (hsel.nodup (nodup_rows _)).map_on fun bs hbs cs hcs hrow => ?_
  have hlen : ∀ ds ∈ sel, ds.length ≤ r.varMap.keys.length := by
    intro ds hds
    rw [mem_rows.1 (hsel.subset hds)]
    exact Nat.le_of_eq (List.length_map _).symm
  have hvalues := congrArg Table.values hrow
  unfold ofRow Table.values at hvalues
  dsimp only at hvalues
  rwa [List.map_snd_zip (hlen bs hbs), List.map_snd_zip (hlen cs hcs)] at hvalues

theorem length_models_le {r : Result Int α} {ms : List Assignment} (h : r.models = .ok ms) :
    ms.length ≤ 2 ^ r.varMap.size := by
  obtain ⟨sel, hsel, rfl⟩ := exists_rows h
  rw [List.length_map, ← length_rows]
  exact hsel.length_le

/-- The rows with a property of their assignments belong to the assignments of the variables that have it. -/
theorem mem_map_ofRow {r : Result Int α} {P : Assignment → Prop} {sel : List (List Bool)}
    (h : ∀ bs, bs ∈ sel ↔ bs ∈ rows r.varMap.size ∧ P (r.ofRow bs)) (a : Assignment) :
    a ∈ sel.map r.ofRow ↔ a.keys = r.varMap.keys ∧ P a := by
  rw [List.mem_map]
  constructor
  · rintro ⟨bs, hbs, rfl⟩
    obtain ⟨hrow, hP⟩ := (h bs).1 hbs
    have hlen : r.varMap.keys.length = bs.length := by
      rw [mem_rows.1 hrow]
      exact List.length_map _
    exact ⟨map_fst_zip hlen, hP⟩
  · rintro ⟨hkeys, hP⟩
    refine ⟨a.values, (h _).2 ⟨mem_rows.2 ?_, ?_⟩, ofRow_values hkeys⟩
    · have := congrArg List.length hkeys
      simpa [Table.values, Table.keys, Table.size] using this
    · rw [ofRow_values hkeys]
      exact hP

/-- The models are the assignments of the variables that extend to a solution of the formula. -/
theorem models_eq_ok {r : Result Int α} (hr : r.Sound) :
    ∃ ms, r.models = .ok ms ∧
      ∀ a, a ∈ ms ↔ a.keys = r.varMap.keys ∧ ∃ τ, r.Gives a τ ∧ Cnf.Satisfies τ r.clauses := by
  have hrows : ∀ bs ∈ rows r.varMap.size,
      Decides (r.isModelRow bs) (∃ τ, r.Gives (r.ofRow bs) τ ∧ Cnf.Satisfies τ r.clauses) :=
    fun bs hbs => isModelRow_decides hr (mem_rows.1 hbs)
  obtain ⟨sel, hsel, hmem⟩ := selectRows_eq_ok hrows
  refine ⟨sel.map r.ofRow, ?_, mem_map_ofRow hmem⟩
  unfold models
  rw [hsel]
  rfl

/-- Results for the same variables that admit the same assignments have the same models, in the same order. -/
theorem models_congr {r r' : Result Int α} (hr : r.Sound) (hr' : r'.Sound) (hkeys : r'.varMap.keys = r.varMap.keys)
    (h : ∀ a, r'.Admits a ↔ r.Admits a) : r'.models = r.models := by
  have hsize : r'.varMap.size = r.varMap.size := by
    have := congrArg List.length hkeys
    simpa [Table.keys, Table.size] using this
  have hrow (bs : List Bool) : r'.ofRow bs = r.ofRow bs := by
    refine Table.ext ?_
    show r'.varMap.keys.zip bs = r.varMap.keys.zip bs
    rw [hkeys]
  have hselect : selectRows r'.isModelRow (rows r.varMap.size) = selectRows r.isModelRow (rows r.varMap.size) := by
    refine selectRows_congr fun bs hbs => ?_
    have hlen := mem_rows.1 hbs
    refine (isModelRow_decides hr' (hlen.trans hsize.symm)).eq (isModelRow_decides hr hlen) ?_
    rw [hrow]
    exact h (r.ofRow bs)
  unfold models
  rw [hsize, hselect, funext hrow]

end Result

end Clausify
