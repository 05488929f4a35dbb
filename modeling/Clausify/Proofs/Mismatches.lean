import Clausify.Proofs.BruteForce

/-!
# What brute force reports

An assignment with values for the variables is a model exactly if it extends to a solution (`Result.isModel_decides`).
The models and the mismatches with a predicate are both selected from the rows, which are in lexicographic order, by a
test that never fails (`Result.exists_selected`), so each is reported once and in this order, and there is no mismatch
exactly if the models are what the predicate says (`Result.brute_force_reports`).
-/

namespace Clausify

/-- Whether two answers differ is decided by both. -/
private theorem Decides.differ {ε : Type} {x y : Except ε Bool} {p q : Prop} (hx : Decides x p) (hy : Decides y q) :
    Decides (do return (← x) != (← y)) (¬(p ↔ q)) := by
  obtain ⟨b, rfl, hp⟩ := hx
  obtain ⟨c, rfl, hq⟩ := hy
  refine ⟨b != c, rfl, ?_⟩
  rw [bne_iff_ne, ne_eq, Bool.eq_iff_iff, hp, hq]

/-- The rows come in lexicographic order, false before true. -/
private theorem pairwise_rows (n : Nat) : (rows n).Pairwise (· < ·) := by
  induction n with
  | zero => exact List.pairwise_singleton _ _
  | succ n ih =>
    have hcons (b : Bool) : ((rows n).map (b :: ·)).Pairwise (· < ·) :=
      List.pairwise_map.2 (ih.imp fun h => List.Lex.cons h)
    rw [rows, List.pairwise_append]
    refine ⟨hcons false, hcons true, fun bs hbs cs hcs => ?_⟩
    obtain ⟨bs, -, rfl⟩ := List.mem_map.1 hbs
    obtain ⟨cs, -, rfl⟩ := List.mem_map.1 hcs
    exact List.Lex.rel rfl

namespace Result

variable {α : Type} {r : Result Int α} {a : Assignment}

/-! ### One assignment -/

/-- The row of an assignment gives the variables the same values. -/
private theorem row_eq_ok (ha : ∀ v ∈ r.varMap.keys, a.contains v = true) :
    ∃ bs, r.row a = .ok bs ∧ bs.length = r.varMap.size ∧ ∀ τ, r.Gives (r.ofRow bs) τ ↔ r.Gives a τ := by
  have hvalue : ∀ e ∈ r.varMap.entries, a.find? e.1 = some ((a.find? e.1).getD false) := by
    intro e he
    obtain ⟨b, hb⟩ := Table.exists_find?_of_contains (ha e.1 (List.mem_map_of_mem he))
    rw [hb, Option.getD_some]
  refine ⟨r.varMap.entries.map fun e => (a.find? e.1).getD false, ?_, List.length_map _, fun τ => ?_⟩
  · refine mapM_eq_ok.2 (List.forall₂_map_right_iff.2 (List.forall₂_same.2 fun ⟨v, i⟩ he => ?_))
    dsimp only
    rw [hvalue (v, i) he]
    exact if_pos (Index.hashable_int i)
  · refine forall₂_congr fun e he => ?_
    have hmem : (e.1, (a.find? e.1).getD false) ∈
        (r.ofRow (r.varMap.entries.map fun e => (a.find? e.1).getD false)).entries := by
      show _ ∈ (r.varMap.entries.map (·.1)).zip _
      rw [List.zip_map']
      exact List.mem_map_of_mem he
    rw [Table.find?_of_mem hmem, ← hvalue e he]

theorem isModel_decides (hr : r.Sound) (ha : ∀ v ∈ r.varMap.keys, a.contains v = true) :
    Decides (r.isModel a) (r.Admits a) := by
  obtain ⟨bs, hbs, hlen, hgives⟩ := row_eq_ok ha
  unfold isModel
  rw [hbs]
  refine (isModelRow_decides hr hlen).congr ?_
  unfold Admits
  simp only [hgives]

/-! ### Selected assignments -/

/-- A test of rows that never fails selects the assignments that pass it, in order. -/
theorem exists_selected {f : List Bool → Except Error Bool} {P : Assignment → Prop}
    (h : ∀ bs, bs.length = r.varMap.size → Decides (f bs) (P (r.ofRow bs))) :
    ∃ sel, selectRows f (rows r.varMap.size) = .ok sel ∧
      (∀ a, a ∈ sel.map r.ofRow ↔ a.keys = r.varMap.keys ∧ P a) ∧
      (sel.map r.ofRow).Pairwise fun a b => a.values < b.values := by
  obtain ⟨sel, hsel, hmem⟩ := selectRows_eq_ok fun bs hbs => h bs (mem_rows.1 hbs)
  refine ⟨sel, hsel, mem_map_ofRow hmem, List.pairwise_map.2 ?_⟩
  have hvalues : ∀ bs ∈ sel, (r.ofRow bs).values = bs := by
    intro bs hbs
    refine List.map_snd_zip (Nat.le_of_eq ?_)
    rw [mem_rows.1 ((hmem bs).1 hbs).1]
    exact (List.length_map _).symm
  refine ((pairwise_rows _).sublist (selectRows_sublist hsel)).imp_of_mem fun hb hc hlt => ?_
  rwa [hvalues _ hb, hvalues _ hc]

private theorem nodup_of_pairwise_values {as : List Assignment} (h : as.Pairwise fun a b => a.values < b.values) :
    as.Nodup := by
  refine h.imp fun {a b} hlt hab => ?_
  rw [hab] at hlt
  exact List.lex_irrefl Bool.lt_irrefl _ hlt

/-- The mismatches with a predicate that answers on the assignments of the variables. -/
private theorem mismatches_eq_ok (hr : r.Sound) {p : Assignment → Except Error Bool} {P : Assignment → Prop}
    (hp : ∀ a, a.keys = r.varMap.keys → Decides (p a) (P a)) :
    ∃ ds, r.mismatches p = .ok ds ∧ (∀ a, a ∈ ds ↔ a.keys = r.varMap.keys ∧ ¬(r.Admits a ↔ P a)) ∧
      ds.Pairwise fun a b => a.values < b.values := by
  have hdiffers (bs : List Bool) (hbs : bs.length = r.varMap.size) :
      Decides (do return (← r.isModelRow bs) != (← p (r.ofRow bs))) (¬(r.Admits (r.ofRow bs) ↔ P (r.ofRow bs))) := by
    refine (isModelRow_decides hr hbs).differ (hp _ (List.map_fst_zip (Nat.le_of_eq ?_)))
    rw [hbs]
    exact List.length_map _
  obtain ⟨sel, hsel, hmem, hsorted⟩ := exists_selected (P := fun a => ¬(r.Admits a ↔ P a)) hdiffers
  exact ⟨sel.map r.ofRow, bind_eq_ok.2 ⟨sel, hsel, rfl⟩, hmem, hsorted⟩

private theorem isEquivalent_eq_ok {p : Assignment → Except Error Bool} {ds : List Assignment}
    (h : r.mismatches p = .ok ds) : ∃ b, r.isEquivalent p = .ok b ∧ (b = true ↔ ∀ a, a ∉ ds) := by
  refine ⟨ds.isEmpty, bind_eq_ok.2 ⟨ds, h, rfl⟩, ?_⟩
  rw [List.isEmpty_iff, List.eq_nil_iff_forall_not_mem]

/-- Brute force is right for any result of which the variables have different indices and the clauses nonzero literals
up to the number of variables.  It tells whether the values of an assignment for the variables extend to values of all
indices that satisfy the clauses.  It lists the assignments of the variables for which this is so, and those on which
it differs from a predicate, each once and in lexicographic order with false before true. -/
theorem brute_force_reports {α : Type} {r : Result Int α} (hnodup : r.varMap.values.Nodup)
    (hlits : ∀ c ∈ r.clauses, ∀ l ∈ c, l ≠ 0 ∧ (l.natAbs : Int) ≤ r.numVars) :
    (∀ a : Assignment, (∀ v ∈ r.varMap.keys, a.contains v = true) →
      ∃ b, r.isModel a = .ok b ∧ (b = true ↔ ∃ τ, r.Gives a τ ∧ Cnf.Satisfies τ r.clauses)) ∧
    ∃ ms, r.models = .ok ms ∧ (∀ a, a ∈ ms ↔ a.keys = r.varMap.keys ∧ r.isModel a = .ok true) ∧ ms.Nodup ∧
      (ms.Pairwise fun a b => a.values < b.values) ∧
      ∀ (p : Assignment → Except Error Bool) (P : Assignment → Prop),
        (∀ a, a.keys = r.varMap.keys → ∃ b, p a = .ok b ∧ (b = true ↔ P a)) →
        ∃ ds b, r.mismatches p = .ok ds ∧ (∀ a, a ∈ ds ↔ a.keys = r.varMap.keys ∧ ¬(a ∈ ms ↔ P a)) ∧ ds.Nodup ∧
          (ds.Pairwise fun a b => a.values < b.values) ∧
          r.isEquivalent p = .ok b ∧ (b = true ↔ ∀ a, a.keys = r.varMap.keys → (a ∈ ms ↔ P a)) := by
  have hr : r.Sound := by
    refine ⟨hnodup, fun c hc l hl => ?_⟩
    have := hlits c hc l hl
    omega
  obtain ⟨sel, hsel, hmem, hsorted⟩ := exists_selected (P := r.Admits) fun bs hbs => isModelRow_decides hr hbs
  have hms (a : Assignment) (ha : a.keys = r.varMap.keys) : a ∈ sel.map r.ofRow ↔ r.Admits a := by
    rw [hmem, and_iff_right ha]
  refine ⟨fun a ha => isModel_decides hr ha, sel.map r.ofRow, bind_eq_ok.2 ⟨sel, hsel, rfl⟩, fun a => ?_,
    nodup_of_pairwise_values hsorted, hsorted, fun p P hp => ?_⟩
  · rw [hmem]
    refine and_congr_right fun ha => ?_
    have hcontains : ∀ v ∈ r.varMap.keys, a.contains v = true := fun v hv =>
      Table.contains_iff.2 ⟨v, ha ▸ hv, Value.same_refl v⟩
    obtain ⟨b, hb, hadmits⟩ := isModel_decides hr hcontains
    rw [hb, ← hadmits, Except.ok.injEq]
  · obtain ⟨ds, hds, hdiffer, hds_sorted⟩ := mismatches_eq_ok hr hp
    obtain ⟨b, hb, hempty⟩ := isEquivalent_eq_ok hds
    have hdiffer' (a : Assignment) : a ∈ ds ↔ a.keys = r.varMap.keys ∧ ¬(a ∈ sel.map r.ofRow ↔ P a) := by
      rw [hdiffer]
      refine and_congr_right fun ha => ?_
      rw [hms a ha]
    refine ⟨ds, b, hds, hdiffer', nodup_of_pairwise_values hds_sorted, hds_sorted, hb, hempty.trans ?_⟩
    refine forall_congr' fun a => ?_
    rw [hdiffer', not_and, not_not]

/-- A temporary that implies `b` where `a` fails leaves the models of `a` or `b`.  The exclusive or differs from it
where both hold. -/
theorem brute_force_reports_of_temporary :
    let r : Result Int Unit := ⟨(), [[1, 3], [-3, 2]], ⟨[(.str "a", 1), (.str "b", 2)], by decide⟩, 3⟩
    let row (a b : Bool) : Assignment := ⟨[(.str "a", a), (.str "b", b)], by simp; decide⟩
    let exactlyOne (a : Assignment) : Bool := a.values.count true == 1
    (∃ τ, r.Gives (row false true) τ ∧ Cnf.Satisfies τ r.clauses) ∧
      r.models = .ok [row false true, row true false, row true true] ∧
      r.mismatches (fun a => .ok (exactlyOne a)) = .ok [row true true] ∧
      r.isEquivalent (fun a => .ok (exactlyOne a)) = .ok false ∧
      ¬∀ a, a.keys = r.varMap.keys → (a ∈ [row false true, row true false, row true true] ↔ exactlyOne a = true) := by
  intro r row exactlyOne
  obtain ⟨hmodel, ms, hms, -, -, -, hpredicate⟩ := brute_force_reports (r := r) (by decide) (by decide)
  have hms' : r.models = .ok [row false true, row true false, row true true] := rfl
  cases hms.symm.trans hms'
  obtain ⟨b, hb, hextends⟩ := hmodel (row false true) (by decide)
  obtain ⟨ds, e, hds, -, -, -, he, hequivalent⟩ :=
    hpredicate (fun a => .ok (exactlyOne a)) (fun a => exactlyOne a = true) fun a _ => ⟨exactlyOne a, rfl, Iff.rfl⟩
  have he' : r.isEquivalent (fun a => .ok (exactlyOne a)) = .ok false := rfl
  have hb' : r.isModel (row false true) = .ok true := rfl
  cases he.symm.trans he'
  cases hb.symm.trans hb'
  exact ⟨hextends.1 rfl, hms, rfl, he, fun h => Bool.false_ne_true (hequivalent.2 h)⟩

end Result

end Clausify
