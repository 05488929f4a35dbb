import Clausify.Proofs.Solving

/-!
# Assignments and models

An assignment of the variables of a result becomes a list of signed indices, and such a list is read as an assignment.
The indices of different variables are different and positive, so the index of a variable is in the list with the sign
of its value, and in no other way (`Result.signed_mem_literals_iff`).  Hence the one translation undoes the other:
what an assignment leaves open is read as false, and of a list the indices of the variables are left
(`Result.literals_ofModel_inverse`).
-/

namespace Clausify.Result

variable {α : Type} {r : Result Int α} {a : Assignment} {ls : List Int} {v : Value} {i : Int}

/-! ### The list of an assignment -/

theorem literals_eq_ok : r.literals a = .ok ls ↔
    List.Forall₂ (fun e l => ∃ i, r.varMap.find? e.1 = some i ∧ l = if e.2 then i else -i) a.entries ls := by
  refine mapM_eq_ok.trans (iff_of_eq ?_)
  congr 1
  funext e l
  obtain ⟨v, b⟩ := e
  dsimp only
  cases r.varMap.find? v with
  | none => simp
  | some i => cases b <;> simp [eq_comm]

theorem exists_literals_eq_ok (ha : ∀ v ∈ a.keys, r.varMap.contains v = true) : ∃ ls, r.literals a = .ok ls := by
  obtain ⟨ls, hls⟩ := exists_forall₂ (R := fun (e : Value × Bool) (l : Int) =>
    ∃ i, r.varMap.find? e.1 = some i ∧ l = if e.2 then i else -i) fun e he => by
      obtain ⟨i, hi⟩ := Table.exists_find?_of_contains (ha e.1 (List.mem_map_of_mem he))
      exact ⟨_, i, hi, rfl⟩
  exact ⟨ls, literals_eq_ok.2 hls⟩

theorem mem_literals_iff (hls : r.literals a = .ok ls) {l : Int} :
    l ∈ ls ↔ ∃ e ∈ a.entries, ∃ i, r.varMap.find? e.1 = some i ∧ l = if e.2 then i else -i := by
  have h := literals_eq_ok.1 hls
  refine ⟨exists_mem_of_forall₂ h, ?_⟩
  rintro ⟨e, he, i, hi, rfl⟩
  obtain ⟨l, hl, j, hj, rfl⟩ := exists_mem_of_forall₂ h.flip he
  rw [hi] at hj
  cases hj
  exact hl

/-- The signed index of a variable is in the list exactly if the assignment gives the variable the value. -/
theorem signed_mem_literals_iff (hn : r.varMap.values.Nodup) (hpos : ∀ i ∈ r.varMap.values, 0 < i)
    (hls : r.literals a = .ok ls) (hv : (v, i) ∈ r.varMap.entries) (b : Bool) :
    (if b then i else -i) ∈ ls ↔ a.find? v = some b := by
  have hi : 0 < i := hpos i (List.mem_map_of_mem (f := (·.2)) hv)
  rw [mem_literals_iff hls, Table.find?_eq_some_iff]
  constructor
  · rintro ⟨⟨w, c⟩, hw, j, hj, heq⟩
    obtain ⟨u, hu, huw⟩ := Table.find?_eq_some_iff.1 hj
    have hj : 0 < j := hpos j (List.mem_map_of_mem (f := (·.2)) hu)
    -- positive indices with the same sign are the same
    have hij : i = j ∧ b = c := by
      cases b <;> cases c <;> simp at heq ⊢ <;> omega
    obtain ⟨rfl, rfl⟩ := hij
    have huv : (u, i) = (v, i) := List.inj_on_of_nodup_map hn hu hv rfl
    cases huv
    exact ⟨w, hw, Value.same_symm huw⟩
  · rintro ⟨w, hw, hwv⟩
    refine ⟨(w, b), hw, i, ?_, rfl⟩
    exact (r.varMap.find?_congr hwv).trans (Table.find?_of_mem hv)

/-! ### The assignment of a list -/

private theorem valueOf_eq (hi : 0 < i) {b : Bool} (h : (if b then i else -i) ∈ ls)
    (h' : (if !b then i else -i) ∉ ls) : valueOf ls i = b := by
  refine (Cnf.holds_signed hi b).1 (holds_valueOf h ?_)
  cases b with
  | true => exact h'
  | false =>
    show - -i ∉ ls
    rw [Int.neg_neg]
    exact h'

/-- What the list says nothing about is false. -/
private theorem valueOf_of_not_mem (hi : 0 < i) (h : ∀ b : Bool, (if b then i else -i) ∉ ls) :
    valueOf ls i = false := by
  unfold valueOf modelValue
  cases hf : (ls.map fun l => ((l.natAbs : Int), l)).reverse.find? fun p => Index.same p.1 i with
  | none => rfl
  | some p =>
    obtain ⟨l, hl, rfl⟩ := List.mem_map.1 (List.mem_reverse.1 (List.mem_of_find?_eq_some hf))
    have habs : (l.natAbs : Int) = i := by simpa using List.find?_some hf
    exfalso
    rcases (by omega : l = i ∨ l = -i) with rfl | rfl
    · exact h true hl
    · exact h false hl

private theorem valueOf_literals (hn : r.varMap.values.Nodup) (hpos : ∀ i ∈ r.varMap.values, 0 < i)
    (hls : r.literals a = .ok ls) (hv : (v, i) ∈ r.varMap.entries) : valueOf ls i = (a.find? v).getD false := by
  have hi : 0 < i := hpos i (List.mem_map_of_mem (f := (·.2)) hv)
  have hmem (b : Bool) := signed_mem_literals_iff hn hpos hls hv b
  cases ha : a.find? v with
  | none =>
    refine valueOf_of_not_mem hi fun b hb => ?_
    rw [hmem, ha] at hb
    cases hb
  | some b =>
    refine valueOf_eq hi ((hmem b).2 ha) fun hb => ?_
    rw [hmem, ha] at hb
    cases b <;> cases hb

/-- Where an index has exactly one sign in the list, that sign is its value. -/
private theorem valueOf_eq_iff (hi : 0 < i) (h : i ∈ ls ↔ -i ∉ ls) (b : Bool) :
    valueOf ls i = b ↔ (if b then i else -i) ∈ ls := by
  have hvalue (c : Bool) (hc : (if c then i else -i) ∈ ls) : valueOf ls i = c := by
    refine valueOf_eq hi hc ?_
    cases c with
    | true => exact h.1 hc
    | false => exact fun hi => h.1 hi hc
  refine ⟨?_, hvalue b⟩
  rintro rfl
  by_cases hmem : i ∈ ls
  · rw [hvalue true hmem]
    exact hmem
  · have hneg : -i ∈ ls := by
      by_contra hneg
      exact hmem (h.2 hneg)
    rw [hvalue false hneg]
    exact hneg

/-! ### There and back -/

private theorem natAbs_eq_iff (hi : 0 < i) {l : Int} :
    (l.natAbs : Int) = i ↔ ∃ b : Bool, l = if b then i else -i := by
  constructor
  · intro h
    rcases (by omega : l = i ∨ l = -i) with rfl | rfl
    · exact ⟨true, rfl⟩
    · exact ⟨false, rfl⟩
  · rintro ⟨b, rfl⟩
    split <;> omega

private theorem mem_literals_reading (hpos : ∀ i ∈ r.varMap.values, 0 < i) {model : List Int}
    (hmodel : ∀ i ∈ r.varMap.values, i ∈ model ↔ -i ∉ model) (hls : r.literals (r.reading model) = .ok ls) {l : Int} :
    l ∈ ls ↔ l ∈ model ∧ (l.natAbs : Int) ∈ r.varMap.values := by
  have hmem {v : Value} {i : Int} (hv : (v, i) ∈ r.varMap.entries) : i ∈ r.varMap.values :=
    List.mem_map_of_mem (f := (·.2)) hv
  have hvalue {v : Value} {i : Int} (hv : (v, i) ∈ r.varMap.entries) (b : Bool) :
      valueOf model i = b ↔ (if b then i else -i) ∈ model :=
    valueOf_eq_iff (hpos i (hmem hv)) (hmodel i (hmem hv)) b
  rw [mem_literals_iff hls]
  constructor
  · rintro ⟨e, he, i, hi, rfl⟩
    obtain ⟨⟨v, j⟩, hv, rfl⟩ := List.mem_map.1 he
    rw [Table.find?_of_mem hv] at hi
    cases hi
    refine ⟨(hvalue hv _).1 rfl, ?_⟩
    rw [(natAbs_eq_iff (hpos _ (hmem hv))).2 ⟨_, rfl⟩]
    exact hmem hv
  · rintro ⟨hl, hi⟩
    obtain ⟨⟨v, i⟩, hv, hil⟩ := List.mem_map.1 hi
    obtain ⟨b, rfl⟩ := (natAbs_eq_iff (hpos i (hmem hv))).1 hil.symm
    refine ⟨(v, valueOf model i), List.mem_map_of_mem hv, i, Table.find?_of_mem hv, ?_⟩
    rw [(hvalue hv b).2 hl]

/-- Where different variables have different positive indices, reading the list of an assignment gives the assignment
back, with false for the variables that it leaves open; so it is the same assignment if there are none.  A list that
has each index of a variable with one sign is read as an assignment whose list has the same signed indices of
variables and no others. -/
theorem literals_ofModel_inverse (hn : r.varMap.values.Nodup) (hpos : ∀ i ∈ r.varMap.values, 0 < i) :
    (∀ a : Assignment, (∀ v ∈ a.keys, r.varMap.contains v = true) →
      ∃ ls m, r.literals a = .ok ls ∧ r.ofModel ls = .ok m ∧ m.keys = r.varMap.keys ∧
        (∀ v, r.varMap.contains v = true → m.find? v = some ((a.find? v).getD false)) ∧
        ((∀ v ∈ r.varMap.keys, a.contains v = true) → ∀ v, m.find? v = a.find? v)) ∧
    (∀ model : List Int, (∀ i ∈ r.varMap.values, i ∈ model ↔ -i ∉ model) →
      ∃ m ls, r.ofModel model = .ok m ∧ r.literals m = .ok ls ∧
        ∀ l, l ∈ ls ↔ l ∈ model ∧ (l.natAbs : Int) ∈ r.varMap.values) := by
  have hkeys (model : List Int) : (r.reading model).keys = r.varMap.keys := Table.keys_map _ _
  refine ⟨fun a ha => ?_, fun model hmodel => ?_⟩
  · obtain ⟨ls, hls⟩ := exists_literals_eq_ok ha
    have hfind : ∀ v, r.varMap.contains v = true → (r.reading ls).find? v = some ((a.find? v).getD false) := by
      intro v hv
      obtain ⟨i, hi⟩ := Table.exists_find?_of_contains hv
      obtain ⟨k, hk, hkv⟩ := Table.find?_eq_some_iff.1 hi
      rw [← Table.find?_congr _ hkv, ← Table.find?_congr _ hkv, find?_reading hk, valueOf_literals hn hpos hls hk]
    refine ⟨ls, _, hls, r.ofModel_eq_ok ls, hkeys ls, hfind, fun htotal v => ?_⟩
    cases hv : r.varMap.contains v with
    | true =>
      obtain ⟨k, hk, hkv⟩ := Table.contains_iff.1 hv
      obtain ⟨b, hb⟩ := Table.exists_find?_of_contains (htotal k hk)
      have hread := hfind v hv
      rw [← a.find?_congr hkv, hb, Option.getD_some] at hread
      rw [← a.find?_congr hkv, hb]
      exact hread
    | false =>
      have hm : (r.reading ls).contains v = false := by
        rw [Table.contains_congr (hkeys ls), hv]
      have ha : a.contains v = false := by
        refine Bool.eq_false_iff.2 fun hav => Bool.eq_false_iff.1 hv ?_
        obtain ⟨k, hk, hkv⟩ := Table.contains_iff.1 hav
        obtain ⟨u, hu, huk⟩ := Table.contains_iff.1 (ha k hk)
        exact Table.contains_iff.2 ⟨u, hu, Value.same_trans huk hkv⟩
      exact (Table.find?_eq_none_iff.2 hm).trans (Table.find?_eq_none_iff.2 ha).symm
  · obtain ⟨ls, hls⟩ := exists_literals_eq_ok (r := r) (a := r.reading model) fun v hv => by
      rw [hkeys] at hv
      exact Table.contains_iff.2 ⟨v, hv, Value.same_refl v⟩
    exact ⟨_, ls, r.ofModel_eq_ok model, hls, fun l => mem_literals_reading hpos hmodel hls⟩

/-- An assignment of the second variable only, and a list with an auxiliary index. -/
theorem literals_ofModel_inverse_of_partial_assignment :
    let r : Result Int Unit := ⟨(), [[2, -3]], .ofList [(.str "a", 2), (.str "b", 1)], 3⟩
    let a : Assignment := .ofList [(.str "b", true)]
    (∃ ls m, r.literals a = .ok ls ∧ r.ofModel ls = .ok m ∧ m.find? (.str "a") = some false ∧
      m.find? (.str "b") = some true) ∧
    ∃ m ls, r.ofModel [3, -2, 1] = .ok m ∧ r.literals m = .ok ls ∧ -2 ∈ ls ∧ 3 ∉ ls := by
  intro r a
  have hn : r.varMap.values.Nodup := by decide
  have hpos : ∀ i ∈ r.varMap.values, 0 < i := by decide
  obtain ⟨hback, hlist⟩ := literals_ofModel_inverse hn hpos
  obtain ⟨ls, m, hls, hm, -, hfind, -⟩ := hback a (by decide)
  obtain ⟨m', ls', hm', hls', hmem⟩ := hlist [3, -2, 1] (by decide)
  refine ⟨⟨ls, m, hls, hm, hfind _ (by decide), hfind _ (by decide)⟩, m', ls', hm', hls', ?_, ?_⟩
  · exact (hmem (-2)).2 (by decide)
  · exact fun h => absurd ((hmem 3).1 h) (by decide)

end Clausify.Result
