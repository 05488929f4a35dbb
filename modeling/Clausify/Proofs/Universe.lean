import Clausify.VarMap
import Clausify.Proofs.Success
import Mathlib.Data.List.Nodup
import Mathlib.Data.List.Pairwise
import Mathlib.Data.List.Perm.Basic

/-!
# The map of a universe

A table finds for each of its keys the one entry under it (`find?_eq_some_iff`).  A universe is accepted if its
variables are hashable and pairwise different, and is then numbered in order (`enumerate_eq_ok`).  The map that a
universe gets has the universe as its keys, in order, and pairwise different indices from 1 to their number
(`ofUniverse_spec`), also with an embedding.
-/

namespace Clausify

/-! ### Same values -/

namespace Value

mutual

private theorem unhashable?_canon (v : Value) : v.canon.unhashable? = v.unhashable?.map canon := by
  cases v with
  | float bits =>
    rw [canon]
    split <;> rfl
  | tuple items =>
    rw [canon, unhashable?, unhashable?]
    exact unhashableIn?_canonAll items
  | lit v p =>
    rw [canon, unhashable?, unhashable?]
    exact unhashable?_canon v
  | foreign v p =>
    rw [canon, unhashable?, unhashable?]
    exact unhashable?_canon v
  | outer v =>
    rw [canon, unhashable?, unhashable?]
    exact unhashable?_canon v
  | snapshot i n as cs =>
    rw [canon, unhashable?, unhashable?]
    exact unhashableIn?_canonAll as
  | _ => rfl

private theorem unhashableIn?_canonAll (vs : List Value) :
    unhashableIn? (canonAll vs) = (unhashableIn? vs).map canon := by
  cases vs with
  | nil => rfl
  | cons v vs =>
    rw [canonAll, unhashableIn?, unhashableIn?, unhashable?_canon v, unhashableIn?_canonAll vs, Option.map_or]

end

private theorem hashable_canon (v : Value) : v.canon.hashable = v.hashable := by
  unfold hashable
  rw [unhashable?_canon, Option.isNone_map]

theorem hashable_of_same {v w : Value} (h : v.same w = true) (hv : v.hashable = true) : w.hashable = true := by
  rw [← hashable_canon, ← same_iff.1 h, hashable_canon, hv]

end Value

/-- What is left without repetitions is pairwise different. -/
theorem nodup_eraseDups {α : Type} [BEq α] [LawfulBEq α] (xs : List α) : xs.eraseDups.Nodup := by
  induction hn : xs.length using Nat.strongRecOn generalizing xs with
  | ind n ih =>
    cases xs with
    | nil => exact List.nodup_nil
    | cons x xs =>
      rw [List.eraseDups_cons, List.nodup_cons, List.mem_eraseDups, List.mem_filter]
      refine ⟨by simp, ih _ ?_ _ rfl⟩
      have := List.length_filter_le (fun y => !y == x) xs
      rw [← hn, List.length_cons]
      omega

/-! ### Tables -/

namespace Table

variable {α : Type}

theorem ext {t u : Table α} (h : t.entries = u.entries) : t = u := by
  cases t
  cases u
  cases h
  rfl

private theorem eq_of_same (t : Table α) {e f : Value × α} (he : e ∈ t.entries) (hf : f ∈ t.entries)
    (h : e.1.same f.1 = true) : e = f := by
  have hp : t.entries.Pairwise fun e f => e.1.same f.1 = false := List.pairwise_map.1 t.distinct
  have : Std.Symm fun e f : Value × α => e.1.same f.1 = false :=
    ⟨fun e f h => Bool.eq_false_iff.2 fun h' => Bool.eq_false_iff.1 h (Value.same_symm h')⟩
  by_contra hne
  have := hp.forall he hf hne
  rw [h] at this
  cases this

theorem find?_eq_some_iff {t : Table α} {v : Value} {a : α} :
    t.find? v = some a ↔ ∃ k, (k, a) ∈ t.entries ∧ k.same v = true := by
  unfold find?
  rw [Option.map_eq_some_iff]
  constructor
  · rintro ⟨e, he, rfl⟩
    exact ⟨e.1, List.mem_of_find?_eq_some he, List.find?_some (p := fun e : Value × α => e.1.same v) he⟩
  · rintro ⟨k, hk, hs⟩
    cases hf : t.entries.find? (·.1.same v) with
    | none => exact absurd hs (List.find?_eq_none.1 hf _ hk)
    | some e =>
      have hes : e.1.same v = true := List.find?_some (p := fun e : Value × α => e.1.same v) hf
      have : e = (k, a) := t.eq_of_same (List.mem_of_find?_eq_some hf) hk (Value.same_trans hes (Value.same_symm hs))
      exact ⟨e, rfl, by rw [this]⟩

theorem find?_congr (t : Table α) {v w : Value} (h : v.same w = true) : t.find? v = t.find? w := by
  refine Option.ext fun a => ?_
  rw [find?_eq_some_iff, find?_eq_some_iff]
  refine exists_congr fun k => and_congr_right fun _ => ?_
  exact ⟨fun hk => Value.same_trans hk h, fun hk => Value.same_trans hk (Value.same_symm h)⟩

theorem find?_of_mem {t : Table α} {v : Value} {a : α} (h : (v, a) ∈ t.entries) : t.find? v = some a :=
  find?_eq_some_iff.2 ⟨v, h, Value.same_refl v⟩

theorem contains_iff {t : Table α} {v : Value} : t.contains v = true ↔ ∃ k ∈ t.keys, k.same v = true := by
  unfold contains keys
  simp only [List.any_eq_true, List.mem_map, exists_exists_and_eq_and]

theorem contains_congr {β : Type} {t : Table α} {u : Table β} (h : t.keys = u.keys) (v : Value) :
    t.contains v = u.contains v := by
  rw [Bool.eq_iff_iff, contains_iff, contains_iff, h]

theorem exists_find?_of_contains {t : Table α} {v : Value} (h : t.contains v = true) : ∃ a, t.find? v = some a := by
  obtain ⟨k, hk, hs⟩ := contains_iff.1 h
  obtain ⟨e, he, rfl⟩ := List.mem_map.1 hk
  exact ⟨e.2, find?_eq_some_iff.2 ⟨e.1, he, hs⟩⟩

theorem find?_eq_none_iff {t : Table α} {v : Value} : t.find? v = none ↔ t.contains v = false := by
  unfold find? contains
  rw [Option.map_eq_none_iff, List.find?_eq_none, List.any_eq_false]

/-- Tables with the same keys in the same order that find the same data are equal. -/
theorem ext_find? {t u : Table α} (hk : t.keys = u.keys) (h : ∀ v ∈ t.keys, t.find? v = u.find? v) : t = u := by
  have hentries (w : Table α) : w.entries.map (fun e => (e.1, some e.2)) = w.keys.map fun v => (v, w.find? v) := by
    unfold keys
    rw [List.map_map]
    refine List.map_congr_left fun e he => ?_
    exact congrArg (Prod.mk e.1) (find?_of_mem he).symm
  have hsome : Function.Injective fun e : Value × α => (e.1, some e.2) := by
    intro e f hef
    obtain ⟨h1, h2⟩ := Prod.mk.inj hef
    exact Prod.ext h1 (Option.some.inj h2)
  refine ext (hsome.list_map ?_)
  rw [hentries t, hentries u, ← hk]
  exact List.map_congr_left fun v hv => congrArg (Prod.mk v) (h v hv)

theorem keys_map {β : Type} (f : Value → α → β) (t : Table α) : (t.map f).keys = t.keys := by
  simp [keys, map]

private theorem entries_insert {t : Table α} {v : Value} (h : t.contains v = false) (a : α) :
    (t.insert v a).entries = t.entries ++ [(v, a)] := by
  show enter v a t.entries = _
  unfold contains at h
  generalize t.entries = es at h ⊢
  induction es with
  | nil => rfl
  | cons e es ih =>
    rw [List.any_cons, Bool.or_eq_false_iff] at h
    rw [enter, if_neg (by simp [h.1]), ih h.2, List.cons_append]

end Table

/-! ### Numbering -/

namespace VarMap

/-- The variables with the numbers from `i + 1` on. -/
def numbered (vars : List Value) (i : Nat) : List (Value × Int) :=
  (vars.zipIdx i).map fun e => (e.1, (e.2 : Int) + 1)

@[simp] theorem numbered_cons (v : Value) (vars : List Value) (i : Nat) :
    numbered (v :: vars) i = (v, (i : Int) + 1) :: numbered vars (i + 1) := rfl

theorem numbered_fst (vars : List Value) (i : Nat) : (numbered vars i).map (·.1) = vars := by
  induction vars generalizing i with
  | nil => rfl
  | cons v vars ih => rw [numbered_cons, List.map_cons, ih]

theorem numbered_snd (vars : List Value) (i : Nat) :
    (numbered vars i).map (·.2) = (List.range' i vars.length).map fun (n : Nat) => (n + 1 : Int) := by
  induction vars generalizing i with
  | nil => rfl
  | cons v vars ih => rw [numbered_cons, List.map_cons, ih, List.length_cons, List.range'_succ, List.map_cons]

private theorem number_eq_ok {t u : Table Int} {v : Value} :
    number t v = .ok u ↔
      v.hashable = true ∧ t.contains v = false ∧ u.entries = t.entries ++ [(v, (t.size : Int) + 1)] := by
  unfold number Value.hashable
  cases v.unhashable? with
  | some part =>
    constructor
    · intro h
      cases h
    · rintro ⟨h, -⟩
      cases h
  | none =>
    cases hc : t.contains v with
    | true =>
      constructor
      · intro h
        cases h
      · rintro ⟨-, h, -⟩
        cases h
    | false =>
      constructor
      · intro h
        cases h
        exact ⟨rfl, rfl, Table.entries_insert hc _⟩
      · rintro ⟨-, -, h⟩
        exact congrArg Except.ok (Table.ext ((Table.entries_insert hc _).trans h.symm))

private theorem contains_append {t u : Table Int} {v : Value} {a : Int} (h : u.entries = t.entries ++ [(v, a)])
    (w : Value) : u.contains w = false ↔ t.contains w = false ∧ v.same w = false := by
  unfold Table.contains
  rw [h, List.any_append, Bool.or_eq_false_iff]
  simp

private theorem size_of_append {t u : Table Int} {e : Value × Int} (h : u.entries = t.entries ++ [e]) :
    u.size = t.size + 1 := by
  unfold Table.size
  rw [h, List.length_append, List.length_singleton]

private theorem foldlM_number {vars : List Value} {t u : Table Int} :
    vars.foldlM number t = .ok u ↔
      (∀ v ∈ vars, v.hashable = true ∧ t.contains v = false) ∧
        vars.Pairwise (fun v w => v.same w = false) ∧ u.entries = t.entries ++ numbered vars t.size := by
  induction vars generalizing t with
  | nil =>
    rw [List.foldlM_nil]
    constructor
    · intro h
      cases h
      simp [numbered]
    · rintro ⟨-, -, h⟩
      have : u = t := Table.ext (by simpa [numbered] using h)
      rw [this]
      rfl
  | cons v vars ih =>
    rw [List.foldlM_cons, bind_eq_ok]
    constructor
    · rintro ⟨t', ht', hu⟩
      obtain ⟨hv, hc, he⟩ := number_eq_ok.1 ht'
      obtain ⟨hs, hp, hu⟩ := ih.1 hu
      have hn : t'.size = t.size + 1 := size_of_append he
      refine ⟨?_, List.pairwise_cons.2 ⟨fun w hw => ((contains_append he w).1 (hs w hw).2).2, hp⟩, ?_⟩
      · intro w hw
        rcases List.mem_cons.1 hw with rfl | hw
        · exact ⟨hv, hc⟩
        · exact ⟨(hs w hw).1, ((contains_append he w).1 (hs w hw).2).1⟩
      · rw [hu, he, hn, numbered_cons, List.append_assoc, List.singleton_append]
    · rintro ⟨hs, hp, hu⟩
      obtain ⟨hv, hc⟩ := hs v (List.mem_cons_self ..)
      obtain ⟨hvw, hp⟩ := List.pairwise_cons.1 hp
      have he := Table.entries_insert hc ((t.size : Int) + 1)
      have hn : (t.insert v ((t.size : Int) + 1)).size = t.size + 1 := size_of_append he
      refine ⟨_, number_eq_ok.2 ⟨hv, hc, he⟩, ih.2 ⟨fun w hw => ?_, hp, ?_⟩⟩
      · have := hs w (List.mem_cons_of_mem _ hw)
        exact ⟨this.1, (contains_append he w).2 ⟨this.2, hvw w hw⟩⟩
      · rw [hu, he, hn, numbered_cons, List.append_assoc, List.singleton_append]

/-- A universe is numbered in order if its variables are hashable and pairwise different. -/
theorem enumerate_eq_ok {vars : List Value} {t : Table Int} :
    enumerate vars = .ok t ↔ (∀ v ∈ vars, v.hashable = true) ∧ vars.Pairwise (fun v w => v.same w = false) ∧
      t.entries = numbered vars 0 := by
  unfold enumerate
  rw [foldlM_number]
  have hc : ∀ v, Table.contains (α := Int) .empty v = false := fun v => rfl
  simp only [hc, and_true]
  rfl

/-! ### Maps of a universe -/

/-- A map of a universe: its keys are the universe and its indices the numbers from 1 on, in some order. -/
structure IsOf (m : VarMap Int) (vars : List Value) : Prop where
  hashable : ∀ v ∈ vars, v.hashable = true
  scopes_eq : m.scopes = []
  keys_eq : m.named.keys = vars
  values_nodup : m.named.values.Nodup
  values_between : ∀ i ∈ m.named.values, 0 < i ∧ i ≤ vars.length

theorem IsOf.size_eq {m : VarMap Int} {vars : List Value} (h : m.IsOf vars) : m.named.size = vars.length := by
  rw [← h.keys_eq]
  exact (List.length_map _).symm

theorem mem_numbers {n : Nat} {a : Int} :
    a ∈ ((List.range n).map fun (i : Nat) => (i + 1 : Int)) ↔ 0 < a ∧ a ≤ n := by
  rw [List.mem_map]
  constructor
  · rintro ⟨i, hi, rfl⟩
    have := List.mem_range.1 hi
    omega
  · intro h
    exact ⟨(a - 1).toNat, List.mem_range.2 (by omega), by omega⟩

private theorem nodup_numbers (n : Nat) : ((List.range n).map fun (i : Nat) => (i + 1 : Int)).Nodup :=
  List.nodup_range.map fun i j h => by
    have : (i + 1 : Int) = j + 1 := h
    omega

private theorem values_enumerate {vars : List Value} {t : Table Int} (h : enumerate vars = .ok t) :
    t.keys = vars ∧ t.values = (List.range vars.length).map fun (i : Nat) => (i + 1 : Int) := by
  have he := (enumerate_eq_ok.1 h).2.2
  constructor
  · show t.entries.map (·.1) = vars
    rw [he, numbered_fst]
  · show t.entries.map (·.2) = _
    rw [he, numbered_snd, List.range_eq_range']

/-- Without an embedding the universe is numbered in order. -/
theorem ofUniverse_none {vars : List Value} (hv : ∀ v ∈ vars, v.hashable = true)
    (hp : vars.Pairwise fun v w => v.same w = false) :
    ∃ m : VarMap Int, ofUniverse vars none = .ok m ∧ m.scopes = [] ∧ m.named.entries = numbered vars 0 := by
  have hd : ((numbered vars 0).map (·.1)).Pairwise fun v w => v.same w = false := by
    rw [numbered_fst]
    exact hp
  have he : enumerate vars = .ok ⟨numbered vars 0, hd⟩ := enumerate_eq_ok.2 ⟨hv, hp, rfl⟩
  refine ⟨ofTable ⟨numbered vars 0, hd⟩, ?_, rfl, rfl⟩
  unfold ofUniverse
  rw [he]
  exact congrArg (fun t => Except.ok (ofTable t)) (Table.map_self _)

private theorem values_embedded {t is : Table Int} (ht : ∀ v ∈ t.keys, ∃ a, is.find? v = some a)
    (hn : is.values.Nodup) :
    (t.map fun v i => (is.find? v).getD i).values.Nodup ∧
      ∀ a ∈ (t.map fun v i => (is.find? v).getD i).values, a ∈ is.values := by
  have hval : (t.map fun v i => (is.find? v).getD i).values = t.entries.map fun e => (is.find? e.1).getD e.2 := by
    simp [Table.values, Table.map]
  have hfind : ∀ e ∈ t.entries, ∃ k a, (is.find? e.1).getD e.2 = a ∧ (k, a) ∈ is.entries ∧ k.same e.1 = true := by
    intro e he
    obtain ⟨a, ha⟩ := ht e.1 (List.mem_map_of_mem he)
    obtain ⟨k, hk, hs⟩ := Table.find?_eq_some_iff.1 ha
    exact ⟨k, a, by rw [ha, Option.getD_some], hk, hs⟩
  rw [hval]
  constructor
  · rw [List.Nodup, List.pairwise_map]
    refine List.Pairwise.imp_of_mem ?_ (List.pairwise_map.1 t.distinct)
    intro e f he hf hne heq
    obtain ⟨k, a, ha, hk, hks⟩ := hfind e he
    obtain ⟨l, b, hb, hl, hls⟩ := hfind f hf
    rw [ha, hb] at heq
    have : (k, a) = (l, b) := List.inj_on_of_nodup_map hn hk hl heq
    cases this
    have := Value.same_trans (Value.same_symm hks) hls
    rw [hne] at this
    cases this
  · intro a ha
    obtain ⟨e, he, rfl⟩ := List.mem_map.1 ha
    obtain ⟨k, a, ha, hk, -⟩ := hfind e he
    rw [ha]
    exact List.mem_map_of_mem (f := (·.2)) hk

private theorem keys_indices {emb : Table Value} {is : Table Int} (h : indices emb = .ok is) :
    is.keys = emb.keys := by
  unfold indices at h
  split at h
  · cases h
  · cases h
    exact Table.keys_map _ _

theorem perm_of_isNumbering {n : Nat} {is : List Int} (h : isNumbering n is = true) :
    is.Perm ((List.range n).map fun (i : Nat) => (i + 1 : Int)) := by
  unfold isNumbering at h
  rw [← of_decide_eq_true h]
  exact (List.mergeSort_perm is _).symm

/-- The map of a universe is that, with an embedding or without. -/
theorem ofUniverse_spec {vars : List Value} {embedding : Option (Table Value)} {m : VarMap Int}
    (h : ofUniverse vars embedding = .ok m) : m.IsOf vars := by
  unfold ofUniverse at h
  obtain ⟨t, ht, h⟩ := bind_eq_ok.1 h
  obtain ⟨hkeys, hvals⟩ := values_enumerate ht
  have hhash := (enumerate_eq_ok.1 ht).1
  cases embedding with
  | none =>
    cases h
    have e : (ofTable (t.map fun _ i => Index.ofInt i) : VarMap Int).named = t := Table.map_self t
    refine ⟨hhash, rfl, by rw [e, hkeys], by rw [e, hvals]; exact nodup_numbers _, fun i hi => ?_⟩
    rw [e, hvals] at hi
    exact mem_numbers.1 hi
  | some emb =>
    simp only at h
    split at h
    · cases h
    rename_i hd
    obtain ⟨is, his, h⟩ := bind_eq_ok.1 h
    split at h
    · cases h
    rename_i hr
    cases h
    have hperm : is.values.Perm ((List.range t.size).map fun (i : Nat) => (i + 1 : Int)) :=
      perm_of_isNumbering (by simpa using hr)
    have hsize : t.size = vars.length := by
      rw [← hkeys]
      exact (List.length_map _).symm
    have hfind : ∀ v ∈ t.keys, ∃ a, is.find? v = some a := by
      intro v hv
      have hd : emb.contains v = true := by
        have : t.keys.all emb.contains = true := by simp_all
        exact List.all_eq_true.1 this v hv
      obtain ⟨k, hk, hs⟩ := Table.contains_iff.1 hd
      exact Table.exists_find?_of_contains (Table.contains_iff.2 ⟨k, keys_indices his ▸ hk, hs⟩)
    obtain ⟨hn, hm⟩ := values_embedded hfind (hperm.nodup_iff.2 (nodup_numbers _))
    refine ⟨hhash, rfl, (Table.keys_map _ t).trans hkeys, hn, fun i hi => ?_⟩
    have := mem_numbers.1 (hperm.mem_iff.1 (hm i hi))
    rw [hsize] at this
    exact this

end VarMap

end Clausify
