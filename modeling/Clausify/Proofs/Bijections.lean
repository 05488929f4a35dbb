import Clausify.Proofs.Embedding
import Mathlib.Data.Set.Function

/-!
# Universes and embeddings that are accepted

A table that has exactly the variables of a universe as its keys takes them one to one onto a set of data if that set
is what it holds, each datum once (`Table.isBijection_iff`).  So the checks of an embedding, which compare keys and a
sorted list of indices, decide whether it is a bijection onto 1, …, n (`VarMap.embeds_iff_isBijection`).  A universe
is accepted exactly if its variables are hashable and pairwise different and the embedding is such a bijection; the
error says which of the two is at fault.
-/

namespace Clausify

variable {vars : List Value}

/-- The variables are hashable and pairwise different. -/
structure IsUniverse (vars : List Value) : Prop where
  hashable : ∀ v ∈ vars, v.hashable = true
  distinct : vars.Pairwise fun v w => v.same w = false

private theorem IsUniverse.eq_of_same (h : IsUniverse vars) {v w : Value} (hv : v ∈ vars) (hw : w ∈ vars)
    (hs : v.same w = true) : v = w := by
  have : Std.Symm fun v w : Value => v.same w = false :=
    ⟨fun v w h => Bool.eq_false_iff.2 fun h' => Bool.eq_false_iff.1 h (Value.same_symm h')⟩
  by_contra hne
  exact Bool.eq_false_iff.1 (h.distinct.forall hv hw hne) hs

/-- The integers 1, …, `n`. -/
def numbersTo (n : Nat) : Set Int := {i | 1 ≤ i ∧ i ≤ n}

/-! ### Bijections given by tables -/

namespace Table

variable {α : Type} {t : Table α} {S : Set α}

/-- The table has exactly the variables as its keys and takes them one to one onto the data of a set. -/
structure IsBijection (t : Table α) (vars : List Value) (S : Set α) : Prop where
  contains_iff : ∀ v, t.contains v = true ↔ ∃ w ∈ vars, w.same v = true
  bijOn : Set.BijOn t.find? {v | v ∈ vars} (some '' S)

private theorem mem_values_iff {a : α} : a ∈ t.values ↔ ∃ k, (k, a) ∈ t.entries := by
  unfold values
  rw [List.mem_map]
  constructor
  · rintro ⟨e, he, rfl⟩
    exact ⟨e.1, he⟩
  · rintro ⟨k, hk⟩
    exact ⟨_, hk, rfl⟩

private theorem exists_var_of_mem (hk : ∀ v, t.contains v = true ↔ ∃ w ∈ vars, w.same v = true) {k : Value} {a : α}
    (h : (k, a) ∈ t.entries) : ∃ w ∈ vars, w.same k = true ∧ t.find? w = some a := by
  obtain ⟨w, hw, hs⟩ := (hk k).1 (contains_iff.2 ⟨k, List.mem_map_of_mem (f := (·.1)) h, Value.same_refl k⟩)
  exact ⟨w, hw, hs, find?_eq_some_iff.2 ⟨k, h, Value.same_symm hs⟩⟩

theorem isBijection_iff (hv : IsUniverse vars) (hk : ∀ v, t.contains v = true ↔ ∃ w ∈ vars, w.same v = true) :
    t.IsBijection vars S ↔ t.values.Nodup ∧ ∀ a, a ∈ t.values ↔ a ∈ S := by
  constructor
  · rintro ⟨-, hmaps, hinj, hsurj⟩
    constructor
    · rw [values, List.Nodup, List.pairwise_map]
      refine List.Pairwise.imp_of_mem ?_ (List.pairwise_map.1 t.distinct)
      rintro ⟨k, a⟩ ⟨l, b⟩ hka hlb hne rfl
      obtain ⟨v, hv, hvk, hfv⟩ := exists_var_of_mem hk hka
      obtain ⟨w, hw, hwl, hfw⟩ := exists_var_of_mem hk hlb
      obtain rfl : v = w := hinj hv hw (hfv.trans hfw.symm)
      exact Bool.eq_false_iff.1 hne (Value.same_trans (Value.same_symm hvk) hwl)
    · intro a
      constructor
      · intro ha
        obtain ⟨k, hka⟩ := mem_values_iff.1 ha
        obtain ⟨w, hw, -, hfw⟩ := exists_var_of_mem hk hka
        obtain ⟨b, hb, hba⟩ := hmaps hw
        rw [hfw] at hba
        exact Option.some.inj hba ▸ hb
      · intro ha
        obtain ⟨v, -, hfv⟩ := hsurj (Set.mem_image_of_mem some ha)
        obtain ⟨k, hka, -⟩ := find?_eq_some_iff.1 hfv
        exact mem_values_iff.2 ⟨k, hka⟩
  · rintro ⟨hnodup, hmem⟩
    have hfind {v : Value} (hv : v ∈ vars) : ∃ k a, (k, a) ∈ t.entries ∧ k.same v = true ∧ t.find? v = some a := by
      obtain ⟨a, ha⟩ := exists_find?_of_contains ((hk v).2 ⟨v, hv, Value.same_refl v⟩)
      obtain ⟨k, hka, hs⟩ := find?_eq_some_iff.1 ha
      exact ⟨k, a, hka, hs, ha⟩
    refine ⟨hk, fun v hvv => ?_, fun v hvv w hww heq => ?_, ?_⟩
    · obtain ⟨k, a, hka, -, hfv⟩ := hfind hvv
      rw [hfv]
      exact Set.mem_image_of_mem some ((hmem a).1 (mem_values_iff.2 ⟨k, hka⟩))
    · obtain ⟨k, a, hka, hkv, hfv⟩ := hfind hvv
      obtain ⟨l, b, hlb, hlw, hfw⟩ := hfind hww
      rw [hfv, hfw] at heq
      cases heq
      cases List.inj_on_of_nodup_map hnodup hka hlb rfl
      exact hv.eq_of_same hvv hww (Value.same_trans (Value.same_symm hkv) hlw)
    · rintro _ ⟨a, ha, rfl⟩
      obtain ⟨k, hka⟩ := mem_values_iff.1 ((hmem a).2 ha)
      obtain ⟨w, hw, -, hfw⟩ := exists_var_of_mem hk hka
      exact ⟨w, hw, hfw⟩

/-- Tables that contain the keys of each other contain the same variables. -/
private theorem contains_eq_of_keys {β : Type} {u : Table β} (htu : ∀ k ∈ t.keys, u.contains k = true)
    (hut : ∀ k ∈ u.keys, t.contains k = true) (v : Value) : t.contains v = u.contains v := by
  rw [Bool.eq_iff_iff]
  constructor
  · intro hv
    obtain ⟨k, hk, hs⟩ := contains_iff.1 hv
    obtain ⟨l, hl, hlk⟩ := contains_iff.1 (htu k hk)
    exact contains_iff.2 ⟨l, hl, Value.same_trans hlk hs⟩
  · intro hv
    obtain ⟨k, hk, hs⟩ := contains_iff.1 hv
    obtain ⟨l, hl, hlk⟩ := contains_iff.1 (hut k hk)
    exact contains_iff.2 ⟨l, hl, Value.same_trans hlk hs⟩

/-- Data that are looked up in a table with the same keys are those of that table. -/
private theorem find?_map_find? {u : Table α} (hk : ∀ v, t.contains v = u.contains v) (v : Value) :
    (t.map fun v a => (u.find? v).getD a).find? v = u.find? v := by
  have hmap : (t.map fun v a => (u.find? v).getD a).find? v =
      (t.entries.find? (·.1.same v)).map fun e => (u.find? e.1).getD e.2 := by
    unfold find? map
    rw [List.find?_map, Option.map_map]
    rfl
  rw [hmap]
  cases he : t.entries.find? (·.1.same v) with
  | none =>
    have hnone : t.find? v = none := by
      unfold find?
      rw [he]
      rfl
    rw [Option.map_none, eq_comm, find?_eq_none_iff, ← hk, ← find?_eq_none_iff, hnone]
  | some e =>
    have hs : e.1.same v = true := List.find?_some (p := fun e : Value × α => e.1.same v) he
    have hcontains : t.contains v = true :=
      contains_iff.2 ⟨e.1, List.mem_map_of_mem (f := (·.1)) (List.mem_of_find?_eq_some he), hs⟩
    obtain ⟨a, ha⟩ := exists_find?_of_contains ((hk v).symm.trans hcontains)
    rw [Option.map_some, find?_congr u hs, ha, Option.getD_some]

end Table

/-! ### Universes -/

namespace VarMap

private theorem exists_enumerate_iff : (∃ t, enumerate vars = .ok t) ↔ IsUniverse vars := by
  constructor
  · rintro ⟨t, ht⟩
    obtain ⟨hhash, hdistinct, -⟩ := enumerate_eq_ok.1 ht
    exact ⟨hhash, hdistinct⟩
  · intro h
    have hdistinct : ((numbered vars 0).map (·.1)).Pairwise fun v w => v.same w = false := by
      rw [numbered_fst]
      exact h.distinct
    exact ⟨⟨_, hdistinct⟩, enumerate_eq_ok.2 ⟨h.hashable, h.distinct, rfl⟩⟩

private theorem kind_of_enumerate_eq_error {x : Error} (h : enumerate vars = .error x) : x.kind = .validation := by
  unfold enumerate at h
  generalize Table.empty = t at h
  induction vars generalizing t with
  | nil => cases h
  | cons v vars ih =>
    rw [List.foldlM_cons] at h
    rcases bind_eq_error.1 h with h | ⟨u, -, h⟩
    · unfold number at h
      split at h
      · cases h
        rfl
      split at h
      · cases h
        rfl
      · cases h
    · exact ih u h

/-! ### Embeddings -/

variable {embedding : Table Value}

/-- The embedding has the variables as its keys and takes them one to one onto 1, …, n as integers. -/
theorem embeds_iff_isBijection (hv : IsUniverse vars) :
    Embeds embedding vars ↔ embedding.IsBijection vars (Value.int '' numbersTo vars.length) := by
  have hnumbers (a : Value) : a ∈ ((List.range vars.length).map fun (i : Nat) => Value.int (i + 1)) ↔
      a ∈ Value.int '' numbersTo vars.length := by
    have hmap : ((List.range vars.length).map fun (i : Nat) => Value.int (i + 1)) =
        ((List.range vars.length).map fun (i : Nat) => (i + 1 : Int)).map .int := by
      rw [List.map_map]
      rfl
    rw [hmap, List.mem_map]
    exact exists_congr fun i => and_congr_left fun _ => mem_numbers
  have hnodup : ((List.range vars.length).map fun (i : Nat) => Value.int (i + 1)).Nodup := by
    refine List.nodup_range.map fun i j hij => ?_
    have := Value.int.inj hij
    omega
  constructor
  · rintro ⟨hcovers, hcovered, hperm⟩
    have hk (v : Value) : embedding.contains v = true ↔ ∃ w ∈ vars, w.same v = true := by
      constructor
      · intro h
        obtain ⟨k, hk, hkv⟩ := Table.contains_iff.1 h
        obtain ⟨w, hw, hwk⟩ := hcovered k hk
        exact ⟨w, hw, Value.same_trans hwk hkv⟩
      · rintro ⟨w, hw, hwv⟩
        obtain ⟨k, hk, hkw⟩ := Table.contains_iff.1 (hcovers w hw)
        exact Table.contains_iff.2 ⟨k, hk, Value.same_trans hkw hwv⟩
    refine (Table.isBijection_iff hv hk).2 ⟨hperm.nodup_iff.2 hnodup, fun a => ?_⟩
    rw [hperm.mem_iff, hnumbers]
  · intro h
    obtain ⟨hn, hmem⟩ := (Table.isBijection_iff hv h.contains_iff).1 h
    refine ⟨fun v hv => (h.contains_iff v).2 ⟨v, hv, Value.same_refl v⟩, fun k hk => ?_, ?_⟩
    · exact (h.contains_iff k).1 (Table.contains_iff.2 ⟨k, hk, Value.same_refl k⟩)
    · exact (List.perm_ext_iff_of_nodup hn hnodup).2 fun a => (hmem a).trans (hnumbers a).symm

private theorem eq_map_of_indices {is : Table Int} (h : indices embedding = .ok is) :
    embedding = is.map fun _ i => .int i := by
  unfold indices at h
  split at h
  · cases h
  · rename_i hnone
    cases h
    refine Table.ext ?_
    show _ = (embedding.entries.map _).map _
    rw [List.map_map]
    refine (List.map_id' _).symm.trans (List.map_congr_left fun e he => ?_)
    obtain ⟨v, a⟩ := e
    have hint := List.find?_eq_none.1 hnone _ he
    cases a with
    | int i => rfl
    | _ => exact absurd rfl hint

/-- The map of a universe with an embedding finds what the embedding holds. -/
private theorem embeds_of_ofUniverse {m : VarMap Int} (h : ofUniverse vars (some embedding) = .ok m) :
    Embeds embedding vars ∧ ∀ v, embedding.find? v = (m.named.find? v).map .int := by
  obtain ⟨t, ht, h⟩ := bind_eq_ok.1 h
  have hentries := (enumerate_eq_ok.1 ht).2.2
  have hkeys : t.keys = vars := by
    unfold Table.keys
    rw [hentries, numbered_fst]
  have hsize : t.size = vars.length := by
    rw [← hkeys]
    exact (List.length_map _).symm
  simp only at h
  split at h
  · cases h
  rename_i hdomain
  obtain ⟨is, his, h⟩ := bind_eq_ok.1 h
  split at h
  · cases h
  rename_i hrange
  cases h
  obtain rfl := eq_map_of_indices his
  rw [Bool.not_eq_true', Bool.not_eq_false, Bool.and_eq_true, List.all_eq_true, List.all_eq_true, hkeys] at hdomain
  rw [Bool.not_eq_true', Bool.not_eq_false, hsize] at hrange
  obtain ⟨hcovered, hcovers⟩ := hdomain
  refine ⟨⟨hcovers, fun k hk => ?_, ?_⟩, fun v => ?_⟩
  · rw [← hkeys]
    exact Table.contains_iff.1 (hcovered k hk)
  · have hvalues : (is.map fun _ i => Value.int i).values = is.values.map .int := by
      simp [Table.values, Table.map]
    rw [hvalues]
    refine ((perm_of_isNumbering hrange).map _).trans (List.Perm.of_eq ?_)
    rw [List.map_map]
    rfl
  · rw [Table.find?_map]
    refine congrArg _ (Table.find?_map_find? (fun w => ?_) v).symm
    have hmap : is.contains w = (is.map fun _ i => Value.int i).contains w :=
      Table.contains_congr (Table.keys_map _ is).symm w
    rw [hmap]
    exact Table.contains_eq_of_keys (fun k hk => hcovers k (hkeys ▸ hk)) hcovered w

/-- Once the universe is numbered, only the embedding can be at fault. -/
private theorem kind_of_ofUniverse_eq_error {e : Option (Table Value)} {x : Error} (hv : IsUniverse vars)
    (h : ofUniverse (I := Int) vars e = .error x) : x.kind = .contract := by
  obtain ⟨t, ht⟩ := exists_enumerate_iff.2 hv
  rcases bind_eq_error.1 h with h | ⟨u, -, h⟩
  · rw [ht] at h
    cases h
  cases e with
  | none => cases h
  | some embedding =>
    simp only at h
    split at h
    · cases h
      rfl
    rcases bind_eq_error.1 h with h | ⟨is, -, h⟩
    · unfold indices at h
      split at h
      · cases h
        rfl
      · cases h
    · split at h
      · cases h
        rfl
      · cases h

/-! ### Maps -/

private theorem IsOf.isBijection {m : VarMap Int} (h : m.IsOf vars) (hv : IsUniverse vars) :
    m.named.IsBijection vars (numbersTo vars.length) := by
  have hk (v : Value) : m.named.contains v = true ↔ ∃ w ∈ vars, w.same v = true := by
    rw [Table.contains_iff, h.keys_eq]
  have hsubset : m.named.values ⊆ (List.range vars.length).map fun (i : Nat) => (i + 1 : Int) :=
    fun i hi => mem_numbers.2 (h.values_between i hi)
  have hlength : ((List.range vars.length).map fun (i : Nat) => (i + 1 : Int)).length ≤ m.named.values.length := by
    rw [List.length_map, List.length_range, ← h.size_eq]
    exact Nat.le_of_eq (List.length_map _).symm
  -- as many different indices as there are numbers are all of them
  have hperm := (List.subperm_of_subset h.values_nodup hsubset).perm_of_length_le hlength
  refine (Table.isBijection_iff hv hk).2 ⟨h.values_nodup, fun i => ?_⟩
  rw [hperm.mem_iff]
  exact mem_numbers

/-- A universe with an optional embedding is accepted exactly if the variables are hashable and pairwise different and
the embedding is a bijection from the variables onto the integers 1, …, n.  The map has the variables as its keys, in
the order of the universe, and is a bijection onto 1, …, n: the embedding itself, or without one the numbering in
order.  A universe at fault is refused as invalid input, whatever the embedding is; over any other universe an
embedding at fault is refused as a broken contract. -/
theorem ofUniverse_accepts (vars : List Value) (embedding : Option (Table Value)) :
    ((∃ m : VarMap Int, ofUniverse vars embedding = .ok m) ↔
        IsUniverse vars ∧ ∀ e ∈ embedding, e.IsBijection vars (Value.int '' numbersTo vars.length)) ∧
      (∀ m : VarMap Int, ofUniverse vars embedding = .ok m →
        m.scopes = [] ∧ m.named.keys = vars ∧ m.named.IsBijection vars (numbersTo vars.length) ∧
          (∀ e ∈ embedding, ∀ v, e.find? v = (m.named.find? v).map .int) ∧
          (embedding = none → ∀ (i : Nat) (h : i < vars.length), m.named.find? vars[i] = some (i + 1 : Int))) ∧
      (¬IsUniverse vars → ∃ x, ofUniverse (I := Int) vars embedding = .error x ∧ x.kind = .validation) ∧
      (IsUniverse vars →
        (∃ e ∈ embedding, ¬e.IsBijection vars (Value.int '' numbersTo vars.length)) →
          ∃ x, ofUniverse (I := Int) vars embedding = .error x ∧ x.kind = .contract) := by
  have huniverse {m : VarMap Int} (h : ofUniverse vars embedding = .ok m) : IsUniverse vars := by
    obtain ⟨t, ht, -⟩ := bind_eq_ok.1 h
    exact exists_enumerate_iff.1 ⟨t, ht⟩
  have hembedding {m : VarMap Int} (h : ofUniverse vars embedding = .ok m) :
      ∀ e ∈ embedding, e.IsBijection vars (Value.int '' numbersTo vars.length) := by
    rintro e rfl
    exact (embeds_iff_isBijection (huniverse h)).1 (embeds_of_ofUniverse h).1
  refine ⟨⟨?_, ?_⟩, fun m h => ?_, fun hv => ?_, fun hv => ?_⟩
  · rintro ⟨m, h⟩
    exact ⟨huniverse h, hembedding h⟩
  · rintro ⟨hv, he⟩
    obtain ⟨m, hm, -⟩ := ofUniverse_none hv.hashable hv.distinct
    cases embedding with
    | none => exact ⟨m, hm⟩
    | some e =>
      have heq := ((embeds_iff_isBijection hv).2 (he e rfl)).ofUniverse_eq
      rw [hm] at heq
      exact ⟨_, heq⟩
  · have hof := ofUniverse_spec h
    refine ⟨hof.scopes_eq, hof.keys_eq, hof.isBijection (huniverse h), ?_, ?_⟩
    · rintro e rfl
      exact (embeds_of_ofUniverse h).2
    · rintro rfl i hi
      obtain ⟨m', hm', -, hentries⟩ := ofUniverse_none hof.hashable (huniverse h).distinct
      rw [h] at hm'
      cases hm'
      refine Table.find?_of_mem ?_
      rw [hentries]
      exact List.mem_map.2 ⟨(vars[i], i), List.mem_zipIdx_iff_getElem?.2 (List.getElem?_eq_getElem hi), rfl⟩
  · cases ht : enumerate vars with
    | ok t => exact absurd (exists_enumerate_iff.1 ⟨t, ht⟩) hv
    | error x =>
      refine ⟨x, ?_, kind_of_enumerate_eq_error ht⟩
      unfold ofUniverse
      rw [ht]
      rfl
  · rintro ⟨e, he, hnot⟩
    cases h : ofUniverse (I := Int) vars embedding with
    | ok m => exact absurd (hembedding h e he) hnot
    | error x => exact ⟨x, rfl, kind_of_ofUniverse_eq_error hv h⟩

/-- The variables `'a'`, true and the tuple of zero, with an embedding that names the last two by other values that
are the same.  A universe that repeats a variable is at fault before the truth value in its embedding is, which is no
index. -/
theorem ofUniverse_accepts_same_values :
    let vars : List Value := [.str "a", .bool true, .tuple [.int 0]]
    let e : Table Value := ⟨[(.tuple [.bool false], .int 1), (.int 1, .int 3), (.str "a", .int 2)], by decide⟩
    let bad : Table Value := ⟨[(.str "a", .bool true)], by decide⟩
    (∃ m : VarMap Int, ofUniverse vars (some e) = .ok m ∧ m.named.keys = vars ∧ m.named.find? (.bool true) = some 3) ∧
      (∃ x, ofUniverse (I := Int) [.str "a", .str "a"] (some bad) = .error x ∧ x.kind = .validation) ∧
      ∃ x, ofUniverse (I := Int) [.str "a"] (some bad) = .error x ∧ x.kind = .contract := by
  intro vars e bad
  have hv : IsUniverse vars := ⟨by decide, by decide⟩
  have he : Embeds e vars := ⟨by decide, by decide, by decide⟩
  obtain ⟨hiff, hmap, -⟩ := ofUniverse_accepts vars (some e)
  obtain ⟨m, hm⟩ := hiff.2 ⟨hv, fun f hf => Option.some.inj hf ▸ (embeds_iff_isBijection hv).1 he⟩
  obtain ⟨-, hkeys, -, hfind, -⟩ := hmap m hm
  refine ⟨⟨m, hm, hkeys, ?_⟩, ?_, ?_⟩
  · have h : some (Value.int 3) = _ := hfind e rfl (.bool true)
    obtain ⟨i, hi, h⟩ := Option.map_eq_some_iff.1 h.symm
    rw [hi, Value.int.inj h]
  · exact (ofUniverse_accepts [.str "a", .str "a"] (some bad)).2.2.1 fun h => absurd h.distinct (by decide)
  · have ha : IsUniverse [.str "a"] := ⟨by decide, by decide⟩
    refine (ofUniverse_accepts [.str "a"] (some bad)).2.2.2 ha ⟨bad, rfl, fun h => ?_⟩
    exact absurd ((embeds_iff_isBijection ha).2 h).values_perm (by decide)

end VarMap

end Clausify
