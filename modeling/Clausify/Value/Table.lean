import Clausify.Value.Identity

/-!
# Tables

A table maps variables to data and keeps the order in which they were first entered. No two of its keys are the
same variable.
-/

namespace Clausify

/-- Enters `a` under `v`: in the place of the same key, or else at the end. -/
def enter {α : Type} (v : Value) (a : α) : List (Value × α) → List (Value × α)
  | [] => [(v, a)]
  | e :: es => if e.1.same v then (e.1, a) :: es else e :: enter v a es

private theorem mem_keys_enter {α : Type} {v k : Value} {a : α} {es : List (Value × α)}
    (h : k ∈ (enter v a es).map (·.1)) : k ∈ es.map (·.1) ∨ k = v := by
  induction es with
  | nil => simpa [enter] using h
  | cons e es ih =>
    by_cases hs : e.1.same v = true
    · simp only [enter, hs, if_true, List.map_cons, List.mem_cons] at h ⊢
      rcases h with h | h
      · exact .inl (.inl h)
      · exact .inl (.inr h)
    · simp only [enter, if_neg hs, List.map_cons, List.mem_cons] at h ⊢
      rcases h with h | h
      · exact .inl (.inl h)
      · rcases ih h with h | h
        · exact .inl (.inr h)
        · exact .inr h

private theorem pairwise_enter {α : Type} (v : Value) (a : α) {es : List (Value × α)}
    (h : (es.map (·.1)).Pairwise fun k l => k.same l = false) :
    ((enter v a es).map (·.1)).Pairwise fun k l => k.same l = false := by
  induction es with
  | nil => simp [enter]
  | cons e es ih =>
    simp only [List.map_cons, List.pairwise_cons] at h
    by_cases hs : e.1.same v = true
    · simpa [enter, hs] using h
    · simp only [enter, if_neg hs, List.map_cons, List.pairwise_cons]
      refine ⟨fun k hk => ?_, ih h.2⟩
      rcases mem_keys_enter hk with hk | rfl
      · exact h.1 k hk
      · exact Bool.eq_false_iff.mpr hs

/-- Data by variables, in the order of first entry. -/
structure Table (α : Type) where
  entries : List (Value × α)
  distinct : (entries.map (·.1)).Pairwise fun k l => k.same l = false

namespace Table

variable {α β : Type}

def empty : Table α := ⟨[], by simp⟩

instance : Inhabited (Table α) := ⟨empty⟩

/-- The entered variables. -/
def keys (t : Table α) : List Value := t.entries.map (·.1)

/-- The data in the order of their keys. -/
def values (t : Table α) : List α := t.entries.map (·.2)

def size (t : Table α) : Nat := t.entries.length

def find? (t : Table α) (v : Value) : Option α :=
  (t.entries.find? (·.1.same v)).map (·.2)

def contains (t : Table α) (v : Value) : Bool :=
  t.entries.any (·.1.same v)

/-- Enters data; a variable that is already there keeps its place and its key. -/
def insert (t : Table α) (v : Value) (a : α) : Table α :=
  ⟨enter v a t.entries, pairwise_enter v a t.distinct⟩

/-- Enters the pairs one after the other. -/
def ofList (es : List (Value × α)) : Table α :=
  es.foldl (fun t e => t.insert e.1 e.2) empty

/-- Changes the data and keeps the keys. -/
def map (f : Value → α → β) (t : Table α) : Table β where
  entries := t.entries.map fun e => (e.1, f e.1 e.2)
  distinct := by simpa [Function.comp_def] using t.distinct

@[simp] theorem map_self (t : Table α) : t.map (fun _ a => a) = t := by
  cases t
  simp [map]

end Table

/-- Truth values for variables. -/
abbrev Assignment := Table Bool

end Clausify
