import Clausify.Index
import Clausify.Literal
import Clausify.Value.Table

/-!
# Variable maps

A variable map gives the variables that are in scope their indices. At the level of a run these are the variables
of the universe; each open temporary scope wraps the variables outside as `outer` and adds a range of temporaries.
-/

namespace Clausify

/-- The indices `base`, `base + 1`, … of the temporaries of a scope. -/
structure TempRange where
  base : Int
  count : Int
deriving DecidableEq

/-- The indices of a range, in order. -/
def TempRange.indices (r : TempRange) : List Int :=
  (List.range r.count.toNat).map fun (i : Nat) => r.base + i

/-- The indices of the variables in scope. -/
structure VarMap (I : Type) where
  named : Table I
  /-- The ranges of the open temporary scopes, the innermost first. -/
  scopes : List TempRange

namespace VarMap

variable {I : Type}

/-- The map of a run. -/
def ofTable (named : Table I) : VarMap I := ⟨named, []⟩

/-- The map inside a new temporary scope. -/
def extend (m : VarMap I) (base count : Int) : VarMap I :=
  { m with scopes := ⟨base, count⟩ :: m.scopes }

/-- The index of a variable of the universe. -/
def namedIndex (named : Table I) (v : Value) : Except Error I :=
  if v.hashable then
    match named.find? v with
    | some i => .ok i
    | none => .error (.unknownVariable v)
  else .error (.unhashableVariable v)

variable [Index I]

/-- The index of a variable inside temporary scopes. -/
def scopedIndex (named : Table I) : List TempRange → Value → Except Error I
  | [], v => namedIndex named v
  | r :: rs, v => match v with
    | .temp i =>
      if 0 ≤ i ∧ i < r.count then .ok (Index.ofInt (r.base + i)) else .error (.temporaryOutOfRange i r.count)
    | .outer v => scopedIndex named rs v
    | v => .error (.notInScope v)

/-- The index of a variable. -/
def index (m : VarMap I) (v : Value) : Except Error I :=
  scopedIndex m.named m.scopes v

/-- The signed index of a literal. -/
def signedIndex (m : VarMap I) (l : Literal) : Except Error I := do
  let i ← m.index l.var
  if l.positive then return i else Index.negate i

/-- All indices in use: those of the universe, then those of each scope from the outermost. -/
def usedIndices (m : VarMap I) : List I :=
  m.named.values ++ (m.scopes.reverse.flatMap TempRange.indices).map Index.ofInt

/-- Fails at the first index that occurs before. -/
def checkDistinct (seen : List I) : List I → Except Error Unit
  | [] => .ok ()
  | i :: is =>
    if !Index.hashable i then .error .unhashableKey
    else if seen.any (Index.same i) then .error (.repeatedIndex (Index.toValue i))
    else checkDistinct (i :: seen) is

/-- Fails at the first index that is used twice. -/
def checkInjective (m : VarMap I) : Except Error Unit :=
  checkDistinct [] m.usedIndices

/-! ### Maps of a universe -/

/-- Gives one more variable the next number. -/
def number (t : Table Int) (v : Value) : Except Error (Table Int) :=
  match v.unhashable? with
  | some part => .error (.unhashableUniverse part.kind)
  | none => if t.contains v then .error (.repeatedVariable v) else .ok (t.insert v (t.size + 1))

/-- Numbers variables from 1 on, which must be pairwise different. -/
def enumerate (vars : List Value) : Except Error (Table Int) :=
  vars.foldlM number .empty

/-- The index that a value is. -/
def index? : Value → Option Int
  | .int i => some i
  | _ => none

/-- The indices of an embedding; fails at the first variable that gets no integer. -/
def indices (embedding : Table Value) : Except Error (Table Int) :=
  match embedding.entries.find? fun e => (index? e.2).isNone with
  | some (v, i) => .error (.embeddingIndex v i)
  | none => .ok (embedding.map fun _ i => (index? i).getD 0)

/-- Whether the integers are 1, …, `n` in some order. -/
def isNumbering (n : Nat) (is : List Int) : Bool :=
  is.mergeSort = (List.range n).map fun (i : Nat) => (i + 1 : Int)

/-- The map of a universe: by an embedding, which is a bijection onto 1, …, n, or else in the order of the
universe. -/
def ofUniverse (vars : List Value) (embedding : Option (Table Value)) : Except Error (VarMap I) := do
  let t ← enumerate vars
  match embedding with
  | none => return ofTable (t.map fun _ i => Index.ofInt i)
  | some e =>
    if !(e.keys.all t.contains && t.keys.all e.contains) then throw .embeddingDomain
    let is ← indices e
    if !isNumbering t.size is.values then throw (.embeddingRange t.size)
    return ofTable (t.map fun v i => Index.ofInt ((is.find? v).getD i))

end VarMap

end Clausify
