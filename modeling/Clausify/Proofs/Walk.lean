import Clausify.Expr.Encode

/-!
# Temporaries taken one by one

The definitions of the gates of an expression number its gates by counting those of the parts.  A walk that takes the
next temporary of a supply for each gate, and stops when there is none, finds the same definitions
(`Expr.walk_eq_some`).  It uses up exactly as many temporaries as there are gates, and each of them is what one
definition defines (`Expr.defineOnce_definitions`).
-/

namespace Clausify

/-- The temporaries from `i` on below `i + n`. -/
def Scope.tempsFrom (i n : Nat) : List Literal :=
  (List.range' i n).map fun (j : Nat) => .temp j true

open Scope (tempsFrom)

theorem Scope.temps_eq_tempsFrom (n : Nat) : Scope.temps ⟨n⟩ = tempsFrom 0 n := by
  unfold Scope.temps tempsFrom
  rw [List.range_eq_range']

private theorem Scope.tempsFrom_one_add (i n : Nat) : tempsFrom i (1 + n) = .temp i true :: tempsFrom (i + 1) n := by
  rw [Nat.add_comm]
  rfl

private theorem Scope.tempsFrom_add (i m n : Nat) : tempsFrom i (m + n) = tempsFrom i m ++ tempsFrom (i + m) n := by
  unfold tempsFrom
  rw [← List.range'_append_1, List.map_append]

/-- The variable that a gate defines. -/
def Gate.defined? : Gate Literal → Option Value
  | isAll v _ => some v.var
  | isAny v _ => some v.var
  | isIff v _ _ => some v.var
  | _ => none

/-- Each of the temporaries is defined by exactly one of the gates, and nothing else is. -/
def Gate.DefineOnce (gs : List (Gate Literal)) (temps : List Literal) : Prop :=
  (gs.map Gate.defined?).Perm (temps.map fun v => some v.var)

namespace Expr

/-! ### Walks -/

/-- Takes the next temporary. -/
def takeNext : StateT (List Literal) Option Literal
  | [] => none
  | v :: vs => some (v, vs)

mutual

/-- The literal for an expression and the definitions of its gates.  Each gate takes a temporary before its parts
do. -/
def walk : Expr → StateT (List Literal) Option (Literal × List (Gate Literal))
  | lit name negated => return ((literal name negated).lift, [])
  | not e => do
    let (l, gs) ← walk e
    return (l.negate, gs)
  | and es => do
    let v ← takeNext
    let (ls, gs) ← walkAll es
    return (v, gs ++ [.isAll v ls])
  | or es => do
    let v ← takeNext
    let (ls, gs) ← walkAll es
    return (v, gs ++ [.isAny v ls])
  | imp a b => do
    let v ← takeNext
    let (la, ga) ← walk a
    let (lb, gb) ← walk b
    return (v, ga ++ gb ++ [.isAny v [la.negate, lb]])
  | iff a b => do
    let v ← takeNext
    let (la, ga) ← walk a
    let (lb, gb) ← walk b
    return (v, ga ++ gb ++ [.isIff v la lb])
  | xor a b => do
    let v ← takeNext
    let (la, ga) ← walk a
    let (lb, gb) ← walk b
    return (v, ga ++ gb ++ [.isIff v.negate la lb])

/-- The literals for expressions in a row and the definitions of all their gates. -/
def walkAll : List Expr → StateT (List Literal) Option (List Literal × List (Gate Literal))
  | [] => return ([], [])
  | e :: es => do
    let (l, gs) ← walk e
    let (ls, hs) ← walkAll es
    return (l :: ls, gs ++ hs)

end

private theorem takeNext_run (v : Literal) (vs : List Literal) : takeNext.run (v :: vs) = some (v, vs) := rfl

private theorem run_bind_eq {α β : Type} {x : StateT (List Literal) Option α} {vs ws : List Literal} {a : α}
    (h : x.run vs = some (a, ws)) (f : α → StateT (List Literal) Option β) : (x >>= f).run vs = (f a).run ws := by
  rw [StateT.run_bind, h]
  rfl

mutual

/-- A walk over an expression takes as many temporaries as it has gates, and leaves the others. -/
theorem walk_eq_some (e : Expr) (i : Nat) (rest : List Literal) :
    (walk e).run (tempsFrom i e.numGates ++ rest) = some ((output i e, definitions i e), rest) := by
  cases e with
  | lit name negated => rfl
  | not e =>
    rw [walk, numGates, run_bind_eq (walk_eq_some e i rest)]
    rfl
  | and es | or es =>
    rw [walk, numGates, Scope.tempsFrom_one_add, List.cons_append, run_bind_eq (takeNext_run _ _),
      run_bind_eq (walkAll_eq_some es (i + 1) rest)]
    rfl
  | imp a b | iff a b | xor a b =>
    have ha := walk_eq_some a (i + 1)
    have hb := walk_eq_some b (i + 1 + a.numGates) rest
    rw [walk, numGates, Nat.add_assoc, Scope.tempsFrom_one_add, Scope.tempsFrom_add, List.cons_append,
      List.append_assoc, run_bind_eq (takeNext_run _ _), run_bind_eq (ha _), run_bind_eq hb]
    rfl

private theorem walkAll_eq_some (es : List Expr) (i : Nat) (rest : List Literal) :
    (walkAll es).run (tempsFrom i (numGatesAll es) ++ rest) = some ((outputs i es, definitionsAll i es), rest) := by
  cases es with
  | nil => rfl
  | cons e es =>
    rw [walkAll, numGatesAll, Scope.tempsFrom_add, List.append_assoc, run_bind_eq (walk_eq_some e i _),
      run_bind_eq (walkAll_eq_some es (i + e.numGates) rest)]
    rfl

end

/-! ### Defined temporaries -/

/-- The definition of a gate stands behind those of the parts. -/
private theorem defineOnce_concat {i n : Nat} {gs : List (Gate Literal)} {g : Gate Literal}
    (hgs : Gate.DefineOnce gs (tempsFrom (i + 1) n)) (hg : g.defined? = some (.temp i)) :
    Gate.DefineOnce (gs ++ [g]) (tempsFrom i (1 + n)) := by
  unfold Gate.DefineOnce
  rw [Scope.tempsFrom_one_add, List.map_append, List.map_singleton, hg]
  exact List.perm_append_comm.trans (hgs.cons _)

private theorem defineOnce_append {i m n : Nat} {gs hs : List (Gate Literal)}
    (hgs : Gate.DefineOnce gs (tempsFrom i m)) (hhs : Gate.DefineOnce hs (tempsFrom (i + m) n)) :
    Gate.DefineOnce (gs ++ hs) (tempsFrom i (m + n)) := by
  unfold Gate.DefineOnce
  rw [Scope.tempsFrom_add, List.map_append, List.map_append]
  exact hgs.append hhs

mutual

/-- The definitions of an expression define its temporaries, each once. -/
theorem defineOnce_definitions (e : Expr) (i : Nat) : Gate.DefineOnce (definitions i e) (tempsFrom i e.numGates) := by
  cases e with
  | lit name negated => exact .nil
  | not e => exact defineOnce_definitions e i
  | and es | or es => exact defineOnce_concat (defineOnce_definitionsAll es (i + 1)) rfl
  | imp a b | iff a b | xor a b =>
    have hparts :=
      defineOnce_append (defineOnce_definitions a (i + 1)) (defineOnce_definitions b (i + 1 + a.numGates))
    rw [numGates, Nat.add_assoc]
    exact defineOnce_concat hparts rfl

private theorem defineOnce_definitionsAll (es : List Expr) (i : Nat) :
    Gate.DefineOnce (definitionsAll i es) (tempsFrom i (numGatesAll es)) := by
  cases es with
  | nil => exact .nil
  | cons e es => exact defineOnce_append (defineOnce_definitions e i) (defineOnce_definitionsAll es (i + e.numGates))

end

end Expr

end Clausify
