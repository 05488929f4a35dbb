/-!
# Values

Variables, literals and the results of encoders are values of one type. Nearly any value may serve as a variable.
-/

namespace Clausify

/-- A value that a client of the builder may hand over. -/
inductive Value where
  | null
  | bool (b : Bool)
  | int (n : Int)
  /-- A floating point number, as its 64 bits. -/
  | float (bits : UInt64)
  | str (s : String)
  | list (items : List Value)
  | tuple (items : List Value)
  /-- A literal: a variable with a polarity. -/
  | lit (var : Value) (positive : Bool)
  /-- A literal of a type that a client brings along. -/
  | foreign (var : Value) (positive : Bool)
  /-- An outer variable, seen from inside a temporary scope. -/
  | outer (var : Value)
  /-- The temporary with this index in its scope. -/
  | temp (index : Int)
  /-- What a client may see of a state. -/
  | snapshot (nextVar : Int) (numClauses : Nat) (assumptions : List Value) (contexts : List String)
  /-- Values by names. -/
  | record (fields : List (String × Value))
deriving Inhabited

namespace Value

mutual

/-- Equality of values, by recursion on both. -/
def beq : Value → Value → Bool
  | null, null => true
  | bool a, bool b => a == b
  | int a, int b => a == b
  | float a, float b => a == b
  | str a, str b => a == b
  | list as, list bs => beqAll as bs
  | tuple as, tuple bs => beqAll as bs
  | lit a p, lit b q => beq a b && p == q
  | foreign a p, foreign b q => beq a b && p == q
  | outer a, outer b => beq a b
  | temp a, temp b => a == b
  | snapshot i m as cs, snapshot j n bs ds => i == j && m == n && beqAll as bs && cs == ds
  | record as, record bs => beqFields as bs
  | _, _ => false

/-- Equality of lists of values. -/
def beqAll : List Value → List Value → Bool
  | [], [] => true
  | a :: as, b :: bs => beq a b && beqAll as bs
  | _, _ => false

/-- Equality of lists of fields. -/
def beqFields : List (String × Value) → List (String × Value) → Bool
  | [], [] => true
  | (k, a) :: as, (l, b) :: bs => k == l && beq a b && beqFields as bs
  | _, _ => false

end

mutual

private theorem beq_refl : ∀ a : Value, beq a a = true
  | null => rfl
  | bool _ => by simp [beq]
  | int _ => by simp [beq]
  | float _ => by simp [beq]
  | str _ => by simp [beq]
  | list as => by simp [beq, beqAll_refl as]
  | tuple as => by simp [beq, beqAll_refl as]
  | lit a _ => by simp [beq, beq_refl a]
  | foreign a _ => by simp [beq, beq_refl a]
  | outer a => by simp [beq, beq_refl a]
  | temp _ => by simp [beq]
  | snapshot _ _ as _ => by simp [beq, beqAll_refl as]
  | record as => by simp [beq, beqFields_refl as]

private theorem beqAll_refl : ∀ as : List Value, beqAll as as = true
  | [] => rfl
  | a :: as => by simp [beqAll, beq_refl a, beqAll_refl as]

private theorem beqFields_refl : ∀ as : List (String × Value), beqFields as as = true
  | [] => rfl
  | (_, a) :: as => by simp [beqFields, beq_refl a, beqFields_refl as]

end

mutual

private theorem eq_of_beq : ∀ a b : Value, beq a b = true → a = b
  | null, b, h => by cases b <;> simp_all [beq]
  | bool _, b, h => by cases b <;> simp_all [beq]
  | int _, b, h => by cases b <;> simp_all [beq]
  | float _, b, h => by cases b <;> simp_all [beq]
  | str _, b, h => by cases b <;> simp_all [beq]
  | list as, b, h => by
    cases b <;> simp_all [beq]
    exact eq_of_beqAll _ _ h
  | tuple as, b, h => by
    cases b <;> simp_all [beq]
    exact eq_of_beqAll _ _ h
  | lit a _, b, h => by
    cases b <;> simp_all [beq]
    exact eq_of_beq _ _ h.1
  | foreign a _, b, h => by
    cases b <;> simp_all [beq]
    exact eq_of_beq _ _ h.1
  | outer a, b, h => by
    cases b <;> simp_all [beq]
    exact eq_of_beq _ _ h
  | temp _, b, h => by cases b <;> simp_all [beq]
  | snapshot _ _ as _, b, h => by
    cases b <;> simp_all [beq]
    exact eq_of_beqAll _ _ h.1.2
  | record as, b, h => by
    cases b <;> simp_all [beq]
    exact eq_of_beqFields _ _ h

private theorem eq_of_beqAll : ∀ as bs : List Value, beqAll as bs = true → as = bs
  | [], [], _ => rfl
  | a :: as, b :: bs, h => by
    simp only [beqAll, Bool.and_eq_true] at h
    rw [eq_of_beq a b h.1, eq_of_beqAll as bs h.2]
  | [], _ :: _, h => by simp [beqAll] at h
  | _ :: _, [], h => by simp [beqAll] at h

private theorem eq_of_beqFields : ∀ as bs : List (String × Value), beqFields as bs = true → as = bs
  | [], [], _ => rfl
  | (k, a) :: as, (l, b) :: bs, h => by
    simp only [beqFields, Bool.and_eq_true, beq_iff_eq] at h
    rw [h.1.1, eq_of_beq a b h.1.2, eq_of_beqFields as bs h.2]
  | [], _ :: _, h => by simp [beqFields] at h
  | _ :: _, [], h => by simp [beqFields] at h

end

instance : DecidableEq Value := fun a b =>
  if h : beq a b = true then isTrue (eq_of_beq a b h)
  else isFalse fun e => h (e ▸ beq_refl a)

end Value

end Clausify
