/-!
# JSON values
-/

namespace Clausify

/-- A JSON value. The members of an object have different names and keep their order. -/
inductive Json where
  | null
  | bool (b : Bool)
  | int (n : Int)
  /-- A number with a point or an exponent, as the 64 bits of the nearest floating point number. -/
  | float (bits : UInt64)
  | str (s : String)
  | arr (items : List Json)
  | obj (members : List (String × Json))
deriving Inhabited

namespace Json

mutual

/-- Equality of JSON values, by recursion on both. -/
def beq : Json → Json → Bool
  | null, null => true
  | bool a, bool b => a == b
  | int a, int b => a == b
  | float a, float b => a == b
  | str a, str b => a == b
  | arr as, arr bs => beqItems as bs
  | obj as, obj bs => beqMembers as bs
  | _, _ => false

/-- Equality of lists of JSON values. -/
def beqItems : List Json → List Json → Bool
  | [], [] => true
  | a :: as, b :: bs => beq a b && beqItems as bs
  | _, _ => false

/-- Equality of lists of members. -/
def beqMembers : List (String × Json) → List (String × Json) → Bool
  | [], [] => true
  | (k, a) :: as, (l, b) :: bs => k == l && beq a b && beqMembers as bs
  | _, _ => false

end

instance : BEq Json := ⟨beq⟩

/-- Enters a member: in the place of the one with its name, or else at the end. -/
def enterMember (name : String) (v : Json) : List (String × Json) → List (String × Json)
  | [] => [(name, v)]
  | m :: ms => if m.1 = name then (name, v) :: ms else m :: enterMember name v ms

/-- The object of members, of which the last with a name counts. -/
def ofMembers (ms : List (String × Json)) : Json :=
  obj (ms.foldl (fun es m => enterMember m.1 m.2 es) [])

/-- The member with a name among members. -/
def member? (name : String) (ms : List (String × Json)) : Option Json :=
  (ms.find? (·.1 = name)).map (·.2)

theorem sizeOf_lt_of_member? {name : String} {v : Json} {ms : List (String × Json)}
    (h : member? name ms = some v) : sizeOf v < sizeOf ms := by
  simp only [member?, Option.map_eq_some_iff] at h
  obtain ⟨m, hm, rfl⟩ := h
  have hlt := List.sizeOf_lt_of_mem (List.mem_of_find?_eq_some hm)
  cases m
  simp at hlt ⊢
  omega

/-- The member with a name, of an object that has it. -/
def get? (name : String) : Json → Option Json
  | obj ms => member? name ms
  | _ => none

/-- The name of a value's kind. -/
def kind : Json → String
  | null => "NoneType"
  | bool _ => "bool"
  | int _ => "int"
  | float _ => "float"
  | str _ => "str"
  | arr _ => "list"
  | obj _ => "dict"

end Json

end Clausify
