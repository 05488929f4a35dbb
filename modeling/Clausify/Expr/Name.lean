import Clausify.Fault

/-!
# Names

The names of variables in expressions consist of letters, digits and underscores.
-/

namespace Clausify

def isNameChar (c : Char) : Bool :=
  c.isAlphanum || c = '_'

/-- Whether a text consists of name characters. A line feed at its end is tolerated. -/
def isNameText (s : String) : Bool :=
  let cs := s.toList
  let body := if cs.getLast? = some '\n' then cs.dropLast else cs
  !body.isEmpty && body.all isNameChar

/-- What is wrong with a name. -/
def nameFault? (s : String) : Option Rule :=
  if s.isEmpty then some .emptyName
  else if 64 < s.length then some .longName
  else if isNameText s then none
  else some .nameCharacters

end Clausify
