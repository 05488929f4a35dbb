/-!
# Files
-/

namespace Clausify

/-- What stands where a file is looked for. -/
inductive File where
  | missing
  | folder
  | bytes (content : ByteArray)

end Clausify
