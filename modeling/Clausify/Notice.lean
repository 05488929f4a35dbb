import Clausify.Value.Text

/-!
# Notices

What the library reports while it works: warnings for input it rejects or ignores, details for the rest.
-/

namespace Clausify

/-- A line of the log. -/
inductive Notice where
  | rejectedScope (size : Value)
  | repeatedVariable (var : Value)
  | contextEntered (path : String)
  | temporariesAllocated (count : Nat) (base : Int)
  | encodingFinished (clauses : Nat) (named auxiliary : Int)
  | solutionsEnumerated (count : Nat)
  | unreadableConfig (path : String)
  | configNotObject (path kind : String)
deriving DecidableEq

namespace Notice

/-- The level of a notice. -/
def level : Notice → String
  | rejectedScope _ | repeatedVariable _ | unreadableConfig _ | configNotObject _ _ => "WARNING"
  | _ => "DEBUG"

/-- The text of a notice. That of a file which cannot be read ends with its path: what the operating system or the
reader of JSON says of the reason is left out. -/
def message : Notice → String
  | rejectedScope size => "Rejected temporary scope size " ++ size.text
  | repeatedVariable var => "Rejected universe with duplicate variable " ++ var.text
  | contextEntered path => "enter context " ++ path
  | temporariesAllocated count base => "allocated " ++ toString count ++ " temporaries at " ++ toString base
  | encodingFinished clauses named auxiliary =>
    "Encoding finished: " ++ toString clauses ++ " clauses, " ++ toString named ++ " named vars, "
      ++ toString auxiliary ++ " aux vars"
  | solutionsEnumerated count => "Enumerated " ++ toString count ++ " solutions"
  | unreadableConfig path => "Ignoring unreadable config file " ++ path
  | configNotObject path kind =>
    "Ignoring config file " ++ path ++ ": expected a JSON object, got " ++ kind

/-- The line of a notice. -/
def line (n : Notice) : String := n.level ++ " " ++ n.message

end Notice

end Clausify
