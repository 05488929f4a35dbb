import Clausify.Decimal.Binary64
import Clausify.Json.Basic
import Clausify.Text.Hex
import Clausify.Text.Integer

/-!
# Reading JSON

The reader takes JSON text, with `NaN`, `Infinity` and `-Infinity` as further numbers. An escape may be half of a
surrogate pair, which no text can hold; it is malformed or read as the replacement character. Every part of the reader
returns what it read and the text behind it.
-/

namespace Clausify.Json

/-- Why text is not read. -/
inductive ParseError where
  | malformed
  /-- An integer has more than `Text.maxDigits` digits. -/
  | oversized
deriving DecidableEq

def isSpace (c : Char) : Bool :=
  c = ' ' || c = '\t' || c = '\n' || c = '\r'

def skipSpace (cs : List Char) : List Char :=
  cs.dropWhile isSpace

/-! ### Strings -/

/-- What becomes of half of a surrogate pair. -/
inductive Halves where
  | refused
  | replaced
deriving DecidableEq

/-- The number of four hexadecimal digits. -/
def unit? (a b c d : Char) : Option Nat := do
  let high := (← Text.hexDigit? a) * 16 + (← Text.hexDigit? b)
  let low := (← Text.hexDigit? c) * 16 + (← Text.hexDigit? d)
  return high * 256 + low

/-- The character with a number outside the surrogates. -/
def scalar? (n : Nat) : Option Char :=
  if n.isValidChar then some (Char.ofNat n) else none

/-- The character of a surrogate pair. -/
def pair? (high low : Nat) : Option Char :=
  if 0xD800 ≤ high ∧ high < 0xDC00 ∧ 0xDC00 ≤ low ∧ low < 0xE000 then
    scalar? (0x10000 + (high - 0xD800) * 0x400 + (low - 0xDC00))
  else none

/-- The character with a number that is not part of a pair. -/
def single? (halves : Halves) (n : Nat) : Option Char :=
  match scalar? n, halves with
  | some c, _ => some c
  | none, .replaced => some '\uFFFD'
  | none, .refused => none

/-- The characters with these numbers, of which two that are a surrogate pair make one character. -/
def characters? (halves : Halves) : List Nat → Option (List Char)
  | [] => some []
  | [n] => return [← single? halves n]
  | m :: n :: ns => match pair? m n with
    | some c => return c :: (← characters? halves ns)
    | none => return (← single? halves m) :: (← characters? halves (n :: ns))

/-- The character that an escape with one letter stands for. -/
def escaped? (c : Char) : Option Char :=
  match c with
  | '"' => some '"'
  | '\\' => some '\\'
  | '/' => some '/'
  | 'b' => some '\x08'
  | 'f' => some '\x0c'
  | 'n' => some '\n'
  | 'r' => some '\r'
  | 't' => some '\t'
  | _ => none

/-- Reads up to the closing quote; `acc` holds the numbers of the characters that were read, in reverse. -/
def readString (halves : Halves) (acc : List Nat) : List Char → Except ParseError (String × List Char)
  | '"' :: cs => match characters? halves acc.reverse with
    | some s => .ok (String.ofList s, cs)
    | none => .error .malformed
  | '\\' :: 'u' :: a :: b :: c :: d :: cs => match unit? a b c d with
    | some n => readString halves (n :: acc) cs
    | none => .error .malformed
  | '\\' :: c :: cs => match escaped? c with
    | some x => readString halves (x.toNat :: acc) cs
    | none => .error .malformed
  | c :: cs => if c.toNat < 0x20 then .error .malformed else readString halves (c.toNat :: acc) cs
  | [] => .error .malformed

/-! ### Numbers -/

/-- Splits off the leading digits. -/
def spanDigits (cs : List Char) : List Char × List Char :=
  cs.span Char.isDigit

/-- The number of decimal digits. -/
def digitsToNat (ds : List Char) : Nat :=
  Text.ofDigits (ds.filterMap Text.asciiDigit?)

/-- Reads an exponent, if there is one with digits. -/
def readExponent (cs : List Char) : Option Int × List Char :=
  match cs with
  | e :: rest =>
    if e = 'e' ∨ e = 'E' then
      let (negative, body) := Text.splitSign rest
      let (ds, rest) := spanDigits body
      if ds.isEmpty then (none, cs)
      else (some (if negative then -(digitsToNat ds : Int) else digitsToNat ds), rest)
    else (none, cs)
  | [] => (none, cs)

/-- Reads a point and the digits behind it, if there are any. -/
def readFraction (cs : List Char) : Option (List Char) × List Char :=
  match cs with
  | '.' :: rest =>
    let (ds, rest) := spanDigits rest
    if ds.isEmpty then (none, cs) else (some ds, rest)
  | _ => (none, cs)

/-- Reads a number behind its sign. -/
def readNumber (negative : Bool) (cs : List Char) : Except ParseError (Json × List Char) := do
  let (ds, cs) := spanDigits cs
  if ds.isEmpty || (1 < ds.length && ds.head? = some '0') then throw .malformed
  let (fraction, cs) := readFraction cs
  let (exponent, cs) := readExponent cs
  match fraction, exponent with
  | none, none =>
    if Text.maxDigits < ds.length then throw .oversized
    let n : Int := digitsToNat ds
    return (int (if negative then -n else n), cs)
  | _, _ =>
    let fs := fraction.getD []
    return (float (Decimal.ofDecimal negative (digitsToNat (ds ++ fs)) (exponent.getD 0 - fs.length)), cs)

/-! ### Values -/

/-- Reads a fixed word. -/
def readWord (word : String) (v : Json) (cs : List Char) : Except ParseError (Json × List Char) :=
  let w := word.toList
  if w.isPrefixOf cs then .ok (v, cs.drop w.length) else .error .malformed

mutual

/-- Reads a value. Two calls in a row take at least one character. -/
def readValue (halves : Halves) (fuel : Nat) (cs : List Char) : Except ParseError (Json × List Char) :=
  match fuel with
  | 0 => .error .malformed
  | fuel + 1 =>
    match skipSpace cs with
    | '"' :: cs => do
      let (s, cs) ← readString halves [] cs
      return (str s, cs)
    | '[' :: cs => match skipSpace cs with
      | ']' :: cs => .ok (arr [], cs)
      | cs => readItems halves fuel [] cs
    | '\x7b' :: cs => match skipSpace cs with
      | '\x7d' :: cs => .ok (obj [], cs)
      | cs => readMembers halves fuel [] cs
    | '-' :: 'I' :: cs => readWord "nfinity" (float (Decimal.infinityBits ||| Decimal.signBit)) cs
    | '-' :: cs => readNumber true cs
    | 't' :: cs => readWord "rue" (bool true) cs
    | 'f' :: cs => readWord "alse" (bool false) cs
    | 'n' :: cs => readWord "ull" null cs
    | 'N' :: cs => readWord "aN" (float Decimal.nanBits) cs
    | 'I' :: cs => readWord "nfinity" (float Decimal.infinityBits) cs
    | cs => readNumber false cs

/-- Reads the items of an array up to its end; `acc` holds those before, in reverse. -/
def readItems (halves : Halves) (fuel : Nat) (acc : List Json) (cs : List Char) :
    Except ParseError (Json × List Char) :=
  match fuel with
  | 0 => .error .malformed
  | fuel + 1 => do
    let (v, cs) ← readValue halves fuel cs
    match skipSpace cs with
    | ',' :: cs => readItems halves fuel (v :: acc) cs
    | ']' :: cs => return (arr (v :: acc).reverse, cs)
    | _ => throw .malformed

/-- Reads the members of an object up to its end; `acc` holds those before, in reverse. -/
def readMembers (halves : Halves) (fuel : Nat) (acc : List (String × Json)) (cs : List Char) :
    Except ParseError (Json × List Char) :=
  match fuel with
  | 0 => .error .malformed
  | fuel + 1 =>
    match skipSpace cs with
    | '"' :: cs => do
      let (name, cs) ← readString halves [] cs
      match skipSpace cs with
      | ':' :: cs =>
        let (v, cs) ← readValue halves fuel cs
        match skipSpace cs with
        | ',' :: cs => readMembers halves fuel ((name, v) :: acc) cs
        | '\x7d' :: cs => return (ofMembers ((name, v) :: acc).reverse, cs)
        | _ => throw .malformed
      | _ => throw .malformed
    | _ => .error .malformed

end

/-- Reads a whole text. -/
def parseWith (halves : Halves) (text : String) : Except ParseError Json := do
  let cs := text.toList
  let (v, rest) ← readValue halves (2 * cs.length + 1) cs
  if (skipSpace rest).isEmpty then return v else throw .malformed

/-- Reads a whole text, all of whose strings are text. -/
def parse (text : String) : Except ParseError Json :=
  parseWith .refused text

end Clausify.Json
