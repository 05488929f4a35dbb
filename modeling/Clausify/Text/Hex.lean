/-!
# Hexadecimal text

Digits are read in either case.
-/

namespace Clausify.Text

/-- The value of a hexadecimal digit. -/
def hexDigit? (c : Char) : Option Nat :=
  if '0' ≤ c ∧ c ≤ '9' then some (c.toNat - '0'.toNat)
  else if 'a' ≤ c ∧ c ≤ 'f' then some (c.toNat - 'a'.toNat + 10)
  else if 'A' ≤ c ∧ c ≤ 'F' then some (c.toNat - 'A'.toNat + 10)
  else none

/-- Whether a character may stand between the bytes of a text. -/
def isByteGap (c : Char) : Bool :=
  c = ' ' || (0x09 ≤ c.toNat && c.toNat ≤ 0x0D)

/-- The bytes that pairs of hexadecimal digits stand for. -/
def bytes? : List Char → Option (List UInt8)
  | [] => some []
  | [c] => if isByteGap c then some [] else none
  | a :: b :: cs =>
    if isByteGap a then bytes? (b :: cs)
    else do
      let byte := (← hexDigit? a) * 16 + (← hexDigit? b)
      return byte.toUInt8 :: (← bytes? cs)

/-- The hexadecimal digits of `n` in lower case, filled up with zeros to a width. -/
def hex (width n : Nat) : List Char :=
  let ds := Nat.toDigits 16 n
  List.replicate (width - ds.length) '0' ++ ds

end Clausify.Text
