/-!
# Binary floating point

A 64-bit floating point number is kept as its bits. A finite one is `± m · 2^q` for naturals `m`.
-/

namespace Clausify.Decimal

/-- The magnitude `m · 2^q` of a finite number, with its sign. -/
structure Dyadic where
  negative : Bool
  m : Nat
  q : Int
  /-- Whether the gap to the next magnitude below is half the gap to the one above. -/
  narrowBelow : Bool

/-- The magnitude bits of the infinities. -/
def infinityBits : UInt64 := 0x7FF0000000000000

/-- The sign bit. -/
def signBit : UInt64 := 0x8000000000000000

/-- The bits of the NaN that computations return. -/
def nanBits : UInt64 := 0x7FF8000000000000

def isNegative (bits : UInt64) : Bool :=
  bits &&& signBit != 0

def isNaN (bits : UInt64) : Bool :=
  bits &&& 0x7FFFFFFFFFFFFFFF > infinityBits

/-- Decodes the bits; NaN and the infinities have no magnitude of this form. -/
def dyadic? (bits : UInt64) : Option Dyadic :=
  let e := ((bits >>> 52) &&& 0x7FF).toNat
  let f := (bits &&& 0xFFFFFFFFFFFFF).toNat
  if e = 0x7FF then none
  else if e = 0 then some ⟨isNegative bits, f, -1074, false⟩
  else some ⟨isNegative bits, 0x10000000000000 + f, e - 1075, f = 0 && 1 < e⟩

/-- The integer that a number is exactly, if it is one. -/
def integral? (bits : UInt64) : Option Int := do
  let d ← dyadic? bits
  let magnitude ←
    if 0 ≤ d.q then some (d.m * Nat.pow 2 d.q.toNat)
    else if d.m % Nat.pow 2 (-d.q).toNat = 0 then some (d.m / Nat.pow 2 (-d.q).toNat)
    else none
  return if d.negative then -(magnitude : Int) else magnitude

/-- The magnitude with a sign. -/
def signed (negative : Bool) (magnitude : UInt64) : UInt64 :=
  if negative then magnitude ||| signBit else magnitude

/-- The number nearest to `± m · 10^e`. -/
def ofDecimal (negative : Bool) (m : Nat) (e : Int) : UInt64 :=
  let size := (Nat.toDigits 10 m).length + e
  signed negative (
    if m = 0 ∨ size < -330 then 0
    else if 310 < size then infinityBits
    else (Float.ofScientific m (e < 0) e.natAbs).toBits)

/-- The sum of two numbers. A NaN is passed on as it is; opposite infinities have a negative NaN for their sum. -/
def add (a b : UInt64) : UInt64 :=
  if isNaN a then a
  else if isNaN b then b
  else
    let sum := (Float.ofBits a + Float.ofBits b).toBits
    if isNaN sum then signed true nanBits else sum

end Clausify.Decimal
