/-!
# Double precision numbers as bit patterns

Doubles are read, kept and written here and hardly computed with, so a double is its 64 bits: a
sign, 11 bits of exponent and 52 bits of fraction. All rounding is exact arithmetic on natural
numbers.
-/

namespace Quadruple.Numeral

structure Binary64 where
  bits : UInt64
deriving DecidableEq, Repr, Inhabited

/-- The quotient rounded to the nearest natural number, a half to the even neighbour. -/
def roundDiv (n d : Nat) : Nat :=
  let q := n / d
  let twice := 2 * (n % d)
  if twice < d then q
  else if d < twice then q + 1
  else if q % 2 = 0 then q else q + 1

def scaleTwo (n d : Nat) (e : Int) : Nat × Nat :=
  (n * Nat.pow 2 e.toNat, d * Nat.pow 2 (-e).toNat)

def scaleTen (n d : Nat) (e : Int) : Nat × Nat :=
  (n * Nat.pow 10 e.toNat, d * Nat.pow 10 (-e).toNat)

/-- The greatest `k` with `2 ^ k ≤ n / d`, for positive `n` and `d`. -/
def floorLogTwo (n d : Nat) : Int :=
  let k : Int := (n.log2 : Int) - d.log2
  let (a, b) := scaleTwo n d (-k)
  if b ≤ a then k else k - 1

namespace Binary64

/-- The bit above the fraction, `2 ^ 52`, which normal numbers do not store. -/
def hiddenBit : Nat := 4503599627370496

def infinityBits : Nat := 2047 * hiddenBit

def signBit : Nat := 9223372036854775808

def ofMagnitudeBits (negative : Bool) (magnitude : Nat) : Binary64 :=
  ⟨(if negative then signBit + magnitude else magnitude).toUInt64⟩

def infinity (negative : Bool) : Binary64 := ofMagnitudeBits negative infinityBits

def nan : Binary64 := ⟨0x7ff8000000000001⟩

def zero : Binary64 := ⟨0⟩

/-- The double nearest to `n / d`, with a sign. None when it is beyond the greatest double. -/
def ofRatio? (negative : Bool) (n d : Nat) : Option Binary64 :=
  if n = 0 || d = 0 then some (ofMagnitudeBits negative 0)
  else
    let e := max (floorLogTwo n d - 52) (-1074)
    let (a, b) := scaleTwo n d (-e)
    let magnitude := (e + 1074).toNat * hiddenBit + roundDiv a b
    if magnitude < infinityBits then some (ofMagnitudeBits negative magnitude) else none

def ofInt (n : Int) : Binary64 :=
  (ofRatio? (n < 0) n.natAbs 1).getD (infinity (n < 0))

def isNegative (x : Binary64) : Bool := signBit ≤ x.bits.toNat

def exponentField (x : Binary64) : Nat := x.bits.toNat / hiddenBit % 2048

def fraction (x : Binary64) : Nat := x.bits.toNat % hiddenBit

def isFinite (x : Binary64) : Bool := x.exponentField != 2047

def isNaN (x : Binary64) : Bool := !x.isFinite && x.fraction != 0

/-- The magnitude `m * 2 ^ q` of a finite number as the pair of `m` and `q`. -/
def magnitude (x : Binary64) : Nat × Int :=
  if x.exponentField = 0 then (x.fraction, -1074)
  else (x.fraction + hiddenBit, (x.exponentField : Int) - 1075)

/-- The magnitude of a finite number in units of the least positive double. -/
def units (x : Binary64) : Nat :=
  let (m, q) := x.magnitude
  m * Nat.pow 2 (q + 1074).toNat

def ofQuotient (n d : Nat) : Binary64 := (ofRatio? false n d).getD (infinity false)

def add (x y : Binary64) : Binary64 := ofQuotient (x.units + y.units) (Nat.pow 2 1074)

end Binary64

end Quadruple.Numeral
