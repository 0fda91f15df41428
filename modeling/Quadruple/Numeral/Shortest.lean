import Quadruple.Numeral.Binary64
import Quadruple.Numeral.Integer

/-!
# Shortest decimal text

Among the decimals that read back as a given double, those with the fewest digits, and of these
the nearest; a tie goes to the even digit. The digits are found by trying one digit, then two, and
so on: a decimal grid is tested by the two neighbours of the value on it.

The text has an exponent when the first digit stands below the fourth place behind the point, or
above the hundred thousands.
-/

namespace Quadruple.Numeral

structure Decimal where
  digits : Nat
  exponent : Int
deriving DecidableEq, Repr

def digitCount (n : Nat) : Nat := (Nat.toDigits 10 n).length

namespace Decimal

/-- The decimal exponent of the first digit of `n / d`, for fractions above `10 ^ -350`. -/
def firstPlace (n d : Nat) : Int :=
  (digitCount (n * Nat.pow 10 350 / d) : Int) - 351

/-- The reals that round to a double `m * 2 ^ q`, in quarters of `2 ^ q`: the two ends, and
whether they belong to it. -/
structure Interval where
  low : Nat
  high : Nat
  closed : Bool
deriving DecidableEq, Repr

/-- The interval reaches half way to the neighbours. The one below stands closer when the double
is a power of two, and the ends belong to the double with the even fraction. -/
def Interval.around (m : Nat) (q : Int) : Interval :=
  ⟨if m = Binary64.hiddenBit && q ≠ -1074 then 4 * m - 1 else 4 * m - 2, 4 * m + 2, m % 2 = 0⟩

def Interval.holds (r : Interval) (a b c : Nat) : Bool :=
  if r.closed then r.low * a ≤ c * b && c * b ≤ r.high * a
  else r.low * a < c * b && c * b < r.high * a

/-- The decimal on the grid of `10 ^ k` that is nearest to `m * 2 ^ q` among the two neighbours
that read back. -/
def onGrid? (m : Nat) (q k : Int) : Option Decimal :=
  -- a quarter of `2 ^ q` is `a / b` steps of the grid
  let (a, b) := scaleTwo 1 1 (q - 2)
  let (a, b) := scaleTen a b (-k)
  let range := Interval.around m q
  let value := 4 * m * a
  let c := value / b
  let below := value - c * b
  let above := (c + 1) * b - value
  match range.holds a b c, range.holds a b (c + 1) with
  | false, false => none
  | true, false => some ⟨c, k⟩
  | false, true => some ⟨c + 1, k⟩
  | true, true =>
    if below < above || (below = above && c % 2 = 0) then some ⟨c, k⟩ else some ⟨c + 1, k⟩

/-- Tries grids with more and more digits, `fuel` of them, from the one at `10 ^ k` on. -/
def search (m : Nat) (q : Int) : Nat → Int → Decimal
  | 0, k => ⟨0, k⟩
  | fuel + 1, k =>
    match onGrid? m q k with
    | some d => d
    | none => search m q fuel (k - 1)

/-- The shortest decimal that reads back as `m * 2 ^ q`. Seventeen digits always suffice. -/
def shortest (m : Nat) (q : Int) : Decimal :=
  let (n, d) := scaleTwo m 1 q
  let found := search m q 17 (firstPlace n d)
  -- rounding up to the next power of ten gives a digit too many
  if found.digits = 10 then ⟨1, found.exponent + 1⟩ else found

def place (d : Decimal) : Int := d.exponent + (digitCount d.digits : Int) - 1

def isExactly (d : Decimal) (m : Nat) (q : Int) : Bool :=
  let (a, b) := scaleTwo m 1 q
  let (x, y) := scaleTen d.digits 1 d.exponent
  a * y = x * b

def exponentText (e : Int) : String :=
  let ds := Nat.toDigits 10 e.natAbs
  (if e < 0 then "e-" else "e+") ++ (if ds.length < 2 then "0" else "") ++ String.ofList ds

def scientific (d : Decimal) : String :=
  let text := match Nat.toDigits 10 d.digits with
    | c :: [] => [c]
    | c :: cs => c :: '.' :: cs
    | [] => []
  String.ofList text ++ exponentText d.place

def positional (d : Decimal) : String :=
  let ds := Nat.toDigits 10 d.digits
  if 0 ≤ d.exponent then String.ofList (ds ++ List.replicate d.exponent.toNat '0')
  else
    let places := (-d.exponent).toNat
    if places < ds.length then
      let whole := ds.length - places
      String.ofList (ds.take whole ++ '.' :: ds.drop whole)
    else String.ofList ('0' :: '.' :: List.replicate (places - ds.length) '0' ++ ds)

def text (d : Decimal) : String :=
  if d.place < -4 || 6 ≤ d.place then d.scientific else d.positional

end Decimal

namespace Binary64

def shortest? (x : Binary64) : Option Decimal :=
  let (m, q) := x.magnitude
  if m = 0 then none else some (Decimal.shortest m q)

def text (x : Binary64) : String :=
  if x.isNaN then "NaN"
  else if !x.isFinite then (if x.isNegative then "-Inf" else "+Inf")
  else
    (if x.isNegative then "-" else "") ++ (match x.shortest? with
      | none => "0"
      | some d => d.text)

end Binary64

end Quadruple.Numeral
