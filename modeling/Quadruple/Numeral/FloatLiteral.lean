import Quadruple.Numeral.Binary64
import Quadruple.Numeral.Integer

/-!
# Floating-point numerals

A decimal numeral has digits, at most one point and an optional exponent after `e`; a hexadecimal
one starts with `0x` and needs its binary exponent after `p`. A `_` may stand between digits. The
words for infinity and for no number are accepted in any case. The value is the nearest double,
and a numeral beyond the greatest double is refused.
-/

namespace Quadruple.Numeral.FloatLiteral

/-- Digits read so far. The latest of them form a block of their own, so that a long numeral costs
one operation on the whole value for each block and not for each digit. -/
structure DigitRun where
  /-- The value of the digits in front of the block. -/
  high : Nat := 0
  /-- The value of the block. -/
  low : Nat := 0
  /-- The power of the base that the block takes up. -/
  scale : Nat := 1
deriving DecidableEq, Repr

namespace DigitRun

def value (r : DigitRun) : Nat := r.high * r.scale + r.low

def fullScale : Nat := Nat.pow 10 400

def push (r : DigitRun) (base d : Nat) : DigitRun :=
  let low := r.low * base + d
  let scale := r.scale * base
  if scale < fullScale then { r with low, scale } else { high := r.high * scale + low }

end DigitRun

/-- The digits of a numeral before its exponent, how many stand behind the point, whether there
was any, and whether a point was seen. -/
structure Mantissa where
  digits : DigitRun
  behindPoint : Nat
  hasDigit : Bool
  hasPoint : Bool
deriving DecidableEq, Repr

def Mantissa.start : Mantissa := ⟨{}, 0, false, false⟩

def Mantissa.value (m : Mantissa) : Nat := m.digits.value

def Mantissa.push (m : Mantissa) (base d : Nat) : Mantissa :=
  { m with
    digits := m.digits.push base d
    behindPoint := if m.hasPoint then m.behindPoint + 1 else m.behindPoint
    hasDigit := true }

def readMantissa (base : Nat) (m : Mantissa) : List Char → Mantissa × List Char
  | [] => (m, [])
  | c :: cs =>
    if c == '_' then readMantissa base m cs
    else if c == '.' then
      if m.hasPoint then (m, c :: cs) else readMantissa base { m with hasPoint := true } cs
    else match digitValue? c with
      | some d => if d < base then readMantissa base (m.push base d) cs else (m, c :: cs)
      | none => (m, c :: cs)

/-- Reads the digits of an exponent. Digits that follow a value of ten thousand or more are
passed over: the numeral is out of range anyhow. -/
def readExponentDigits (e : Nat) : List Char → Nat × List Char
  | [] => (e, [])
  | c :: cs =>
    if c == '_' then readExponentDigits e cs
    else if c.isDigit then
      readExponentDigits (if e < 10000 then e * 10 + (c.toNat - '0'.toNat) else e) cs
    else (e, c :: cs)

/-- Reads an exponent behind its letter: a sign and at least one digit. -/
def readExponent (cs : List Char) : Option (Int × List Char) :=
  let (negative, cs) := splitSign cs
  match cs with
  | c :: _ =>
    if c.isDigit then
      let (e, rest) := readExponentDigits 0 cs
      some (if negative then -(e : Int) else e, rest)
    else none
  | [] => none

def readHexadecimal (negative : Bool) (cs : List Char) : Option Binary64 := do
  let (m, rest) := readMantissa 16 .start cs
  if !m.hasDigit then none
  else match rest with
    | p :: rest =>
      if p == 'p' || p == 'P' then
        let (e, rest) ← readExponent rest
        if rest.isEmpty then
          let (n, d) := scaleTwo m.value 1 (e - 4 * m.behindPoint)
          Binary64.ofRatio? negative n d
        else none
      else none
    | [] => none

def readDecimalFloat (negative : Bool) (cs : List Char) : Option Binary64 := do
  let (m, rest) := readMantissa 10 .start cs
  if !m.hasDigit then none
  else
    let (e, rest) ← match rest with
      | c :: cs => if c == 'e' || c == 'E' then readExponent cs else some (0, rest)
      | [] => some (0, [])
    if rest.isEmpty then
      let (n, d) := scaleTen m.value 1 (e - m.behindPoint)
      Binary64.ofRatio? negative n d
    else none

/-- The words for infinity, which may have a sign, and for no number, which has none. -/
def readWord? (s : String) : Option Binary64 :=
  let (negative, cs) := splitSign s.toList
  let word := String.ofList (cs.map Char.toLower)
  if word = "inf" || word = "infinity" then some (.infinity negative)
  else if s.toList.map Char.toLower = "nan".toList then some .nan
  else none

def read? (s : String) : Option Binary64 :=
  match readWord? s with
  | some x => some x
  | none =>
    let (negative, cs) := splitSign s.toList
    if cs.contains '_' && !gapsAllowed cs then none
    else match cs with
      | '0' :: x :: c :: rest =>
        if x == 'x' || x == 'X' then readHexadecimal negative (c :: rest)
        else readDecimalFloat negative cs
      | _ => readDecimalFloat negative cs

end Quadruple.Numeral.FloatLiteral
