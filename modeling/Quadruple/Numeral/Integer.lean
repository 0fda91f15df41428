import Quadruple.Text.Quoted

/-!
# Integer numerals

Reading 64-bit signed integers from text, in two forms: plain decimal, and the literal form with
a base marker (`0x`, `0b`, `0o`, or a leading `0` for octal) and `_` between digits.

A numeral is read digit by digit. The first digit that takes the value out of range ends the
reading, so a numeral can be out of range although a later character is no digit.
-/

namespace Quadruple.Numeral

inductive IntegerFault where
  | badSyntax
  | outOfRange
deriving DecidableEq, Repr

def IntegerFault.message : IntegerFault → String
  | .badSyntax => "invalid syntax"
  | .outOfRange => "value out of range"

/-- What reading an integer gives: a value, and what was wrong with the text, if anything. A text
out of range stands for the nearest value in range, one with bad syntax for 0. -/
structure IntegerReading where
  value : Int
  fault : Option IntegerFault
deriving DecidableEq, Repr

def IntegerReading.value? (r : IntegerReading) : Option Int :=
  match r.fault with
  | none => some r.value
  | some _ => none

def IntegerReading.toExcept (r : IntegerReading) : Except IntegerFault Int :=
  match r.fault with
  | none => .ok r.value
  | some f => .error f

def magnitudeLimit : Nat := 18446744073709551616

def digitValue? (c : Char) : Option Nat :=
  if '0' ≤ c && c ≤ '9' then some (c.toNat - '0'.toNat)
  else if 'a' ≤ c && c ≤ 'z' then some (c.toNat - 'a'.toNat + 10)
  else if 'A' ≤ c && c ≤ 'Z' then some (c.toNat - 'A'.toNat + 10)
  else none

/-- Reads digits in `base` on top of the magnitude `acc`. When `gaps` is set, `_` is skipped. -/
def readDigits (base : Nat) (gaps : Bool) (acc : Nat) : List Char → Except IntegerFault Nat
  | [] => .ok acc
  | c :: cs =>
    if gaps && c == '_' then readDigits base gaps acc cs
    else match digitValue? c with
      | none => .error .badSyntax
      | some d =>
        if base ≤ d then .error .badSyntax
        else if magnitudeLimit ≤ acc * base + d then .error .outOfRange
        else readDigits base gaps (acc * base + d) cs

/-- The class of the character before the current one, for the rule on `_`. -/
inductive GapState where
  | start
  | digit
  | gap
  | other
deriving DecidableEq

/-- Whether every `_` stands between two digits. `hex` admits the letters up to `f` as digits. -/
def gapsBetweenDigits (hex : Bool) (before : GapState) : List Char → Bool
  | [] => before != .gap
  | c :: cs =>
    if c.isDigit || (hex && (('a' ≤ c && c ≤ 'f') || ('A' ≤ c && c ≤ 'F'))) then
      gapsBetweenDigits hex .digit cs
    else if c == '_' then before == .digit && gapsBetweenDigits hex .gap cs
    else before != .gap && gapsBetweenDigits hex .other cs

/-- The rule on `_` for an unsigned numeral: only between digits, where a base marker counts as a
digit. -/
def gapsAllowed : List Char → Bool
  | '0' :: m :: cs =>
    if m == 'x' || m == 'X' then gapsBetweenDigits true .digit cs
    else if m == 'b' || m == 'B' || m == 'o' || m == 'O' then gapsBetweenDigits false .digit cs
    else gapsBetweenDigits false .start ('0' :: m :: cs)
  | cs => gapsBetweenDigits false .start cs

/-- The base that an unsigned numeral announces, and the digits after the announcement. A marker
needs at least one character behind it; a leading `0` without marker means octal. -/
def announcedBase : List Char → Nat × List Char
  | '0' :: m :: c :: cs =>
    if m == 'b' || m == 'B' then (2, c :: cs)
    else if m == 'o' || m == 'O' then (8, c :: cs)
    else if m == 'x' || m == 'X' then (16, c :: cs)
    else (8, m :: c :: cs)
  | '0' :: cs => (8, cs)
  | cs => (10, cs)

def splitSign : List Char → Bool × List Char
  | '-' :: cs => (true, cs)
  | '+' :: cs => (false, cs)
  | cs => (false, cs)

def signed (negative : Bool) (magnitude : Except IntegerFault Nat) : IntegerReading :=
  let least : Nat := 9223372036854775808
  match magnitude with
  | .error .badSyntax => ⟨0, some .badSyntax⟩
  | .error .outOfRange =>
    ⟨if negative then -(least : Int) else (least : Int) - 1, some .outOfRange⟩
  | .ok n =>
    if negative then
      if least < n then ⟨-(least : Int), some .outOfRange⟩ else ⟨-(n : Int), none⟩
    else
      if least ≤ n then ⟨(least : Int) - 1, some .outOfRange⟩ else ⟨(n : Int), none⟩

/-- Reads the magnitude of a literal: base marker, digits, `_` between digits. -/
def literalMagnitude (cs : List Char) : Except IntegerFault Nat :=
  if cs.isEmpty then .error .badSyntax
  else
    let (base, ds) := announcedBase cs
    match readDigits base true 0 ds with
    | .ok n => if cs.contains '_' && !gapsAllowed cs then .error .badSyntax else .ok n
    | .error f => .error f

/-- Reads an integer literal with an optional sign and an optional base marker. -/
def readLiteral (s : String) : IntegerReading :=
  let (negative, cs) := splitSign s.toList
  signed negative (literalMagnitude cs)

def readDecimal (s : String) : IntegerReading :=
  let (negative, cs) := splitSign s.toList
  signed negative (if cs.isEmpty then .error .badSyntax else readDigits 10 false 0 cs)

def wrap64 (n : Int) : Int := Int.bmod n 18446744073709551616

def wrap32 (n : Int) : Int := Int.bmod n 4294967296

def decimalText (n : Int) : String :=
  match n with
  | .ofNat m => String.ofList (Nat.toDigits 10 m)
  | .negSucc m => String.ofList ('-' :: Nat.toDigits 10 (m + 1))

end Quadruple.Numeral
