/-!
# Digests

The 64-bit xxHash of a list of bytes, with seed 0. The bytes are taken in stripes of 32, which
feed four lanes of 8 bytes each; what is left over follows in pieces of 8, 4 and 1 bytes.
-/

namespace Quadruple.Golden

def prime1 : UInt64 := 11400714785074694791
def prime2 : UInt64 := 14029467366897019727
def prime3 : UInt64 := 1609587929392839161
def prime4 : UInt64 := 9650029242287828579
def prime5 : UInt64 := 2870177450012600261

def rotate (x n : UInt64) : UInt64 := (x <<< n) ||| (x >>> (64 - n))

def word (bytes : List UInt8) : UInt64 :=
  bytes.foldr (fun b n => (n <<< 8) ||| b.toUInt64) 0

def mixLane (acc input : UInt64) : UInt64 := rotate (acc + input * prime2) 31 * prime1

structure Lanes where
  a : UInt64
  b : UInt64
  c : UInt64
  d : UInt64
deriving DecidableEq, Repr

def Lanes.init : Lanes := ⟨prime1 + prime2, prime2, 0, 0 - prime1⟩

def Lanes.stripe (l : Lanes) (bytes : List UInt8) : Lanes :=
  ⟨mixLane l.a (word (bytes.take 8)), mixLane l.b (word ((bytes.drop 8).take 8)),
    mixLane l.c (word ((bytes.drop 16).take 8)), mixLane l.d (word ((bytes.drop 24).take 8))⟩

def Lanes.stripes (l : Lanes) : Nat → List UInt8 → Lanes × List UInt8
  | 0, bytes => (l, bytes)
  | n + 1, bytes => (l.stripe (bytes.take 32)).stripes n (bytes.drop 32)

def mergeLane (h lane : UInt64) : UInt64 := (h ^^^ mixLane 0 lane) * prime1 + prime4

def Lanes.join (l : Lanes) : UInt64 :=
  [l.a, l.b, l.c, l.d].foldl mergeLane
    (rotate l.a 1 + rotate l.b 7 + rotate l.c 12 + rotate l.d 18)

def addLongs (h : UInt64) : Nat → List UInt8 → UInt64 × List UInt8
  | 0, bytes => (h, bytes)
  | n + 1, bytes =>
    addLongs (rotate (h ^^^ mixLane 0 (word (bytes.take 8))) 27 * prime1 + prime4) n
      (bytes.drop 8)

def addHalf (h : UInt64) (bytes : List UInt8) : UInt64 × List UInt8 :=
  if 4 ≤ bytes.length then
    (rotate (h ^^^ (word (bytes.take 4) * prime1)) 23 * prime2 + prime3, bytes.drop 4)
  else (h, bytes)

def addByte (h : UInt64) (b : UInt8) : UInt64 :=
  rotate (h ^^^ (b.toUInt64 * prime5)) 11 * prime1

def avalanche (h : UInt64) : UInt64 :=
  let h := (h ^^^ (h >>> 33)) * prime2
  let h := (h ^^^ (h >>> 29)) * prime3
  h ^^^ (h >>> 32)

def xxHash (bytes : List UInt8) : UInt64 :=
  let length := bytes.length
  let (lanes, rest) := Lanes.init.stripes (length / 32) bytes
  let h := (if 32 ≤ length then lanes.join else prime5) + length.toUInt64
  let (h, rest) := addLongs h (length % 32 / 8) rest
  let (h, rest) := addHalf h rest
  avalanche (rest.foldl addByte h)

end Quadruple.Golden
