import Quadruple.Files.Basic
import Quadruple.Text.Escape

/-!
# File name patterns

In a pattern `*` stands for any characters of one name, `?` for one character, and brackets for
one out of ranges of characters; a backslash takes away the meaning of what follows. A star takes
as little as it can, and what was matched behind it is not tried again.

A pattern is cut into chunks at its stars, and a name is held against one chunk after the other.
A chunk can be malformed, and then the pattern is refused as soon as a name comes so far.

Names are compared byte by byte, and a star can end within a character. What follows it then sees
the remaining bytes as characters of their own.
-/

namespace Quadruple.Glob

/-- The first character of a text and what follows, where the text is the end of a well-formed
one. A byte from within a character stands for no character. -/
def splitChar : List UInt8 → Nat × List UInt8
  | [] => (0, [])
  | b :: bs =>
    let tail (n : Nat) (lead : Nat) : Nat × List UInt8 :=
      ((bs.take n).foldl (fun c d => c * 64 + d.toNat % 64) lead, bs.drop n)
    if b < 0x80 then (b.toNat, bs)
    else if b < 0xc0 then (0xfffd, bs)
    else if b < 0xe0 then tail 1 (b.toNat % 32)
    else if b < 0xf0 then tail 2 (b.toNat % 16)
    else tail 3 (b.toNat % 8)

/-- One end of a range in brackets, with what follows, which must not be empty. -/
def rangeEnd? : List UInt8 → Option (Nat × List UInt8)
  | [] => none
  | b :: bs =>
    if b = '-'.toUInt8 || b = ']'.toUInt8 then none
    else
      let chars := if b = '\\'.toUInt8 then bs else b :: bs
      let (c, rest) := splitChar chars
      if chars.isEmpty || rest.isEmpty then none else some (c, rest)

def range? (pattern : List UInt8) : Option ((Nat × Nat) × List UInt8) := do
  let (lo, rest) ← rangeEnd? pattern
  match rest with
  | [] => none
  | b :: more =>
    if b = '-'.toUInt8 then
      let (hi, rest) ← rangeEnd? more
      return ((lo, hi), rest)
    else return ((lo, lo), rest)

/-- The ranges up to the closing bracket, at least one. Each takes a byte or more of the pattern,
so `fuel` bounds their number. -/
def ranges? : Nat → List UInt8 → Option (List (Nat × Nat) × List UInt8)
  | 0, _ => none
  | fuel + 1, pattern => do
    let (r, rest) ← range? pattern
    match rest with
    | [] => none
    | b :: more =>
      if b = ']'.toUInt8 then return ([r], more)
      else
        let (rs, rest) ← ranges? fuel rest
        return (r :: rs, rest)

inductive Item where
  | byte (b : UInt8)
  | anyChar
  | oneOf (negated : Bool) (ranges : List (Nat × Nat))
deriving DecidableEq, Repr

def items? : Nat → List UInt8 → Option (List Item)
  | _, [] => some []
  | 0, _ => none
  | fuel + 1, b :: bs =>
    if b = '['.toUInt8 then do
      let (negated, bs) := match bs with
        | c :: cs => if c = '^'.toUInt8 then (true, cs) else (false, bs)
        | [] => (false, bs)
      let (rs, rest) ← ranges? bs.length bs
      return .oneOf negated rs :: (← items? fuel rest)
    else if b = '?'.toUInt8 then return .anyChar :: (← items? fuel bs)
    else if b = '\\'.toUInt8 then
      match bs with
      | [] => none
      | c :: cs => return .byte c :: (← items? fuel cs)
    else return .byte b :: (← items? fuel bs)

def matchItems? : List Item → List UInt8 → Option (List UInt8)
  | [], name => some name
  | _ :: _, [] => none
  | .byte b :: items, c :: name => if b = c then matchItems? items name else none
  | .anyChar :: items, c :: name =>
    if c = '/'.toUInt8 then none else matchItems? items (splitChar (c :: name)).2
  | .oneOf negated ranges :: items, c :: name =>
    let (char, rest) := splitChar (c :: name)
    if ranges.any (fun (lo, hi) => lo ≤ char && char ≤ hi) == negated then none
    else matchItems? items rest

/-- A part of a pattern: whether stars stand in front of it, and its items, none if it is
malformed. -/
structure Chunk where
  star : Bool
  items? : Option (List Item)
deriving DecidableEq, Repr

/-- The bytes of a pattern up to the next star, and the rest. Stars in brackets do not count. -/
def splitStar (inBrackets : Bool) : List UInt8 → List UInt8 × List UInt8
  | [] => ([], [])
  | b :: bs =>
    if b = '\\'.toUInt8 then
      match bs with
      | [] => ([b], [])
      | c :: cs => let (chunk, rest) := splitStar inBrackets cs; (b :: c :: chunk, rest)
    else if b = '*'.toUInt8 && !inBrackets then ([], b :: bs)
    else
      let (chunk, rest) :=
        splitStar (b = '['.toUInt8 || (inBrackets && b ≠ ']'.toUInt8)) bs
      (b :: chunk, rest)

/-- The chunks of a pattern. Each takes a byte or more, so `fuel` bounds their number. -/
def chunksFrom : Nat → List UInt8 → List Chunk
  | _, [] => []
  | 0, _ => []
  | fuel + 1, pattern =>
    let afterStars := pattern.dropWhile (· = '*'.toUInt8)
    let (chunk, rest) := splitStar false afterStars
    ⟨pattern.head? = some '*'.toUInt8, items? chunk.length chunk⟩ :: chunksFrom fuel rest

/-- What is left of a name when items match behind a star, which takes at least one byte. The last
chunk must take all of the name. -/
def skipTo? (items : List Item) (last : Bool) : List UInt8 → Option (List UInt8)
  | [] => none
  | b :: name =>
    if b = '/'.toUInt8 then none
    else match matchItems? items name with
      | some rest => if last && !rest.isEmpty then skipTo? items last name else some rest
      | none => skipTo? items last name

/-- Whether chunks match all of a name. There is no answer when the name reaches a malformed
chunk. -/
def matchChunks? : List Chunk → List UInt8 → Option Bool
  | [], name => some name.isEmpty
  | ⟨star, items?⟩ :: rest, name => do
    let items ← items?
    if star && items.isEmpty && rest.isEmpty then return !name.contains '/'.toUInt8
    else
      let direct := (matchItems? items name).filter fun left => left.isEmpty || !rest.isEmpty
      match direct.or (if star then skipTo? items rest.isEmpty name else none) with
      | some left => matchChunks? rest left
      | none => return false

def chunks (pattern : String) : List Chunk :=
  let bytes := Text.utf8Bytes pattern
  chunksFrom bytes.length bytes

def isMatch? (pattern : List Chunk) (name : String) : Option Bool :=
  matchChunks? pattern (Text.utf8Bytes name)

def isPattern (path : String) : Bool := path.toList.any ("*?[\\".toList.contains ·)

def inDirectory? (fs : Files) (pattern : List Chunk) (dir : String) : Option (List String) :=
  match fs.resolve dir with
  | .ok p =>
    if fs.isDir p then do return (← (fs.names p).filterM (isMatch? pattern)).map (joinPath dir)
    else some []
  | .error _ => some []

def maxDepth : Nat := 10000

/-- The paths that a pattern matches, with `fuel` bounding the depth of its directories. The
pattern is held against the empty name first. -/
def expandFrom (fs : Files) : Nat → String → Option (List String)
  | 0, _ => none
  | fuel + 1, pattern => do
    let _ ← isMatch? (chunks pattern) ""
    if !isPattern pattern then return if fs.hasPath pattern then [pattern] else []
    let (dir, name) := splitLast pattern
    let dirs ← if isPattern dir then expandFrom fs fuel dir else some [dir]
    return (← dirs.mapM (inDirectory? fs (chunks name))).flatten

/-- The paths that a pattern matches, in order; none if it is refused. -/
def expand? (fs : Files) (pattern : String) : Option (List String) :=
  expandFrom fs maxDepth pattern

end Quadruple.Glob
