/-!
# Blanks and words

The white space of Unicode, trimming, and the words of a text.
-/

namespace Quadruple.Text

def isBlank (c : Char) : Bool :=
  let n := c.toNat
  (0x09 ≤ n && n ≤ 0x0d) || n == 0x20 || n == 0x85 || n == 0xa0 || n == 0x1680 ||
    (0x2000 ≤ n && n ≤ 0x200a) || n == 0x2028 || n == 0x2029 || n == 0x202f || n == 0x205f ||
    n == 0x3000

def trimBlanks (cs : List Char) : List Char :=
  ((cs.dropWhile isBlank).reverse.dropWhile isBlank).reverse

/-- The maximal runs without blanks, where `run` is the part of the first one that has been read
already, in reverse. -/
def wordsFrom (run : List Char) : List Char → List String
  | [] => if run.isEmpty then [] else [String.ofList run.reverse]
  | c :: cs =>
    if isBlank c then
      if run.isEmpty then wordsFrom [] cs
      else String.ofList run.reverse :: wordsFrom [] cs
    else wordsFrom (c :: run) cs

def words (s : String) : List String := wordsFrom [] s.toList

end Quadruple.Text
