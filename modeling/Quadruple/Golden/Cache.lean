import Quadruple.Text.Quoted

/-!
# The cache of passed files

The digests of files that passed, by file, as a JSON object of strings. A text that is no such
object stands for an empty cache.
-/

namespace Quadruple.Golden

/-- Files with the digests under which they passed, the latest first. -/
abbrev Cache := List (String × String)

/-! ## Writing -/

/-- A character within a JSON string. Those with a meaning in web pages are escaped too. -/
def jsonChar (c : Char) : List Char :=
  match c with
  | '"' => ['\\', '"']
  | '\\' => ['\\', '\\']
  | '\n' => ['\\', 'n']
  | '\r' => ['\\', 'r']
  | '\t' => ['\\', 't']
  | '\x08' => ['\\', 'b']
  | '\x0c' => ['\\', 'f']
  | c =>
    let n := c.toNat
    if n < 0x20 || c = '<' || c = '>' || c = '&' || n = 0x2028 || n = 0x2029 then
      '\\' :: 'u' :: Text.hexDigits 4 n
    else [c]

def jsonString (s : String) : String :=
  String.ofList ('"' :: s.toList.flatMap jsonChar ++ ['"'])

def Cache.text (c : Cache) : String :=
  let sorted := c.mergeSort fun a b => !decide (b.1 < a.1)
  if sorted.isEmpty then "\x7b\x7d"
  else
    "\x7b\n" ++ ",\n".intercalate
      (sorted.map fun (file, digest) => "  " ++ jsonString file ++ ": " ++ jsonString digest) ++
      "\n\x7d"

/-! ## Reading -/

def isJsonBlank (c : Char) : Bool := c == ' ' || c == '\t' || c == '\n' || c == '\r'

def skipBlanks (cs : List Char) : List Char := cs.dropWhile isJsonBlank

def hexValue? (c : Char) : Option Nat :=
  if c.isDigit then some (c.toNat - '0'.toNat)
  else if 'a' ≤ c && c ≤ 'f' then some (c.toNat - 'a'.toNat + 10)
  else if 'A' ≤ c && c ≤ 'F' then some (c.toNat - 'A'.toNat + 10)
  else none

def unit? : List Char → Option (Nat × List Char)
  | a :: b :: c :: d :: rest => do
    let digits ← [a, b, c, d].mapM hexValue?
    return (digits.foldl (fun n k => n * 16 + k) 0, rest)
  | _ => none

def isHighUnit (n : Nat) : Bool := 0xd800 ≤ n && n < 0xdc00

def isLowUnit (n : Nat) : Bool := 0xdc00 ≤ n && n < 0xe000

def lowUnit? : List Char → Option (Nat × List Char)
  | '\\' :: 'u' :: cs => (unit? cs).filter fun (n, _) => isLowUnit n
  | _ => none

/-- An escape by number. A half without its other half is unreadable. -/
def escapedUnit? (cs : List Char) : Option (Char × List Char) := do
  let (n, rest) ← unit? cs
  if isHighUnit n then
    match lowUnit? rest with
    | some (m, rest) =>
      return (Char.ofNat (0x10000 + (n - 0xd800) * 0x400 + (m - 0xdc00)), rest)
    | none => return ('�', rest)
  else if isLowUnit n then return ('�', rest)
  else return (Char.ofNat n, rest)

def escapedLetter? (c : Char) : Option Char :=
  match c with
  | '"' | '\\' | '/' => some c
  | 'b' => some '\x08'
  | 'f' => some '\x0c'
  | 'n' => some '\n'
  | 'r' => some '\r'
  | 't' => some '\t'
  | _ => none

/-- The rest of a string up to its closing quote. Each step takes a character, so the length of
the text bounds their number. -/
def stringRest? : Nat → List Char → Option (List Char × List Char)
  | 0, _ => none
  | _, [] => none
  | _, '"' :: cs => some ([], cs)
  | fuel + 1, '\\' :: 'u' :: cs => do
    let (c, rest) ← escapedUnit? cs
    let (more, rest) ← stringRest? fuel rest
    return (c :: more, rest)
  | fuel + 1, '\\' :: e :: cs => do
    let c ← escapedLetter? e
    let (more, rest) ← stringRest? fuel cs
    return (c :: more, rest)
  | fuel + 1, c :: cs =>
    if c.toNat < 0x20 || c = '\\' then none
    else do
      let (more, rest) ← stringRest? fuel cs
      return (c :: more, rest)

def string? : List Char → Option (String × List Char)
  | '"' :: cs => do
    let (text, rest) ← stringRest? (cs.length + 1) cs
    return (String.ofList text, rest)
  | _ => none

/-- The value of an entry: a string, or nothing, which counts as an empty one. -/
def entryValue? : List Char → Option (String × List Char)
  | 'n' :: 'u' :: 'l' :: 'l' :: rest => some ("", rest)
  | cs => string? cs

def entry? (cs : List Char) : Option ((String × String) × List Char) := do
  let (key, rest) ← string? (skipBlanks cs)
  match skipBlanks rest with
  | ':' :: rest =>
    let (value, rest) ← entryValue? (skipBlanks rest)
    return ((key, value), skipBlanks rest)
  | _ => none

/-- The entries behind the opening brace, with what follows the closing one. -/
def entries? : Nat → List Char → Option (Cache × List Char)
  | 0, _ => none
  | fuel + 1, cs => do
    let (e, rest) ← entry? cs
    match rest with
    | ',' :: rest =>
      let (more, rest) ← entries? fuel rest
      return (more ++ [e], rest)
    | '\x7d' :: rest => return ([e], rest)
    | _ => none

def Cache.read? (text : String) : Option Cache :=
  match skipBlanks text.toList with
  | 'n' :: 'u' :: 'l' :: 'l' :: rest => if (skipBlanks rest).isEmpty then some [] else none
  | '\x7b' :: rest => do
    let (cache, rest) ← match skipBlanks rest with
      | '\x7d' :: rest => some ([], rest)
      | rest => entries? (rest.length + 1) rest
    if (skipBlanks rest).isEmpty then some cache else none
  | _ => none

def Cache.ofText (text : String) : Cache := (Cache.read? text).getD []

end Quadruple.Golden
