/-!
# Tokens of a line

A line is cut into tokens from left to right. At each place the classes are tried in a fixed
order and the first one that fits takes as much as it can, even where a later class would take
more: `t1.x` starts with the temporary `t1`. Each class is a scanner that returns the number of
characters it takes, 0 when it does not fit.
-/

namespace Quadruple

inductive TokenKind where
  | comment
  | string
  | patch
  | op
  | assign
  | float
  | int
  | temp
  | blank
  | label
  | ident
  | space
deriving DecidableEq, Repr

structure Token where
  kind : TokenKind
  text : String
deriving DecidableEq, Repr

namespace Token

def isWordChar (c : Char) : Bool := c.isAlphanum || c == '_'

def atBoundary : List Char → Bool
  | [] => true
  | c :: _ => !isWordChar c

def digitRun (cs : List Char) : Nat := (cs.takeWhile Char.isDigit).length

/-- The number of characters up to and with the closing quote of a string. -/
def stringRest : List Char → Option Nat
  | [] => none
  | '"' :: _ => some 1
  | ['\\'] => none
  | '\\' :: c :: cs => if c == '\n' then none else (stringRest cs).map (· + 2)
  | _ :: cs => (stringRest cs).map (· + 1)

def scanComment : List Char → Nat
  | '#' :: cs => (cs.takeWhile (· != '\n')).length + 1
  | _ => 0

def scanString : List Char → Nat
  | '"' :: cs => match stringRest cs with
    | some n => n + 1
    | none => 0
  | _ => 0

def scanPatch : List Char → Nat
  | 'B' :: cs =>
    let n := digitRun cs
    if n = 0 then 0
    else match cs.drop n with
      | '=' :: 'L' :: ds =>
        let m := digitRun ds
        if m = 0 then 0 else n + m + 3
      | _ => 0
  | _ => 0

def symbolLength : List Char → Nat
  | '<' :: '<' :: _ | '>' :: '>' :: _ | '<' :: '=' :: _ | '>' :: '=' :: _ | '=' :: '=' :: _
  | '!' :: '=' :: _ | '[' :: ']' :: _ => 2
  | c :: _ => if "-+*/%&|^<>=@~".toList.contains c then 1 else 0
  | [] => 0

def scanOp (cs : List Char) : Nat :=
  let n := symbolLength cs
  if n = 0 then 0
  else match cs.drop n with
    | c :: rest => if (c == 'i' || c == 'f') && atBoundary rest then n + 1 else 0
    | [] => 0

def scanAssign : List Char → Nat
  | ':' :: '=' :: _ => 2
  | _ => 0

def exponentLength : List Char → Nat
  | e :: cs =>
    if e == 'e' || e == 'E' then
      match cs with
      | s :: ds =>
        if s == '-' || s == '+' then
          let n := digitRun ds
          if n = 0 then 0 else n + 2
        else
          let n := digitRun cs
          if n = 0 then 0 else n + 1
      | [] => 0
    else 0
  | [] => 0

def scanUnsignedFloat (cs : List Char) : Nat :=
  let n := digitRun cs
  if n = 0 then 0
  else match cs.drop n with
    | '.' :: ds =>
      let m := digitRun ds
      n + 1 + m + exponentLength (ds.drop m)
    | rest =>
      let e := exponentLength rest
      if e = 0 then 0 else n + e

def withMinus (scan : List Char → Nat) : List Char → Nat
  | '-' :: cs => let n := scan cs; if n = 0 then 0 else n + 1
  | cs => scan cs

def scanFloat (cs : List Char) : Nat := withMinus scanUnsignedFloat cs

def scanInt (cs : List Char) : Nat := withMinus digitRun cs

def scanNumbered (letter : Char) : List Char → Nat
  | c :: cs =>
    if c == letter then
      let n := digitRun cs
      if n ≠ 0 && atBoundary (cs.drop n) then n + 1 else 0
    else 0
  | [] => 0

def scanIdent : List Char → Nat
  | c :: cs =>
    if c.isAlpha || c == '_' then
      (cs.takeWhile fun d => isWordChar d || d == '.').length + 1
    else 0
  | [] => 0

def scanSpace (cs : List Char) : Nat :=
  (cs.takeWhile fun c => c == ' ' || c == '\t' || c == '\r').length

def scanners : List (TokenKind × (List Char → Nat)) :=
  [(.comment, scanComment), (.string, scanString), (.patch, scanPatch), (.op, scanOp),
    (.assign, scanAssign), (.float, scanFloat), (.int, scanInt), (.temp, scanNumbered 't'),
    (.blank, scanNumbered 'B'), (.label, scanNumbered 'L'), (.ident, scanIdent),
    (.space, scanSpace)]

def scan (cs : List Char) : Option (TokenKind × Nat) :=
  scanners.findSome? fun (kind, f) => let n := f cs; if n = 0 then none else some (kind, n)

/-- Cuts `cs` into tokens behind those of `done`, which are in reverse order. Fails with the text
at the first place where no class fits. -/
def tokenizeFrom (done : List Token) (cs : List Char) : Except (List Char) (List Token) :=
  match cs with
  | [] => .ok done.reverse
  | c :: rest =>
    match scan (c :: rest) with
    | none => .error (c :: rest)
    | some (kind, n) =>
      tokenizeFrom (⟨kind, String.ofList ((c :: rest).take n)⟩ :: done) (rest.drop (n - 1))
termination_by cs.length
decreasing_by simp only [List.length_drop, List.length_cons]; omega

def tokenize (cs : List Char) : Except (List Char) (List Token) := tokenizeFrom [] cs

def isSignificant (t : Token) : Bool := t.kind != .space && t.kind != .comment

end Token

end Quadruple
