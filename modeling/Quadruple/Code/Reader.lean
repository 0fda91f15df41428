import Quadruple.Code.Basic
import Quadruple.Code.Token
import Quadruple.Numeral.Integer
import Quadruple.Text.Blank

/-!
# Reading quadruples

A line is read in four steps, and the first one that fails gives the error: cut into tokens, fit
the tokens to one of the forms of a line, read the numbers of the form, and see that no token is
left. What comes out is a `Line`, whose temporaries, labels and operators are still lexemes;
`Line.toQuad` gives them their meaning.

A source is read line by line. Lines that are blank or start with `#` count but say nothing.
-/

namespace Quadruple

open Numeral (IntegerFault readLiteral readDecimal decimalText)

inductive Slot where
  | assign
  | rhs
  | op
  | temp
  | temps
  | int
  | optInt
  | name
  | label
  | target
deriving DecidableEq, Repr

def Slot.text : Slot → String
  | .assign => "\":=\""
  | .rhs => "Rhs"
  | .op => "<op>"
  | .temp => "<temp>"
  | .temps => "<temp>*"
  | .int => "<int>"
  | .optInt => "<int>?"
  | .name => "(<ident> | <temp> | <blank> | <label>)"
  | .label => "<label>"
  | .target => "(<label> | <blank>)"

def Slot.accepts : Slot → Token → Bool
  | .assign, t => t.text == ":="
  | .op, t => t.kind == .op
  | .temp, t => t.kind == .temp
  | .int, t => t.kind == .int
  | .name, t => t.kind == .ident || t.kind == .temp || t.kind == .blank || t.kind == .label
  | .label, t => t.kind == .label
  | .target, t => t.kind == .label || t.kind == .blank
  | .rhs, _ | .temps, _ | .optInt, _ => false

inductive LineFault where
  /-- No token class fits the rest of the line. -/
  | lexical (rest : List Char)
  /-- A token, or the end of the line, where the slots in `missing` were still to be filled. -/
  | unexpected (found : Option String) (missing : List Slot)
  | notInteger (text : String) (fault : IntegerFault)
  | badPatch (text : String)
  | badTemp (text : String)
  | badLabel (text : String)
  | argumentCount (declared : Int) (listed : Nat)
  | notUnary (op : String)
  | notBinary (op : String)
deriving DecidableEq, Repr

/-- The part of a text that a message quotes: at most 16 characters. -/
def excerpt (cs : List Char) : String :=
  if 16 < cs.length then String.ofList (cs.take 16) ++ "..." else String.ofList cs

def LineFault.message : LineFault → String
  | .lexical rest => "lexer: invalid input text " ++ Text.quote (excerpt rest)
  | .unexpected found missing =>
    "unexpected token " ++ Text.quote (found.getD "<EOF>") ++
      (if missing.isEmpty then ""
       else " (expected " ++ " ".intercalate (missing.map Slot.text) ++ ")")
  | .notInteger text fault =>
    "failed to conform: strconv.ParseInt: parsing " ++ Text.quote text ++ ": " ++ fault.message
  | .badPatch text => "bad patch " ++ Text.quote text
  | .badTemp text => "bad temporary " ++ Text.quote text
  | .badLabel text => "bad label " ++ Text.quote text
  | .argumentCount declared listed =>
    "call declares " ++ decimalText declared ++ " arguments but lists " ++ decimalText listed
  | .notUnary op => Text.quote op ++ " is not a unary operator"
  | .notBinary op => Text.quote op ++ " is not a binary operator"

/-- The right side of an assignment, temporaries and operators as lexemes. -/
inductive Rhs where
  | ref (storage : Storage) (name : String) (offset : Int)
  | call (tag : Tag) (callee : String) (count : Int) (args : List String)
  | cast (tag : Tag) (x : String)
  | unary (op x : String)
  | binary (x op y : String)
  | float (text : String)
  | int (text : String)
  | string (text : String)
deriving DecidableEq, Repr

inductive DeclKind where
  | global
  | formal
  | stack
deriving DecidableEq, Repr

def DeclKind.quad : DeclKind → Decl → Quad
  | .global => .globalDecl
  | .formal => .formalDecl
  | .stack => .localDecl

inductive Line where
  | patch (text : String)
  | assign (dst : String) (rhs : Rhs)
  | stmtBegin (line : Int)
  | label (text : String)
  | jump (target : String)
  | condJump (cond target : String)
  | arg (tag : Tag) (x : String)
  | ret (tag : Tag) (x : Option String)
  | func (name : String) (tag : Int)
  | decl (kind : DeclKind) (name : String) (tag width : Int)
  | funcEnd
deriving DecidableEq, Repr

namespace Line

/-- Takes the token for `slot`. When there is none, the slots in `after` are missing too. -/
def need (slot : Slot) (after : List Slot) :
    List Token → Except LineFault (String × List Token)
  | [] => .error (.unexpected none (slot :: after))
  | t :: ts =>
    if slot.accepts t then .ok (t.text, ts)
    else .error (.unexpected (some t.text) (slot :: after))

def takeInt? : List Token → Option String × List Token
  | [] => (none, [])
  | t :: ts => if t.kind == .int then (some t.text, ts) else (none, t :: ts)

def takeTemp? : List Token → Option String × List Token
  | [] => (none, [])
  | t :: ts => if t.kind == .temp then (some t.text, ts) else (none, t :: ts)

def takeTemps (ts : List Token) : List String × List Token :=
  ((ts.takeWhile (·.kind == .temp)).map (·.text), ts.dropWhile (·.kind == .temp))

def number (text : String) : Except LineFault Int :=
  match (readLiteral text).toExcept with
  | .ok n => .ok n
  | .error f => .error (.notInteger text f)

def readRef (storage : Storage) (ts : List Token) : Except LineFault (Rhs × List Token) := do
  let (name, ts) ← need .name [.optInt] ts
  match takeInt? ts with
  | (some text, ts) => return (.ref storage name (← number text), ts)
  | (none, ts) => return (.ref storage name 0, ts)

def readCall (tag : Tag) (ts : List Token) : Except LineFault (Rhs × List Token) := do
  let (callee, ts) ← need .temp [.int, .temps] ts
  let (count, ts) ← need .int [.temps] ts
  let (args, ts) := takeTemps ts
  return (.call tag callee (← number count) args, ts)

def readCast (tag : Tag) (ts : List Token) : Except LineFault (Rhs × List Token) := do
  let (x, ts) ← need .temp [] ts
  return (.cast tag x, ts)

def readUnary (op : String) (ts : List Token) : Except LineFault (Rhs × List Token) := do
  let (x, ts) ← need .temp [] ts
  return (.unary op x, ts)

def readBinary (x : String) (ts : List Token) : Except LineFault (Rhs × List Token) := do
  let (op, ts) ← need .op [.temp] ts
  let (y, ts) ← need .temp [] ts
  return (.binary x op y, ts)

/-- The right side of an assignment: its first token decides the form. -/
def readRhs : List Token → Except LineFault (Rhs × List Token)
  | [] => .error (.unexpected none [.rhs])
  | t :: ts =>
    match t.kind with
    | .ident =>
      match t.text with
      | "global" => readRef .global ts
      | "param" => readRef .param ts
      | "local" => readRef .stack ts
      | "fi" | "fv" => readCall .int ts
      | "ff" => readCall .double ts
      | "cvi" => readCast .int ts
      | "cvf" => readCast .double ts
      | text => .error (.unexpected (some text) [.rhs])
    | .op => readUnary t.text ts
    | .temp => readBinary t.text ts
    | .float => .ok (.float t.text, ts)
    | .int => .ok (.int t.text, ts)
    | .string => .ok (.string t.text, ts)
    | _ => .error (.unexpected (some t.text) [.rhs])

def readAssign (dst : String) (ts : List Token) : Except LineFault (Line × List Token) := do
  let (_, ts) ← need .assign [.rhs] ts
  let (rhs, ts) ← readRhs ts
  return (.assign dst rhs, ts)

def readStmtBegin (ts : List Token) : Except LineFault (Line × List Token) := do
  let (line, ts) ← need .int [] ts
  return (.stmtBegin (← number line), ts)

def readLabel (ts : List Token) : Except LineFault (Line × List Token) := do
  let (text, ts) ← need .label [] ts
  return (.label text, ts)

def readJump (ts : List Token) : Except LineFault (Line × List Token) := do
  let (target, ts) ← need .target [] ts
  return (.jump target, ts)

def readCondJump (ts : List Token) : Except LineFault (Line × List Token) := do
  let (cond, ts) ← need .temp [.target] ts
  let (target, ts) ← need .target [] ts
  return (.condJump cond target, ts)

def readArg (tag : Tag) (ts : List Token) : Except LineFault (Line × List Token) := do
  let (x, ts) ← need .temp [] ts
  return (.arg tag x, ts)

def readRet (tag : Tag) (ts : List Token) : Except LineFault (Line × List Token) :=
  let (x, ts) := takeTemp? ts
  .ok (.ret tag x, ts)

def readFunc (ts : List Token) : Except LineFault (Line × List Token) := do
  let (name, ts) ← need .name [.int] ts
  let (tag, ts) ← need .int [] ts
  return (.func name (← number tag), ts)

def readDecl (kind : DeclKind) (ts : List Token) : Except LineFault (Line × List Token) := do
  let (name, ts) ← need .name [.int, .int] ts
  let (tag, ts) ← need .int [.int] ts
  let (width, ts) ← need .int [] ts
  return (.decl kind name (← number tag) (← number width), ts)

/-- Fits tokens to a form: the first token decides which one. Returns the tokens that are left. -/
def ofTokens : List Token → Except LineFault (Line × List Token)
  | [] => .error (.unexpected none [])
  | t :: ts =>
    match t.kind with
    | .patch => .ok (.patch t.text, ts)
    | .temp => readAssign t.text ts
    | .ident =>
      match t.text with
      | "bgnstmt" => readStmtBegin ts
      | "label" => readLabel ts
      | "br" => readJump ts
      | "bt" => readCondJump ts
      | "argi" => readArg .int ts
      | "argf" => readArg .double ts
      | "reti" => readRet .int ts
      | "retf" => readRet .double ts
      | "func" => readFunc ts
      | "alloc" => readDecl .global ts
      | "formal" => readDecl .formal ts
      | "localloc" => readDecl .stack ts
      | "fend" => .ok (.funcEnd, ts)
      | text => .error (.unexpected (some text) [])
    | _ => .error (.unexpected (some t.text) [])

def read (cs : List Char) : Except LineFault Line := do
  match Token.tokenize cs with
  | .error rest => .error (.lexical rest)
  | .ok ts =>
    match ← ofTokens (ts.filter Token.isSignificant) with
    | (line, []) => return line
    | (_, t :: _) => .error (.unexpected (some t.text) [])

def numberBehind? (text : String) : Option Int :=
  (readDecimal (String.ofList (text.toList.drop 1))).value?

def toTemp (text : String) : Except LineFault Temp :=
  match numberBehind? text with
  | some n => .ok ⟨n⟩
  | none => .error (.badTemp text)

def toTarget (text : String) : Except LineFault Target :=
  match numberBehind? text with
  | some n => .ok (if text.startsWith "B" then .blank n else .label n)
  | none => .error (.badLabel text)

def toPatch (text : String) : Except LineFault Quad :=
  let cs := text.toList.drop 1
  let blank := String.ofList (cs.takeWhile Char.isDigit)
  let label := String.ofList ((cs.dropWhile Char.isDigit).drop 2)
  match (readDecimal blank).value?, (readDecimal label).value? with
  | some b, some l => .ok (.patch b l)
  | _, _ => .error (.badPatch text)

/-- An operator lexeme without its type letter, and the type of that letter. -/
def splitOp (lexeme : String) : String × Tag :=
  (String.ofList lexeme.toList.dropLast,
    if lexeme.toList.getLast? == some 'f' then .double else .int)

def unaryQuad (dst : Temp) (lexeme : String) (x : Temp) : Except LineFault Quad :=
  let (op, tag) := splitOp lexeme
  match op with
  | "@" => .ok (.load dst x tag)
  | "-" | "~" => .ok (.unary dst op x tag)
  | _ => .error (.notUnary lexeme)

def binaryQuad (dst x : Temp) (lexeme : String) (y : Temp) : Except LineFault Quad :=
  let (op, tag) := splitOp lexeme
  if op = "=" then .ok (.store dst x y tag)
  else if op = "[]" then .ok (.index dst x y tag)
  else if op ∈ OpClass.arith.lexemes then .ok (.binary .arith dst op x y tag)
  else if op ∈ OpClass.bitwise.lexemes then .ok (.binary .bitwise dst op x y tag)
  else if op ∈ OpClass.compare.lexemes then .ok (.binary .compare dst op x y tag)
  else .error (.notBinary lexeme)

def unquote (text : String) : String := String.ofList (text.toList.drop 1).dropLast

def assignQuad (dst : Temp) : Rhs → Except LineFault Quad
  | .ref storage name offset => .ok (.ref dst storage name offset)
  | .call tag callee count args => do
    let callee ← toTemp callee
    if count ≠ args.length then .error (.argumentCount count args.length)
    else return .call dst callee tag (← args.mapM toTemp)
  | .cast tag x => do return .cast dst (← toTemp x) tag
  | .unary op x => do unaryQuad dst op (← toTemp x)
  | .binary x op y => do
    let x ← toTemp x
    let y ← toTemp y
    binaryQuad dst x op y
  | .float text => .ok (.const dst text .double)
  | .int text => .ok (.const dst text .int)
  | .string text => .ok (.string dst (unquote text))

def toQuad : Line → Except LineFault Quad
  | .patch text => toPatch text
  | .assign dst rhs => do assignQuad (← toTemp dst) rhs
  | .stmtBegin line => .ok (.stmtBegin line)
  | .label text => do return .label (← toTarget text).number
  | .jump target => do return .jump (← toTarget target)
  | .condJump cond target => do return .condJump (← toTemp cond) (← toTarget target)
  | .arg tag x => do return .arg (← toTemp x) tag
  | .ret tag none => .ok (.ret none tag)
  | .ret tag (some x) => do return .ret (some (← toTemp x)) tag
  | .func name tag => .ok (.funcBegin name (.ofInt tag))
  | .decl kind name tag width => .ok (kind.quad ⟨name, .ofInt tag, width⟩)
  | .funcEnd => .ok .funcEnd

end Line

def readQuad (cs : List Char) : Except LineFault Quad := do (← Line.read cs).toQuad

inductive SourceFault where
  | malformed (file : String) (line : Nat) (fault : LineFault)
  | lineTooLong (file : String)
deriving DecidableEq, Repr

def SourceFault.message : SourceFault → String
  | .malformed file line fault => file ++ ":" ++ decimalText line ++ ": " ++ fault.message
  | .lineTooLong file => "reading " ++ file ++ ": bufio.Scanner: token too long"

def maxLineBytes : Nat := 1048575

/-- Reads lines, of which the first has number `line`, behind the instructions of `done`, which
are in reverse order. -/
def readLines (file : String) (line : Nat) (done : List Quad) :
    List String → Except SourceFault (List Quad)
  | [] => .ok done.reverse
  | text :: rest =>
    if maxLineBytes < text.utf8ByteSize then .error (.lineTooLong file)
    else
      let cs := Text.trimBlanks text.toList
      if cs.isEmpty || cs.head? == some '#' then readLines file (line + 1) done rest
      else match readQuad cs with
        | .ok q => readLines file (line + 1) (q :: done) rest
        | .error fault => .error (.malformed file line fault)

def readCode (file source : String) : Except SourceFault (List Quad) :=
  readLines file 1 [] ((source.toList.splitOn '\n').map String.ofList)

end Quadruple
