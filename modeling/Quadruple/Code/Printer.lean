import Quadruple.Code.Basic
import Quadruple.Numeral.Integer

/-!
# Quadruples as text

Each instruction is one line, except a branch, which is written as the two lines of its
conditional jump and its jump.
-/

namespace Quadruple

open Numeral (decimalText)

def Temp.text (t : Temp) : String := "t" ++ decimalText t.number

def labelName (n : Int) : String := "L" ++ decimalText n

def blankName (n : Int) : String := "B" ++ decimalText n

def Target.text : Target → String
  | .blank n => blankName n
  | .label n => labelName n

def Decl.text (keyword : String) (d : Decl) : String :=
  keyword ++ " " ++ d.name ++ " " ++ decimalText d.tag.toInt ++ " " ++ decimalText d.width

namespace Quad

def assignText (dst : Temp) (rhs : String) : String := dst.text ++ " := " ++ rhs

def text : Quad → String
  | globalDecl d => d.text "alloc"
  | formalDecl d => d.text "formal"
  | localDecl d => d.text "localloc"
  | funcBegin name tag => "func " ++ name ++ " " ++ decimalText tag.toInt
  | funcEnd => "fend"
  | stmtBegin line => "bgnstmt " ++ decimalText line
  | const dst text _ => assignText dst text
  | string dst text => assignText dst ("\"" ++ text ++ "\"")
  | ref dst .global name _ => assignText dst ("global " ++ name)
  | ref dst storage name offset =>
    assignText dst (storage.keyword ++ " " ++ name ++ " " ++ decimalText offset)
  | load dst addr tag => assignText dst ("@" ++ tag.suffix ++ " " ++ addr.text)
  | store dst addr val tag =>
    assignText dst (addr.text ++ " =" ++ tag.suffix ++ " " ++ val.text)
  | index dst base idx tag =>
    assignText dst (base.text ++ " []" ++ tag.suffix ++ " " ++ idx.text)
  | unary dst op x tag => assignText dst (op ++ tag.suffix ++ " " ++ x.text)
  | binary _ dst op x y tag =>
    assignText dst (x.text ++ " " ++ op ++ tag.suffix ++ " " ++ y.text)
  | cast dst x tag => assignText dst ("cv" ++ tag.suffix ++ " " ++ x.text)
  | arg x tag => "arg" ++ tag.suffix ++ " " ++ x.text
  | call dst callee tag args =>
    assignText dst ("f" ++ tag.suffix ++ " " ++ callee.text ++ " " ++ decimalText args.length ++
      String.join (args.map fun a => " " ++ a.text))
  | condJump cond target => "bt " ++ cond.text ++ " " ++ target.text
  | jump target => "br " ++ target.text
  | branch cond onTrue onFalse =>
    "bt " ++ cond.text ++ " " ++ onTrue.text ++ "\nbr " ++ onFalse.text
  | label n => "label " ++ labelName n
  | patch b l => blankName b ++ "=" ++ labelName l
  | ret none tag => "ret" ++ tag.suffix
  | ret (some val) tag => "ret" ++ tag.suffix ++ " " ++ val.text

end Quad

/-- The text of a stream, each instruction followed by a line break. -/
def writeCode (code : List Quad) : String :=
  String.join (code.map fun q => q.text ++ "\n")

end Quadruple
