/-!
# Quadruples

Three-address instructions as data: the types, temporaries, targets and storage classes they
mention, and the instructions themselves. A jump goes either to a concrete label `L<n>` or to a
blank `B<n>`, whose label is given by an equation `B<n>=L<m>` that may stand anywhere in the
stream.
-/

namespace Quadruple

/-- The static type of a value: a set of flags, one bit each. A tag is written as its number, so
bits without a meaning are kept. -/
structure Tag where
  bits : Int64
deriving DecidableEq, Repr, Inhabited

namespace Tag

def int : Tag := ⟨1⟩
def double : Tag := ⟨2⟩
def string : Tag := ⟨4⟩
def address : Tag := ⟨8⟩
def array : Tag := ⟨16⟩
def label : Tag := ⟨32⟩

def ofInt (n : Int) : Tag := ⟨Int64.ofInt n⟩

def toInt (t : Tag) : Int := t.bits.toInt

def meets (t u : Tag) : Bool := (t.bits &&& u.bits) != 0

def union (t u : Tag) : Tag := ⟨t.bits ||| u.bits⟩

def without (t u : Tag) : Tag := ⟨t.bits &&& ~~~u.bits⟩

/-- The type of what is stored: the tag without its address and array flags. -/
def base (t : Tag) : Tag := t.without (address.union array)

def isDouble (t : Tag) : Bool := t.meets double
def isArray (t : Tag) : Bool := t.meets array

def suffix (t : Tag) : String := if t.isDouble then "f" else "i"

def size (t : Tag) : Int := if t.isDouble then 8 else 4

def describe (t : Tag) : String :=
  if t.meets label then "label"
  else
    (if t.meets double then "double" else if t.meets string then "string" else "int") ++
      (if t.meets array then "[]" else "") ++ (if t.meets address then "*" else "")

end Tag

structure Temp where
  number : Int
deriving DecidableEq, Repr, Inhabited

inductive Target where
  /-- A label that is given later by an equation. -/
  | blank (n : Int)
  /-- A concrete label. -/
  | label (n : Int)
deriving DecidableEq, Repr, Inhabited

def Target.number : Target → Int
  | .blank n => n
  | .label n => n

/-- The storage class that a reference names. Codes without a name are kept. -/
inductive Storage where
  | global
  | param
  | stack
  | unnamed (code : Int)
deriving DecidableEq, Repr, Inhabited

def Storage.ofCode (n : Int) : Storage :=
  if n = 0 then .global else if n = 1 then .param else if n = 2 then .stack else .unnamed n

def Storage.code : Storage → Int
  | .global => 0
  | .param => 1
  | .stack => 2
  | .unnamed n => n

/-- The keyword of a storage class; one without a name reads as global. -/
def Storage.keyword : Storage → String
  | .param => "param"
  | .stack => "local"
  | .global | .unnamed _ => "global"

structure Decl where
  name : String
  tag : Tag
  width : Int
deriving DecidableEq, Repr, Inhabited

inductive OpClass where
  | arith
  | bitwise
  | compare
deriving DecidableEq, Repr, Inhabited

def OpClass.lexemes : OpClass → List String
  | .arith => ["+", "-", "*", "/", "%"]
  | .bitwise => ["&", "|", "^", "<<", ">>"]
  | .compare => ["==", "!=", "<", "<=", ">", ">="]

inductive Quad where
  | globalDecl (d : Decl)
  | formalDecl (d : Decl)
  | localDecl (d : Decl)
  | funcBegin (name : String) (tag : Tag)
  | funcEnd
  | stmtBegin (line : Int)
  | const (dst : Temp) (text : String) (tag : Tag)
  /-- A string literal as written, without its quotes. -/
  | string (dst : Temp) (text : String)
  | ref (dst : Temp) (storage : Storage) (name : String) (offset : Int)
  | load (dst addr : Temp) (tag : Tag)
  | store (dst addr val : Temp) (tag : Tag)
  | index (dst base idx : Temp) (tag : Tag)
  | unary (dst : Temp) (op : String) (x : Temp) (tag : Tag)
  | binary (cls : OpClass) (dst : Temp) (op : String) (x y : Temp) (tag : Tag)
  | cast (dst x : Temp) (tag : Tag)
  | arg (x : Temp) (tag : Tag)
  | call (dst callee : Temp) (tag : Tag) (args : List Temp)
  | condJump (cond : Temp) (target : Target)
  | jump (target : Target)
  /-- A conditional jump fused with the jump behind it. -/
  | branch (cond : Temp) (onTrue onFalse : Target)
  | label (n : Int)
  /-- The equation `B<blank>=L<label>`. -/
  | patch (blank label : Int)
  | ret (val : Option Temp) (tag : Tag)
deriving DecidableEq, Repr, Inhabited

def Quad.isTransfer : Quad → Bool
  | .condJump .. | .jump _ | .branch .. | .ret .. => true
  | _ => false

end Quadruple
