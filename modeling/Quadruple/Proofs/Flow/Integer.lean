import Quadruple.Proofs.Flow.Dominance
import Quadruple.Proofs.Flow.Machine

/-!
# Functions that compute with integers

`IntegerCode` says of a function that its instructions work on words and on the addresses of int
variables and int arrays, and that every temporary is defined by one instruction, which dominates
the others that use it.
-/

namespace Quadruple

namespace Quad

/-- Whether an instruction works on integers, without division and shifts. -/
def isInteger : Quad → Bool
  | .stmtBegin _ | .ref .. | .branch .. | .jump _ | .funcEnd => true
  | .const _ _ tag | .load _ _ tag | .store _ _ _ tag | .index _ _ _ tag | .ret _ tag => tag = .int
  | .unary _ op _ tag => tag = .int && ["-", "~"].contains op
  | .binary cls _ op _ _ tag => tag = .int && (operators cls).contains op
  | _ => false
where
  operators : OpClass → List String
    | .arith => ["+", "-", "*"]
    | .bitwise => ["&", "|", "^"]
    | .compare => OpClass.compare.lexemes

def dst? : Quad → Option Temp
  | .const dst .. | .string dst _ | .ref dst .. | .load dst .. | .store dst .. | .index dst ..
  | .unary dst .. | .binary _ dst .. | .cast dst .. | .call dst .. => some dst
  | _ => none

/-- The temporaries that an instruction of integer code uses as words. -/
def words : Quad → List Temp
  | .store _ _ val _ => [val]
  | .index _ _ idx _ => [idx]
  | .unary _ _ x _ => [x]
  | .binary _ _ _ x y _ => [x, y]
  | .branch c _ _ => [c]
  | .ret (some t) _ => [t]
  | _ => []

def accesses : Quad → List Temp
  | .load _ addr _ | .store _ addr _ _ => [addr]
  | _ => []

def uses (q : Quad) : List Temp :=
  q.words ++ q.accesses ++ match q with
    | .index _ base _ _ => [base]
    | _ => []

def makesAddress : Quad → Bool
  | .ref .. | .index .. => true
  | _ => false

end Quad

def Decl.IsInt (d : Decl) : Prop :=
  (d.tag = .int ∧ d.width = 4) ∨ (d.tag = Tag.int.union .array ∧ ∃ n : Nat, d.width = 4 * n)

namespace Flow.Func

def Defines (f : Func) (p : Point) (t : Temp) : Prop := ∃ q, f.quadAt? p = some q ∧ q.dst? = some t

def NamesArray (globals : List Decl) (f : Func) (t : Temp) : Prop :=
  ∃ p storage name offset d, f.quadAt? p = some (.ref t storage name offset) ∧
    f.decl? globals (.ofRef storage name) = some d ∧ d.tag.isArray = true

def wordCount (globals : List Decl) (f : Func) (x : Var) : Int :=
  match f.decl? globals x with
  | some d => d.width / 4
  | none => 0

structure IntegerCode (globals : List Decl) (f : Func) : Prop where
  quads : ∀ p q, f.quadAt? p = some q → q.isInteger = true
  tag : f.tag = .int
  formals : ∀ d ∈ f.formals, d.tag = .int ∧ d.width = 4
  locals : ∀ d ∈ f.locals, d.IsInt
  names : ((f.formals ++ f.locals).map (·.name)).Nodup
  refs : ∀ p dst storage name offset, f.quadAt? p = some (.ref dst storage name offset) →
    ∃ d, f.decl? globals (.ofRef storage name) = some d ∧ d.IsInt ∧
      (storage = .global → ∀ e ∈ globals, e.name = name → e = d)
  /-- No label number stands twice in the function. -/
  labels : ∀ (n : Int) (i j : Nat) (b c : Block), f.blocks[i]? = some b →
    f.blocks[j]? = some c → b.label = labelName n → c.label = labelName n → i = j
  /-- The temporary of number -1 would have the name of a slot `t`. -/
  slots : ∀ p t, f.Defines p t → t.number = -1 → ∀ d ∈ f.formals ++ f.locals, d.name ≠ "t"
  once : ∀ p p' t, f.Defines p t → f.Defines p' t → p = p'
  dominated : ∀ p q, f.quadAt? p = some q → ∀ t ∈ q.uses, ∃ d, f.Defines d t ∧ f.Dominates d p
  /-- A word is not an address. -/
  words : ∀ p q, f.quadAt? p = some q → ∀ t ∈ q.words, ∀ p' q', f.quadAt? p' = some q' →
    q'.dst? = some t → q'.makesAddress = false
  /-- Only scalars and elements are read and written. -/
  accesses : ∀ p q, f.quadAt? p = some q → ∀ t ∈ q.accesses, ¬ f.NamesArray globals t

end Flow.Func

end Quadruple
