import Quadruple.Lowering.Program
import Quadruple.Proofs.Code.Decimal
import Quadruple.Proofs.Source.Program

/-!
# Well-formed programs

Which programs of the source language make sense: names are declared before they are used and
apart from each other, expressions have a type, functions are called with as many arguments as
they have formals, and loops and jumps keep to the limits.

Main definition: `Program.WellFormed`.
-/

namespace Quadruple.Source

/-! ## Names -/

/-- What a call gives, and how many arguments it takes. Without a number it takes any. -/
structure Signature where
  ty : Ty
  arity : Option Nat
deriving DecidableEq, Repr

structure Names where
  /-- The formals and locals with their storage. -/
  locals : String → Option (Storage × Tag)
  /-- The global variables that are declared before the function. -/
  globals : String → Option Tag
  /-- The functions that can be called. -/
  calls : String → Option Signature
  inside : ∀ name storage tag, locals name = some (storage, tag) → storage ≠ .global

namespace Names

def var? (Γ : Names) (name : String) : Option (Storage × Tag) :=
  (Γ.locals name).or ((Γ.globals name).map (Storage.global, ·))

def Scalar (Γ : Names) (name : String) (ty : Ty) : Prop :=
  ∃ storage, Γ.var? name = some (storage, ty.tag)

def Array (Γ : Names) (name : String) (ty : Ty) : Prop :=
  ∃ storage, Γ.var? name = some (storage, ty.tag.union .array)

end Names

/-! ## Expressions -/

def Ty.join : Ty → Ty → Ty
  | .int, .int => .int
  | _, _ => .double

/-- A constant in the range of its type: the decimal text of a 64-bit number, or a text with a
point or an exponent that has a nearest double. -/
def IsConstant (text : String) : Ty → Prop
  | .int => ∃ n : Nat, Numeral.InRange n ∧ text = Numeral.decimalText n
  | .double => Emit.isFloatNumeral text = true ∧ ∃ x, Numeral.FloatLiteral.read? text = some x

mutual

def Expr.HasTy (Γ : Names) : Expr → Ty → Prop
  | .const text, ty => IsConstant text ty
  | .string _, _ => False
  | .read name, ty => Γ.Scalar name ty
  | .readAt name index, ty => Γ.Array name ty ∧ ∃ t, index.HasTy Γ t
  | .unary .negate x, ty => x.HasTy Γ ty
  | .unary .complement x, ty => ty = .int ∧ ∃ t, x.HasTy Γ t
  | .arith op x y, ty =>
    ∃ t u, x.HasTy Γ t ∧ y.HasTy Γ u ∧ ty = t.join u ∧ (op.text = "%" → ty = .int)
  | .bitwise _ x y, ty => ty = .int ∧ ∃ t u, x.HasTy Γ t ∧ y.HasTy Γ u
  | .cast target x, ty => ty = target ∧ ∃ t, x.HasTy Γ t
  | .call name args, ty => ∃ sig, Γ.calls name = some sig ∧ ty = sig.ty ∧
      (∀ n ∈ sig.arity, args.length = n) ∧ Expr.AreArgs Γ args

/-- The expressions can be arguments: each has a value, or is a string or a whole array. -/
def Expr.AreArgs (Γ : Names) : List Expr → Prop
  | [] => True
  | x :: xs => ((∃ t, x.HasTy Γ t) ∨ (∃ text, x = .string text) ∨
      ∃ name t, x = .read name ∧ Γ.Array name t) ∧ Expr.AreArgs Γ xs

end

/-! ## Statements -/

def Place.HasTy (Γ : Names) : Place → Ty → Prop
  | .var name, ty => Γ.Scalar name ty
  | .element name index, ty => Γ.Array name ty ∧ ∃ t, index.HasTy Γ t

def Action.Typed (Γ : Names) : Action → Prop
  | .assign op x y => ∃ t u, x.HasTy Γ t ∧ y.HasTy Γ u ∧ (op.text = "%" → t.join u = .int)
  | .eval x => ∃ t, x.HasTy Γ t

def Test.Typed (Γ : Names) : Test → Prop
  | .compare _ x y => ∃ t u, x.HasTy Γ t ∧ y.HasTy Γ u
  | .nonzero x => ∃ t, x.HasTy Γ t

@[simp]
def Cond.Typed (Γ : Names) : Cond Test → Prop
  | .test t => t.Typed Γ
  | .both c d | .either c d => c.Typed Γ ∧ d.Typed Γ
  | .not c => c.Typed Γ

@[simp]
def Stmt.Typed (Γ : Names) : Code → Prop
  | .act as => ∀ a ∈ as, a.Typed Γ
  | .seq s t => s.Typed Γ ∧ t.Typed Γ
  | .ifThen c s | .while c s | .doWhile s c => c.Typed Γ ∧ s.Typed Γ
  | .ifElse c s t => c.Typed Γ ∧ s.Typed Γ ∧ t.Typed Γ
  | .for init c step s => (∀ a ∈ init, a.Typed Γ) ∧ c.Typed Γ ∧ (∀ a ∈ step, a.Typed Γ) ∧ s.Typed Γ
  | .ret v => ∀ x ∈ v, ∃ t, x.HasTy Γ t
  | .line _ | .break | .continue | .goto _ | .label _ => True

/-! ## Programs -/

def Var.tag (v : Var) : Tag := if 1 < v.count then v.ty.tag.union .array else v.ty.tag

def Func.params (f : Func) : List (String × Storage × Tag) :=
  f.formals.map fun p => (p.1, .param, p.2.tag)

def Func.autos (f : Func) : List (String × Storage × Tag) :=
  f.locals.map fun v => (v.name, .stack, v.tag)

def Func.scope (f : Func) : List (String × Storage × Tag) := f.params ++ f.autos

def Program.vars (p : Program) : List Var :=
  p.filterMap fun
    | .var v => some v
    | .func _ => none

/-- What a call of a name means anywhere in a program. A function that is not in the program is
an int function with any number of arguments. -/
def Program.signature? (p : Program) (name : String) : Option Signature :=
  if name = "" ∨ name ∈ p.vars.map (·.name) then none
  else some (match p.funcs.find? (·.name == name) with
    | some g => ⟨g.ty, some g.formals.length⟩
    | none => ⟨.int, none⟩)

/-- The names inside the function `f`, which is the last of the items `done` of the program. A
function that comes later can be called when it is an int function. -/
def Program.names (p done : Program) (f : Func) : Names where
  locals name := f.scope.lookup name
  globals name := (done.vars.map fun v => (v.name, v.tag)).lookup name
  calls name := (p.signature? name).filter fun sig => sig.ty = .int ∨ name ∈ done.funcs.map (·.name)
  inside := by
    intro name storage tag h
    obtain ⟨l1, l2, hl, -⟩ := List.lookup_eq_some_iff.1 h
    have hm : (name, storage, tag) ∈ f.scope := by simp [hl]
    rcases List.mem_append.1 hm with hm | hm <;> obtain ⟨_, -, heq⟩ := List.mem_map.1 hm <;>
      cases heq <;> simp

structure Func.WellFormed (settings : Settings) (Γ : Names) (f : Func) : Prop where
  distinct : (f.scope.map Prod.fst).Nodup
  admitted : f.Admitted settings
  typed : f.body.Typed Γ

/-- The functions among the items `rest` of a program are well-formed, where the items `done` stand
before. -/
def Program.FuncsWellFormed (settings : Settings) (p : Program) : Program → Program → Prop
  | _, [] => True
  | done, .var v :: rest => p.FuncsWellFormed settings (done ++ [.var v]) rest
  | done, .func f :: rest =>
    f.WellFormed settings (p.names (done ++ [.func f]) f) ∧
      p.FuncsWellFormed settings (done ++ [.func f]) rest

structure Program.WellFormed (settings : Settings) (p : Program) : Prop where
  vars : (p.vars.map (·.name)).Nodup
  funcs : (p.funcs.map (·.name)).Nodup
  apart : ∀ v ∈ p.vars, v.name ∉ p.funcs.map (·.name) ∧
    v.name ∉ Lowering.builtins.map (·.name)
  bodies : p.FuncsWellFormed settings [] p

end Quadruple.Source
