import Quadruple.Lowering.State
import Quadruple.Numeral.FloatLiteral

/-!
# Lowering of single instructions

An operator works in doubles when an operand is a double, and in words otherwise, whatever its tag
says; a tag that says something else is reported. Operands and stored values are converted between
words and doubles where they have to be.
-/

namespace Quadruple.Lowering

open Numeral (readLiteral wrap32)
open Symbols (Entry EntryId)

def operation? : OpClass → String → Option Ir.Op
  | .arith, "+" => some .add
  | .arith, "-" => some .sub
  | .arith, "*" => some .mul
  | .arith, "/" => some .div
  | .arith, "%" => some .rem
  | .bitwise, "&" => some .and
  | .bitwise, "|" => some .or
  | .bitwise, "^" => some .xor
  | .bitwise, "<<" => some .shl
  | .bitwise, ">>" => some .sar
  | .compare, "==" => some .ceq
  | .compare, "!=" => some .cne
  | .compare, "<" => some .clt
  | .compare, ">" => some .cgt
  | .compare, "<=" => some .cle
  | .compare, ">=" => some .cge
  | _, _ => none

/-- Whether a value of one type has to be converted to be used as another. -/
def needsConversion (have_ want : Ir.Ty) : Bool :=
  (have_ = .double && want = .word) || (have_ = .word && want = .double)

def conversion (want : Ir.Ty) (x : Ir.Value) : Ir.Instr :=
  if want = .double then
    { op := .swtof, ty := .double, operandTy := .word, args := [x] }
  else { op := .ftosi, ty := .word, operandTy := .double, args := [x] }

/-- The value of a binding as a value of type `want`, converted if need be. -/
def coerce (b : Binding) (want : Ir.Ty) : LowerM Ir.Value := do
  if needsConversion b.ty want then
    let r ← newConversion
    addInstr { conversion want b.val with result := some r }
    return r
  else return b.val

/-- A numeral. Integers are cut to 32 bits; one that cannot be read is reported. -/
def lowerConst (text : String) (tag : Tag) : LowerM Binding := do
  if tag.isDouble then
    match Numeral.FloatLiteral.read? text with
    | some x => return { val := .float x .double, ty := .double }
    | none => throw (.badFloat text)
  else
    let reading := readLiteral text
    if reading.fault.isSome then error (.constantRange text)
    return { val := .const (wrap32 reading.value), ty := .word }

/-- The data that holds a string literal. Equal contents share one definition. -/
def intern (text : String) : LowerM Ir.Value := do
  let bytes := Text.unescape (Text.utf8Bytes text)
  let s ← get
  match s.literals.findIdx? (· == bytes) with
  | some i => return literalName i
  | none =>
    set { s with literals := s.literals ++ [bytes] }
    return literalName s.literals.length
where
  literalName (i : Nat) : Ir.Value := .global ("str." ++ Numeral.decimalText i)

/-- The binding of a name that designates a function, or that nothing is known of. -/
def functionBinding (name : String) : Binding :=
  { val := .global name, ty := .ptr, callee := if name = "" then none else some name }

def variableBinding (e : Entry) (handle : Ir.Value) : Binding :=
  { val := handle, ty := .ptr, elem := e.elem, isArray := e.tag.isArray }

/-- A reference to a name. A global that is no variable is taken for a function. -/
def lowerRef (storage : Storage) (name : String) : LowerM Binding := do
  let s ← get
  if storage = .global then
    match s.table.lookupGlobal? name with
    | none => return functionBinding name
    | some id =>
      let e := s.table.entry id
      match e.kind, e.handle with
      | .func, _ | _, none => return functionBinding name
      | _, some handle => return variableBinding e handle
  else
    match s.table.lookup? name with
    | none => throw (.unknownRef storage name s.func)
    | some id =>
      let e := s.table.entry id
      match e.handle with
      | none => throw (.unknownRef storage name s.func)
      | some handle => return variableBinding e handle

def lowerLoad (dst addr : Temp) (tag : Tag) : LowerM Unit := do
  let a ← address addr
  if a.isArray then bind dst a
  else defineTemp dst (machineTy tag) { op := .load, args := [a.val] }

/-- Writing to an address. The temporary stands for what was stored. -/
def lowerStore (dst addr val : Temp) (tag : Tag) : LowerM Unit := do
  let a ← address addr
  let v ← binding val
  let ty := machineTy tag
  let x ← coerce v ty
  addInstr { op := .store, ty, args := [x, a.val] }
  bind dst (if needsConversion v.ty ty then { val := x, ty } else v)

/-- The address of an element: the base plus the index times the size of an element. -/
def lowerIndex (dst base idx : Temp) (tag : Tag) : LowerM Unit := do
  let b ← address base
  let i := (← binding idx).val
  let elem := tag.base
  let i ← if (← get).settings.wordSize = 8 then do
      let wide ← newConversion
      addInstr
        { op := .extsw, ty := .ptr, operandTy := .word, result := some wide, args := [i] }
      pure wide
    else pure i
  let scaled ← newConversion
  addInstr { op := .mul, ty := .ptr, result := some scaled, args := [i, .const elem.size] }
  addInstr { op := .add, ty := .ptr, result := some (tempValue dst), args := [b.val, scaled] }
  bind dst { val := tempValue dst, ty := .ptr, elem := machineTy elem }

/-- The type that an operator works in: double when an operand is. A tag that says something
else is reported. -/
def operandType (op : String) (tag : Tag) (operands : List Temp) : LowerM Ir.Ty := do
  let bs ← operands.mapM binding
  let ty := if bs.any (·.ty = .double) then Ir.Ty.double else .word
  let expected := machineTy tag.base
  if expected ≠ ty then error (.operandTypes op expected ty)
  return ty

def lowerUnary (dst : Temp) (op : String) (x : Temp) (tag : Tag) : LowerM Unit := do
  match op with
  | "-" =>
    let ty ← operandType op tag [x]
    let x ← coerce (← binding x) ty
    defineTemp dst ty { op := .neg, args := [x] }
  | "~" =>
    let _ ← operandType op .int [x]
    let x ← coerce (← binding x) .word
    defineTemp dst .word { op := .xor, args := [x, .const (-1)] }
  | _ => throw (.unknownUnary op)

/-- A binary operator whose result has type `ty` and whose operands are used as `operandTy`. -/
def lowerOperation (dst : Temp) (op? : Option Ir.Op) (lexeme : String) (x y : Temp)
    (ty operandTy : Ir.Ty) : LowerM Unit := do
  match op? with
  | none => throw (.unknownBinary lexeme)
  | some op =>
    let x ← coerce (← binding x) operandTy
    let y ← coerce (← binding y) operandTy
    defineTemp dst ty { op, operandTy, args := [x, y] }

def lowerBinary (cls : OpClass) (dst : Temp) (op : String) (x y : Temp) (tag : Tag) :
    LowerM Unit := do
  match cls with
  | .arith =>
    let ty ← operandType op tag [x, y]
    lowerOperation dst (operation? cls op) op x y ty ty
  | .bitwise =>
    let _ ← operandType op .int [x, y]
    lowerOperation dst (operation? cls op) op x y .word .word
  | .compare =>
    let ty ← operandType op tag [x, y]
    lowerOperation dst (operation? cls op) op x y .word ty

def lowerCast (dst x : Temp) (tag : Tag) : LowerM Unit := do
  let x ← binding x
  let want := if tag.isDouble then Ir.Ty.double else .word
  if x.ty = want then bind dst x else defineTemp dst want (conversion want x.val)

/-- The entry of a function that is called. A name that is no function becomes an int function
with as many parameters as the call has arguments. -/
def calleeEntry (name : String) (args : Nat) : LowerM EntryId := do
  let s ← get
  let known := (s.table.lookupGlobal? name).filter fun id => (s.table.entry id).kind = .func
  match known with
  | some id => return id
  | none =>
    warn .implicitDecl s.pos (.implicitFunction name)
    let id ← installGlobal name
    setEntry id fun e =>
      { e with
        kind := .func, storage := .global, tag := .int, implicit := true
        handle := some (.global name), elem := .word, fixed := args }
    return id

def declareForeign (e : Entry) : LowerM Unit :=
  modify fun s =>
    if s.defined.contains e.name || s.foreign.any (·.name == e.name) then s
    else { s with foreign := s.foreign ++ [⟨e.name, e.elem, e.variadic, e.fixed⟩] }

/-- Where a function is found. One that has no handle yet gets that of its name. -/
def calleeHandle (id : EntryId) (name : String) : LowerM Ir.Value := do
  match (← getEntry id).handle with
  | some h => return h
  | none =>
    setEntry id fun e => { e with handle := some (.global name), elem := machineTy e.tag.base }
    return .global name

/-- Reports a call of a function of the program with the wrong number of arguments. -/
def checkCount (e : Entry) (given : Nat) : LowerM Unit := do
  if (← get).defined.contains e.name && !e.variadic && (given : Int) ≠ e.fixed then
    error (.argumentCount e.name given e.fixed)

def addCall (dst : Temp) (handle : Ir.Value) (ty : Ir.Ty) (args : List Temp) : LowerM Unit := do
  let bs ← args.mapM binding
  let instr : Ir.Instr :=
    { op := .call, ty, args := handle :: bs.map (·.val), argTys := bs.map (·.ty) }
  if ty = .none then
    addInstr instr
    bind dst { val := .const 0, ty := .word }
  else defineTemp dst ty instr

def lowerCall (dst callee : Temp) (args : List Temp) : LowerM Unit := do
  match (← binding callee).callee with
  | none => throw (.notCallable callee (← get).func)
  | some name =>
    let id ← calleeEntry name args.length
    let handle ← calleeHandle id name
    let e ← getEntry id
    declareForeign e
    checkCount e args.length
    addCall dst handle e.elem args

def defaultReturn (ret : Ir.Ty) : Ir.Instr :=
  { op := .ret, args := match ret with
    | .double => [.float .zero .double]
    | .none => []
    | _ => [.const 0] }

def lowerRet (val : Option Temp) : LowerM Unit := do
  let ret := (← get).ret
  match val with
  | none => addInstr (defaultReturn ret)
  | some t =>
    let x ← coerce (← binding t) ret
    addInstr { op := .ret, args := [x] }

def blockLabel (t : Target) : Ir.Value := .label (labelName t.number)

def lowerQuad : Quad → LowerM Unit
  | .stmtBegin line => modify fun s => { s with line }
  | .const dst text tag => do bind dst (← lowerConst text tag)
  | .string dst text => do
    bind dst { val := ← intern text, ty := .ptr, elem := .byte, isArray := true }
  | .ref dst storage name _ => do bind dst (← lowerRef storage name)
  | .load dst addr tag => lowerLoad dst addr tag
  | .store dst addr val tag => lowerStore dst addr val tag
  | .index dst base idx tag => lowerIndex dst base idx tag
  | .unary dst op x tag => lowerUnary dst op x tag
  | .binary cls dst op x y tag => lowerBinary cls dst op x y tag
  | .cast dst x tag => lowerCast dst x tag
  | .arg x _ => do let _ ← binding x
  | .call dst callee _ args => lowerCall dst callee args
  | .branch cond onTrue onFalse => do
    let c ← binding cond
    addInstr { op := .jnz, args := [c.val, blockLabel onTrue, blockLabel onFalse] }
  | .jump target => addInstr { op := .jmp, args := [blockLabel target] }
  | .ret val _ => lowerRet val
  | .funcEnd => do addInstr (defaultReturn (← get).ret)
  | q@(.globalDecl _) | q@(.formalDecl _) | q@(.localDecl _) | q@(.funcBegin _ _)
  | q@(.condJump _ _) | q@(.label _) | q@(.patch _ _) => throw (.misplaced q)

end Quadruple.Lowering
