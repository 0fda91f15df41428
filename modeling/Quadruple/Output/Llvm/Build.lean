import Quadruple.Output.Llvm.Printer

/-!
# From the intermediate form to an LLVM module

Values are found by the text that listings show for them. An instruction that uses a value that
the module does not have is refused; the refusal takes effect when the instruction is done, so a
rule that the same instruction breaks comes first.
-/

namespace Quadruple.Llvm

def scalar (word : Scalar) : Ir.Ty → Scalar
  | .byte => .i8
  | .word => .i32
  | .long => .i64
  | .double => .double
  | .ptr => word
  | .none | .unnamed _ => .void

/-! ## Data -/

def maxBytes : Int := 281474976710656

def itemBytes (name : String) (i : Ir.Item) : Except Fault (List UInt8) :=
  if maxBytes < i.count then .error (.broken .malformed)
  else if 0 < i.count then .ok (List.replicate i.count.toNat 0)
  else if i.ty = .byte then
    match i.value with
    | .const n => .ok [UInt8.ofInt n]
    | _ => .error (.dataByte name)
  else .error (.dataType name i.ty)

/-- The global of a data definition: zero when no item gives a value. -/
def dataGlobal (wordSize : Int) (d : Ir.Data) : Except Fault Global := do
  let size := d.size wordSize
  if d.items.all (·.count ≠ 0) then
    return ⟨d.name, (size % 18446744073709551616).toNat, none, d.readOnly, !d.exported, d.align⟩
  else if size < 0 || maxBytes < size then .error (.broken .malformed)
  else
    let bytes := (← d.items.mapM (itemBytes d.name)).flatten
    return ⟨d.name, bytes.length, some bytes, d.readOnly, !d.exported, d.align⟩

/-! ## Signatures -/

def callee? (i : Ir.Instr) : Option String :=
  match i.op, i.args with
  | .call, .global name :: _ => some name
  | _, _ => none

def firstCallTypes (p : Ir.Program) (name : String) : List Ir.Ty :=
  let instrs := p.funcs.flatMap fun f => f.blocks.flatMap (·.instrs)
  match instrs.find? fun i => callee? i == some name with
  | some i => i.argTys
  | none => []

def funcHead (word : Scalar) (f : Ir.Func) : Func :=
  { name := f.name, sig := ⟨scalar word f.ret, f.params.map fun p => scalar word p.ty, false⟩ }

/-- The declaration of a foreign function, with the parameters of its first call. -/
def foreignHead (word : Scalar) (p : Ir.Program) (f : Ir.Foreign) : Except Fault Func :=
  let tys := firstCallTypes p f.name
  if f.variadic && f.fixed < tys.length then
    if f.fixed < 0 then .error (.broken .malformed)
    else .ok (head (tys.take f.fixed.toNat))
  else .ok (head tys)
where
  head (tys : List Ir.Ty) : Func :=
    { name := f.name, sig := ⟨scalar word f.ret, tys.map (scalar word), f.variadic⟩ }

/-! ## Bodies -/

structure Body where
  word : Scalar
  module : Module
  ret : Scalar
  /-- How many blocks and instructions the function had before. -/
  firstBlock : Nat
  /-- The blocks, each with its instructions latest first. -/
  blocks : Array Block
  current : Nat
  nextInstr : Nat
  /-- The values by their texts, the latest first. -/
  values : List (String × Operand)
  refusal : Option Refusal
deriving Inhabited

abbrev BuildM := EStateM Breakage Body

def lastIndexBelow? {α : Type} (a : Array α) (p : α → Bool) : Nat → Option Nat
  | 0 => none
  | n + 1 => if (a[n]?).any p then some n else lastIndexBelow? a p n

def lastIndex? {α : Type} (a : Array α) (p : α → Bool) : Option Nat := lastIndexBelow? a p a.size

def refuse (r : Refusal) : BuildM Unit :=
  modify fun b => { b with refusal := b.refusal.or (some r) }

def addInstr (i : Instr) : BuildM Local :=
  modifyGet fun b => (.instr b.nextInstr,
    { b with
      nextInstr := b.nextInstr + 1
      blocks := b.blocks.modify b.current fun k =>
        { k with instrs := (b.nextInstr, i) :: k.instrs } })

def addValue (ty : Scalar) (i : Instr) : BuildM Operand := do
  return .var ty (← addInstr i)

/-- Ends the current block. A later end takes the place of an earlier one. -/
def terminate (t : Terminator) : BuildM Unit :=
  modify fun b =>
    { b with blocks := b.blocks.modify b.current fun k => { k with terminator := some t } }

def define (result : Option Ir.Value) (x : Operand) : BuildM Unit :=
  match result.bind Ir.Value.text? with
  | some text => modify fun b => { b with values := (text, x) :: b.values }
  | none => return

def addressOf (name : String) : BuildM Operand := do
  let b ← get
  match lastIndex? b.module.globals (·.name == name) with
  | some i => addValue b.word (.ptrToInt (.data i) b.word)
  | none => match lastIndex? b.module.funcs (·.name == name) with
    | some i => addValue b.word (.ptrToInt (.func i) b.word)
    | none =>
      refuse (.unknownGlobal name)
      return .int b.word 0

/-- A value that is wanted as type `want`. Only a constant takes on that type; all else keeps its
own. -/
def operand (v : Ir.Value) (want : Scalar) : BuildM Operand := do
  match v with
  | .const n =>
    if want.isSized then return .int want n
    else if want = .double then return .double (.ofInt n)
    else unusable
  | .float x _ => return .double x
  | .global name => addressOf name
  | .temp .. =>
    match (← get).values.lookup v.shown with
    | some x => return x
    | none =>
      refuse (.undefinedTemp v.shown)
      return .undef want
  | .label _ | .missing => unusable
where
  unusable : BuildM Operand := do
    refuse (.unusable v.shown want)
    return .undef want

def argument (i : Ir.Instr) (place : Nat) : BuildM Ir.Value :=
  match i.args[place]? with
  | some v => return v
  | none => throw .malformed

def operandAt (i : Ir.Instr) (place : Nat) (want : Scalar) : BuildM Operand := do
  operand (← argument i place) want

/-- A pointer to a value of type `elem` at the address that an argument gives. -/
def pointerAt (i : Ir.Instr) (place : Nat) (elem : Scalar) : BuildM Local := do
  let x ← operandAt i place (← get).word
  addInstr (.intToPtr x elem)

def blockAt (i : Ir.Instr) (place : Nat) : BuildM Nat := do
  let b ← get
  let v ← argument i place
  let found := match v with
    | .label name => lastIndex? b.blocks (·.name == name)
    | _ => none
  match found with
  | some k => return b.firstBlock + k
  | none =>
    refuse (.unknownBlock v.shown)
    return b.firstBlock + b.current

def arithName (isDouble : Bool) : Ir.Op → String
  | .add => if isDouble then "fadd" else "add"
  | .sub => if isDouble then "fsub" else "sub"
  | .mul => if isDouble then "fmul" else "mul"
  | .div => if isDouble then "fdiv" else "sdiv"
  | _ => if isDouble then "frem" else "srem"

def bitwiseName : Ir.Op → String
  | .and => "and"
  | .or => "or"
  | .xor => "xor"
  | .shl => "shl"
  | _ => "ashr"

def intPredicate : Ir.Op → String
  | .ceq => "icmp eq"
  | .cne => "icmp ne"
  | .clt => "icmp slt"
  | .cgt => "icmp sgt"
  | .cle => "icmp sle"
  | _ => "icmp sge"

def doublePredicate : Ir.Op → String
  | .ceq => "fcmp oeq"
  | .cne => "fcmp one"
  | .clt => "fcmp olt"
  | .cgt => "fcmp ogt"
  | .cle => "fcmp ole"
  | _ => "fcmp oge"

def addIntCompare (predicate : String) (x y : Operand) : BuildM Local := do
  if !x.ty.isInt then throw (.icmpOperand x.ty)
  addInstr (.compare predicate x y)

def addDoubleCompare (predicate : String) (x y : Operand) : BuildM Local := do
  if x.ty ≠ .double then throw (.fcmpOperand x.ty)
  addInstr (.compare predicate x y)

def buildAlloc (i : Ir.Instr) : BuildM Unit := do
  match ← argument i 0 with
  | .const n =>
    let word := (← get).word
    let size := (n % 18446744073709551616).toNat
    let slot ← addInstr (.alloca size i.align)
    define i.result (← addValue word (.ptrToInt (.slot size slot) word))
  | _ => refuse .allocSize

def buildStore (i : Ir.Instr) (ty : Scalar) : BuildM Unit := do
  let x ← operandAt i 0 ty
  let ptr ← pointerAt i 1 ty
  if x.ty = .unsized && ty.isInt then throw .malformed
  if x.ty ≠ ty then throw (.storeTypes x.ty ty)
  let _ ← addInstr (.store x ty ptr)

def buildBinary (i : Ir.Instr) (ty : Scalar) (name : String) : BuildM Unit := do
  let x ← operandAt i 0 ty
  let y ← operandAt i 1 ty
  define i.result (← addValue x.ty (.binary name x y))

def buildNeg (i : Ir.Instr) (ty : Scalar) : BuildM Unit := do
  let x ← operandAt i 0 ty
  if ty = .double then define i.result (← addValue x.ty (.fneg x))
  else
    let intTy := if ty.isSized then ty else .unsized
    define i.result (← addValue intTy (.binary "sub" (.int intTy 0) x))

def buildCompare (i : Ir.Instr) (ty : Scalar) : BuildM Unit := do
  let word := (← get).word
  let operandTy := if i.operandTy = .none then ty else scalar word i.operandTy
  let x ← operandAt i 0 operandTy
  let y ← operandAt i 1 operandTy
  let c ← if operandTy = .double then addDoubleCompare (doublePredicate i.op) x y
    else addIntCompare (intPredicate i.op) x y
  define i.result (← addValue .i32 (.convert "zext" (.var .i1 c) .i32))

def buildConvert (i : Ir.Instr) (name : String) (source result : Scalar) : BuildM Unit := do
  let x ← operandAt i 0 source
  define i.result (← addValue result (.convert name x result))

def buildBranch (i : Ir.Instr) : BuildM Unit := do
  let x ← operandAt i 0 .i32
  let c ← addIntCompare "icmp ne" x (.int .i32 0)
  let t ← blockAt i 1
  let f ← blockAt i 2
  terminate (.branch c t f)

def buildRet (i : Ir.Instr) : BuildM Unit := do
  let ret := (← get).ret
  if i.args.isEmpty || ret = .void then terminate (.ret none)
  else terminate (.ret (some (← operandAt i 0 ret)))

def buildCall (i : Ir.Instr) : BuildM Unit := do
  let b ← get
  let found := (callee? i).bind fun name => lastIndex? b.module.funcs (·.name == name)
  match found with
  | none => refuse (.unknownCallee (← argument i 0).shown)
  | some k =>
    let args ← (i.args.drop 1).zipIdx.mapM fun (a, n) =>
      operand a (scalar b.word ((i.argTys[n]?).getD .ptr))
    let ret := match b.module.funcs[k]? with
      | some f => f.sig.ret
      | none => .void
    define i.result (← addValue ret (.call k ret args))

def buildInstr (i : Ir.Instr) : BuildM Unit := do
  let ty := scalar (← get).word i.ty
  match i.op with
  | .alloc => buildAlloc i
  | .load =>
    let ptr ← pointerAt i 0 ty
    define i.result (← addValue ty (.load ty ptr))
  | .store => buildStore i ty
  | .copy => define i.result (← operandAt i 0 ty)
  | .add | .sub | .mul | .div | .rem => buildBinary i ty (arithName (ty = .double) i.op)
  | .and | .or | .xor | .shl | .sar => buildBinary i ty (bitwiseName i.op)
  | .neg => buildNeg i ty
  | .ceq | .cne | .clt | .cgt | .cle | .cge => buildCompare i ty
  | .extsw => buildConvert i "sext" .i32 ty
  | .ftosi => buildConvert i "fptosi" .double .i32
  | .swtof => buildConvert i "sitofp" .i32 .double
  | .jmp => terminate (.jump (← blockAt i 0))
  | .jnz => buildBranch i
  | .ret => buildRet i
  | .call => buildCall i
  | .unnamed _ => refuse (.unsupported i.op)

def buildInstrs : List Ir.Instr → BuildM Unit
  | [] => return
  | i :: rest => do
    buildInstr i
    if (← get).refusal.isNone then buildInstrs rest

/-- Builds blocks up to the first refusal. Of blocks with one name the last is filled. -/
def buildBlocks : List Ir.Block → BuildM Unit
  | [] => return
  | k :: rest => do
    let b ← get
    set { b with current := (lastIndex? b.blocks (·.name == k.label)).getD 0 }
    buildInstrs k.instrs
    if (← get).refusal.isNone then buildBlocks rest

/-- The parameters as values. Each must have its place in the signature. -/
def paramValues (sig : Signature) (params : List Ir.Param) :
    Except Breakage (List (String × Operand)) :=
  params.zipIdx.mapM fun (p, i) =>
    match p.val.text?, sig.params[i]? with
    | some text, some ty => .ok (text, .var ty (.param i))
    | _, _ => .error .malformed

/-- Adds the body of a function to the module: to the last function of that name. -/
def addBody (word : Scalar) (m : Module) (f : Ir.Func) : Except Fault Module := do
  match lastIndex? m.funcs (·.name == f.name) with
  | none => return m
  | some k =>
    let head := (m.funcs[k]?).getD default
    let values ← (paramValues head.sig f.params).mapError Fault.broken
    let start : Body :=
      { word, module := m, ret := scalar word f.ret, firstBlock := head.blocks.size,
        blocks := (f.blocks.map fun b => { name := b.label : Block }).toArray, current := 0,
        nextInstr := head.instrCount, values := values.reverse, refusal := none }
    match (buildBlocks f.blocks).run start with
    | .error why _ => .error (.broken why)
    | .ok _ b => match b.refusal with
      | some why => .error (.refused f.name why)
      | none =>
        let blocks := b.blocks.map fun k => { k with instrs := k.instrs.reverse }
        let done := { head with blocks := head.blocks ++ blocks, instrCount := b.nextInstr }
        return { m with funcs := m.funcs.setIfInBounds k done }

def build (p : Ir.Program) : Except Fault Module := do
  let word : Scalar := if p.wordSize = 4 then .i32 else .i64
  let globals ← (p.globals ++ p.strings).mapM (dataGlobal p.wordSize)
  let foreign ← p.foreign.mapM (foreignHead word p)
  let heads := p.funcs.map (funcHead word) ++ foreign
  p.funcs.foldlM (addBody word) ⟨globals.toArray, heads.toArray⟩

def render (p : Ir.Program) : Except Fault String := do
  (← build p).text.mapError Fault.broken

end Quadruple.Llvm
