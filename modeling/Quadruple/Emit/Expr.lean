import Quadruple.Emit.State

/-!
# Expressions and conditions
-/

namespace Quadruple.Emit

open Symbols (EntryId)

def isFloatNumeral (text : String) : Bool :=
  let cs := text.toList
  !("0x".toList.isPrefixOf cs) && !("0X".toList.isPrefixOf cs) &&
    cs.any fun c => c == '.' || c == 'e' || c == 'E'

/-- Emits an instruction that defines a new temporary and returns that as a value. -/
def define (tag : Tag) (quad : Temp → Quad) : EmitM Value := do
  let dst ← newTemp
  emit (quad dst)
  return { place := dst, tag }

def constant (text : String) : EmitM Value :=
  let tag := if isFloatNumeral text then Tag.double else Tag.int
  define tag fun dst => .const dst text tag

def stringLiteral (text : String) : EmitM Value :=
  define .string fun dst => .string dst text

/-- Declares a name that the source forgot as an int local. Within a function body its storage
is emitted at once. -/
def declareForgotten (name : String) : EmitM EntryId := do
  error (.undeclared name)
  let id ← install name
  let place := (← get).locals.length
  setEntry id fun e =>
    { e with
      kind := .var, storage := .stack, tag := .int, count := 1, defined := true, offset := place }
  modify fun s => { s with locals := s.locals ++ [id] }
  if (← get).headed then emit (.localDecl ⟨name, .int, Tag.int.size⟩)
  return id

def variableRef (name : String) : EmitM Value := do
  let id ← match (← get).table.lookup? name with
    | some id => pure id
    | none => declareForgotten name
  let e := (← get).table.entry id
  define (e.tag.union .address) fun dst => .ref dst e.storage e.name e.offset

def cast (x : Value) (tag : Tag) : EmitM Value :=
  define tag fun dst => .cast dst x.place tag

def truncated (x : Value) : EmitM Value :=
  if x.tag.isDouble then cast x .int else return x

def element (x i : Value) : EmitM Value := do
  let i ← truncated i
  let tag := x.tag.base
  define (tag.union .address) fun dst => .index dst x.place i.place tag

/-- A unary operator: `@` reads from an address, `-` negates, `~` complements. An array stays an
address. -/
def unaryOp (op : String) (y : Value) : EmitM Value :=
  let tag := y.tag.without .address
  match op with
  | "@" =>
    if y.tag.isArray then return { place := y.place, tag := y.tag }
    else define tag fun dst => .load dst y.place tag
  | "-" => define tag fun dst => .unary dst op y.place tag
  | "~" => do
    if tag.isDouble then
      let y ← cast y .int
      define .int fun dst => .unary dst op y.place .int
    else define tag fun dst => .unary dst op y.place tag
  | _ => throw (.unknownUnary op)

def promoted (x y : Value) : EmitM (Value × Value) := do
  if x.tag.isDouble && !y.tag.isDouble then
    warn .type .converted
    return (x, ← cast y .double)
  else if !x.tag.isDouble && y.tag.isDouble then
    warn .type .converted
    return (← cast x .double, y)
  else return (x, y)

def arithOp (op : String) (x y : Value) : EmitM Value := do
  if op ∉ OpClass.arith.lexemes then throw (.unknownArith op)
  let (x, y) ← promoted x y
  let tag := x.tag.base
  if op = "%" && tag.isDouble then error .doubleRemainder
  define tag fun dst => .binary .arith dst op x.place y.place tag

def bitwiseOp (op : String) (x y : Value) : EmitM Value := do
  if op ∉ OpClass.bitwise.lexemes then throw (.unknownBitwise op)
  let x ← truncated x
  let y ← truncated y
  define .int fun dst => .binary .bitwise dst op x.place y.place .int

/-- Compares two values and branches on the outcome. The result has one blank on each exit. -/
def relation (op : String) (x y : Value) : EmitM Value := do
  if op ∉ OpClass.compare.lexemes then throw (.unknownRelation op)
  let (x, y) ← promoted x y
  let dst ← newTemp
  emit (.binary .compare dst op x.place y.place x.tag.base)
  let t ← newBlank
  emit (.condJump dst (.blank t))
  let f ← newBlank
  emit (.jump (.blank f))
  let onTrue ← single t
  let onFalse ← single f
  return { place := dst, tag := .int, onTrue, onFalse }

/-- The value that an assignment stores: `y` itself, or, with an operator, its result on what
is stored at `x` and `y`. -/
def assigned (op : String) (x y : Value) : EmitM Value :=
  if op = "" then return y
  else do
    let current ← unaryOp "@" { place := x.place, tag := x.tag.without .array }
    if op ∈ OpClass.bitwise.lexemes then bitwiseOp op current y else arithOp op current y

def converted (tag : Tag) (y : Value) : EmitM Value :=
  if !tag.isDouble && y.tag.isDouble then cast y .int
  else if tag.isDouble && !y.tag.isDouble then cast y .double
  else return y

/-- Assigns `y` to the place `x`. With an operator it is a compound assignment. -/
def assign (op : String) (x y : Value) : EmitM Value := do
  let y ← assigned op x y
  let tag := x.tag.base
  let y ← converted tag y
  define tag fun dst => .store dst x.place y.place tag

/-- Appends a value to a list of arguments. A list whose row is full moves to a larger
one. -/
def appendArg (args : ArgList) (v : Value) : EmitM ArgList := do
  unmark
  match args with
  | .empty => newRow (nextRoom 0) [v]
  | .span row size =>
    let r := ((← get).rows[row]?).getD default
    if size < r.room then
      modify fun s => { s with rows := s.rows.modify row (·.put size v) }
      return .span row (size + 1)
    else newRow (nextRoom r.room) (r.values.take size ++ [v])

/-- The entry of a function that is called. One that is not declared becomes an int function. -/
def calleeEntry (name : String) : EmitM EntryId := do
  match (← get).table.lookupGlobal? name with
  | some id => return id
  | none =>
    warn .implicitDecl (.implicitFunction name)
    let id ← installAt name 0
    setEntry id fun e =>
      { e with kind := .func, storage := .global, tag := .int, implicit := true }
    return id

def call (name : String) (args : ArgList) : EmitM Value := do
  let e ← getEntry (← calleeEntry name)
  let args := (← get).argsOf args
  args.forM fun a => emit (.arg a.place a.tag.base)
  let callee ← newTemp
  emit (.ref callee .global e.name 0)
  let tag := e.tag.base
  define tag fun dst => .call dst callee tag (args.map (·.place))

/-! ## Conditions -/

def condition (v : Value) : EmitM Value := do
  unmark
  let zero ← constant "0"
  relation "!=" v zero

/-- Both of two conditions, where `m` marks the start of the second. -/
def both (x : Value) (m : Int) (y : Value) : EmitM Value := do
  unmark
  resolve x.onTrue m
  return { place := ⟨0⟩, tag := ⟨0⟩, onTrue := y.onTrue, onFalse := ← merge x.onFalse y.onFalse }

def either (x : Value) (m : Int) (y : Value) : EmitM Value := do
  unmark
  resolve x.onFalse m
  return { place := ⟨0⟩, tag := ⟨0⟩, onTrue := ← merge x.onTrue y.onTrue, onFalse := y.onFalse }

def negated (v : Value) : EmitM Value := do
  unmark
  return { place := ⟨0⟩, tag := ⟨0⟩, onTrue := v.onFalse, onFalse := v.onTrue }

end Quadruple.Emit
