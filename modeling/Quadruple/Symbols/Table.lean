import Quadruple.Code.Basic
import Quadruple.Ir.Basic

/-!
# The symbol table

Names are installed on levels. Level 0 holds the globals and is always there; entering a scope
adds a level and leaving drops the innermost one. An entry lives on after its level is gone and
after another entry has taken its name, and whoever holds its number sees later changes to it.
-/

namespace Quadruple.Symbols

inductive Kind where
  | var
  | func
  | unnamed (code : Int)
deriving DecidableEq, Repr, Inhabited

def Kind.ofCode (n : Int) : Kind :=
  if n = 0 then .var else if n = 1 then .func else .unnamed n

def Kind.code : Kind → Int
  | .var => 0
  | .func => 1
  | .unnamed n => n

structure Entry where
  name : String
  kind : Kind := .var
  storage : Storage := .global
  tag : Tag := ⟨0⟩
  /-- The number of elements, 1 for a scalar. -/
  count : Int := 1
  /-- The place among the formals or locals of its function. -/
  offset : Int := 0
  /-- The level that the entry was installed on. -/
  level : Nat := 0
  defined : Bool := false
  /-- Declared by a call only. -/
  implicit : Bool := false
  /-- Where the name is found in the intermediate form. -/
  handle : Option Ir.Value := none
  /-- The machine type of what is stored or returned. -/
  elem : Ir.Ty := .none
  variadic : Bool := false
  fixed : Int := 0
deriving DecidableEq, Repr, Inhabited

abbrev EntryId := Nat

abbrev Level := List (String × EntryId)

structure Table where
  entries : Array Entry
  globals : Level
  /-- The levels above the globals, the innermost first. -/
  inner : List Level
deriving DecidableEq, Repr, Inhabited

namespace Table

def empty : Table := ⟨#[], [], []⟩

def level (t : Table) : Nat := t.inner.length

def enter (t : Table) : Table := { t with inner := [] :: t.inner }

def leave (t : Table) : Table := { t with inner := t.inner.tail }

def entry (t : Table) (id : EntryId) : Entry := t.entries.getD id default

def modifyEntry (t : Table) (id : EntryId) (f : Entry → Entry) : Table :=
  { t with entries := t.entries.modify id f }

def lookupGlobal? (t : Table) (name : String) : Option EntryId := t.globals.lookup name

def lookupCurrent? (t : Table) (name : String) : Option EntryId :=
  match t.inner with
  | l :: _ => l.lookup name
  | [] => t.globals.lookup name

def lookup? (t : Table) (name : String) : Option EntryId :=
  (t.inner ++ [t.globals]).findSome? (·.lookup name)

/-- The level that a request for level `n` means: the current one when `n` is no level. -/
def clampLevel (t : Table) (n : Int) : Nat :=
  if n < 0 || (t.level : Int) < n then t.level else n.toNat

/-- Puts a new entry for a name on a level, where it hides an older entry of that name. -/
def installAt (t : Table) (name : String) (n : Int) : EntryId × Table :=
  let level := t.clampLevel n
  let id := t.entries.size
  let t := { t with entries := t.entries.push { name, level } }
  (id,
    if level = 0 then { t with globals := (name, id) :: t.globals }
    else { t with inner := t.inner.modify (t.level - level) ((name, id) :: ·) })

def install (t : Table) (name : String) : EntryId × Table := t.installAt name t.level

end Table

end Quadruple.Symbols
