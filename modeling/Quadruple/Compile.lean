import Quadruple.Code.Reader
import Quadruple.Flow.Build
import Quadruple.Lowering.Program
import Quadruple.Output.Backend

/-!
# Compiling

The way of a program from its text to the intermediate form: sources are read and built one by
one, their graphs are joined, and the whole is lowered once.
-/

namespace Quadruple

structure Source where
  name : String
  text : String
deriving DecidableEq, Repr, Inhabited

inductive GraphFault where
  | source (why : SourceFault)
  | build (why : Flow.BuildFault)
deriving DecidableEq, Repr

def GraphFault.message : GraphFault → String
  | .source why => why.message
  | .build why => why.message

def Source.graph (s : Source) : Except GraphFault Flow.Graph := do
  let code ← (readCode s.name s.text).mapError .source
  (Flow.build code).mapError .build

structure Lowered where
  result : Except Lowering.Fault Ir.Program
  table : Symbols.Table
  report : Report

def lowerGraph (settings : Settings) (table : Symbols.Table) (file : String) (g : Flow.Graph) :
    Lowered :=
  match (Lowering.lower g).run (.new settings table { flags := some settings.warnings } file) with
  | .ok p s => ⟨.ok p, s.table, s.report⟩
  | .error e s => ⟨.error e, s.table, s.report⟩

end Quadruple
