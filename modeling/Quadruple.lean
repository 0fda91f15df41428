import Quadruple.Main
import Quadruple.Proofs.Source.Structured
import Quadruple.Proofs.Lowering.Interned
import Quadruple.Proofs.Lowering.Meaning
import Quadruple.Proofs.Flow.Trace
import Quadruple.Proofs.Source.Pipeline
import Quadruple.Proofs.Emit.Labels
import Quadruple.Proofs.Source.Branches
import Quadruple.Proofs.Emit.Text
import Quadruple.Proofs.Output.Agreement
import Quadruple.Proofs.Lowering.Values
import Quadruple.Proofs.Lowering.Doubles
import Quadruple.Proofs.Flow.Joint
import Quadruple.Proofs.Lowering.Symbols
import Quadruple.Proofs.Output.Temporaries
import Quadruple.Proofs.Emit.Markers
import Quadruple.Proofs.Lowering.Warnings
import Quadruple.Proofs.Emit.Forgotten
import Quadruple.Proofs.Lowering.Labels
import Quadruple.Proofs.Lowering.Arguments
import Quadruple.Proofs.Lowering.Constants
import Quadruple.Proofs.Lowering.Variables
import Quadruple.Proofs.Emit.Tagging
import Quadruple.Proofs.Output.DataSize
import Quadruple.Proofs.CommandLine.Order
import Quadruple.Proofs.Symbols.Scopes
import Quadruple.Proofs.CommandLine.Wrapping
import Quadruple.Proofs.Output.Variadic
import Quadruple.Proofs.Settings.WarningFlags
