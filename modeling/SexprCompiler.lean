import SexprCompiler.Main
import SexprCompiler.Proofs.Batch
import SexprCompiler.Proofs.Checking
import SexprCompiler.Proofs.Cursor
import SexprCompiler.Proofs.Descent
import SexprCompiler.Proofs.Escapes
import SexprCompiler.Proofs.Execution.Simulation
import SexprCompiler.Proofs.Faults
import SexprCompiler.Proofs.FirstAssignments
import SexprCompiler.Proofs.Grouping
import SexprCompiler.Proofs.Hoisting
import SexprCompiler.Proofs.Imports
import SexprCompiler.Proofs.LexicalGrammar
import SexprCompiler.Proofs.Lines.Compiling
import SexprCompiler.Proofs.Listings
import SexprCompiler.Proofs.Measures
import SexprCompiler.Proofs.Naming
import SexprCompiler.Proofs.Printing.Files
import SexprCompiler.Proofs.Readback
import SexprCompiler.Proofs.Remainder
import SexprCompiler.Proofs.RoundTrip
import SexprCompiler.Proofs.Runs
import SexprCompiler.Proofs.Scanning
import SexprCompiler.Proofs.Scoping
import SexprCompiler.Proofs.ShapeFaults
import SexprCompiler.Proofs.StringLiterals
import SexprCompiler.Proofs.Survivors
import SexprCompiler.Proofs.Typing
import SexprCompiler.Proofs.Upkeep
