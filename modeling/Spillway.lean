import Spillway.Arena
import Spillway.Arm64.Assembly
import Spillway.Arm64.Format
import Spillway.Arm64.Frame
import Spillway.Arm64.Generator
import Spillway.Arm64.Immediate
import Spillway.Arm64.Line
import Spillway.Arm64.Pool
import Spillway.Arm64.Register
import Spillway.Arm64.Selection
import Spillway.Counters
import Spillway.Dict
import Spillway.Distinct
import Spillway.Fault
import Spillway.Journal
import Spillway.Label
import Spillway.Linear.Fragment
import Spillway.Linear.Instr
import Spillway.Linear.Operator
import Spillway.Log
import Spillway.Lowering.Env
import Spillway.Lowering.Expr
import Spillway.Lowering.Node
import Spillway.Lowering.Program
import Spillway.Lowering.Stmt
import Spillway.Program
import Spillway.Session.Compile
import Spillway.Session.Effect
import Spillway.Session.Path
import Spillway.Source.Node
import Spillway.Source.Operator
import Spillway.Source.Tree
import Spillway.Symbol.Declare
import Spillway.Symbol.Entry
import Spillway.Symbol.Table
import Spillway.Ty
import Spillway.Unfolding
import Spillway.VReg
import Spillway.Word
import Spillway.Proofs.Linear.Labels
import Spillway.Proofs.Journal
import Spillway.Proofs.Distinct
import Spillway.Proofs.Word
import Spillway.Proofs.Lowering.Code
import Spillway.Proofs.Symbol.Change
import Spillway.Proofs.Program.Growth
import Spillway.Proofs.Program.Built
import Spillway.Proofs.Source.Semantics
import Spillway.Proofs.Source.Unfolds
import Spillway.Proofs.Lowering.Value
import Spillway.Proofs.Lowering.Labels
import Spillway.Proofs.Lowering.Simulation
import Spillway.Proofs.Lowering.Node
import Spillway.Proofs.Lowering.Function
import Spillway.Proofs.Program.Names
import Spillway.Proofs.Lowering.Correctness
import Spillway.Proofs.Arm64.Machine
import Spillway.Proofs.Arm64.Constant
import Spillway.Proofs.Arm64.Home
import Spillway.Proofs.Arm64.Transfer
import Spillway.Proofs.Arm64.Simulation
import Spillway.Proofs.Arm64.Saved
import Spillway.Proofs.Arm64.CallSite
import Spillway.Proofs.Linear.Paths
import Spillway.Proofs.Lowering.Written
import Spillway.Proofs.Program.Assembled
import Spillway.Proofs.Lowering.Registers
import Spillway.Proofs.Lowering.Calls
import Spillway.Proofs.Arm64.Stack
import Spillway.Proofs.Arm64.Writing
import Spillway.Proofs.Arm64.Body
import Spillway.Proofs.Arm64.Blocks
import Spillway.Proofs.Arm64.Skips
import Spillway.Proofs.Session.Compile
import Spillway.Proofs.Arm64.Discipline
import Spillway.Proofs.Lowering.Branches
import Spillway.Proofs.Arm64.Labels
import Spillway.Proofs.Program.Fields
import Spillway.Proofs.Lowering.Globals
import Spillway.Proofs.Arm64.Limits
import Spillway.Proofs.Translation
import Spillway.Proofs.Linear.Renaming
import Spillway.Proofs.Arm64.Renaming
import Spillway.Proofs.Lowering.Shift
import Spillway.Proofs.Session.Counters
import Spillway.Proofs.Lowering.CallSites
import Spillway.Proofs.Lowering.Resolved
import Spillway.Proofs.Arm64.Scratch
import Spillway.Proofs.Arm64.Outcome
import Spillway.Proofs.Arm64.Generation
import Spillway.Proofs.Arm64.Undefined
import Spillway.Proofs.Program.Globals
import Spillway.Proofs.Arm64.Independence
import Spillway.Proofs.Arm64.Closed
import Spillway.Proofs.Program.Record
import Spillway.Proofs.Symbol.Forest
import Spillway.Proofs.Arm64.Acts
import Spillway.Proofs.Arm64.FieldOffsets
import Spillway.Proofs.Arm64.Clashes
import Spillway.Proofs.Arm64.Reuse
import Spillway.Proofs.Arm64.MoveWide
import Spillway.Proofs.Arm64.Layout
import Spillway.Proofs.Requests
import Spillway.Proofs.Linear.Drawn
import Spillway.Proofs.Linear.Mirrors
import Spillway.Proofs.Lowering.Expression
import Spillway.Proofs.Lowering.Places
import Spillway.Proofs.Lowering.Regrouping
import Spillway.Proofs.Lowering.Sharing
import Spillway.Proofs.Lowering.StructUses
import Spillway.Proofs.Arm64.Between
import Spillway.Proofs.Linear.Numbering
import Spillway.Proofs.Symbol.Callee
