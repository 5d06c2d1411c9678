import Spillway.Session.Effect

/-!
# Sessions

A session lowers and compiles programs one after the other. Its counters go on from program to program
until they are reset; the code generator starts afresh each time. The configuration says whether the
linear code and the assembly are printed, and where the assembly is written.
-/

namespace Spillway

namespace Session

/-- What a session shows and where it writes. -/
structure Config where
  showLinear : Bool := false
  showAssembly : Bool := false
  output : Option String := none
  deriving DecidableEq, Repr

end Session

/-- A configuration and the counters that the programs of the session share. -/
structure Session where
  config : Session.Config := {}
  counters : Counters := {}
  deriving DecidableEq, Repr

namespace Session

open Linear (Fragment)

/-- A computation in a session. -/
abbrev Step := Journal Error Session Effect

/-- The counters start again. -/
def reset : Step Unit := do
  let s ← get
  Journal.record (.log (.reset s.counters.registers s.counters.labels))
  set { s with counters := s.counters.reset }

/-- Lowers a program, and prints the linear code if that is asked for. -/
def lower (p : Program) : Step (List Fragment) := do
  let fragments ← ((p.lower.counted.mapEntries fun n => Effect.log (.lowering n)).mapError
    fun f => Error.failure (.fault f)).zoom counters fun s counters => { s with counters }
  if (← get).config.showLinear then
    Journal.record (.print ("=== ILOC ===\n" ++ Linear.listing fragments ++ "\n"))
  return fragments

/-- Generates code with a generator that nothing was done with before. -/
def generate (fragments : List Fragment) (symbols : SymbolTable) : Step (List Arm64.Line) :=
  (((Arm64.generateCounted fragments symbols).mapEntries fun n => Effect.log (.generating n)).mapError
    Error.failure).zoom (fun _ => {}) fun s _ => s

/-- Lines as the text of a file. -/
def fileText (lines : List String) : String := String.join (lines.map (· ++ "\n"))

/-- Writes lines to a file. -/
def writeLines (path : String) (lines : List String) : Step Unit := do
  match create path with
  | .error cause => Journal.fail (.create path cause)
  | .ok () =>
    Journal.record (.write path (fileText lines))
    Journal.record (.log (.wrote lines.length path))

/-- Compiles a program to assembly; prints and writes it if that is asked for. -/
def compile (p : Program) : Step (List Arm64.Line) := do
  let fragments ← lower p
  let lines ← generate fragments p.symbols
  let config := (← get).config
  if config.showAssembly then
    Journal.record (.print ("=== ARM64 ===\n" ++ fileText (lines.map Arm64.Line.text)))
  match config.output with
  | some path => writeLines path (lines.map Arm64.Line.text)
  | none => pure ()
  return lines

end Session

end Spillway
