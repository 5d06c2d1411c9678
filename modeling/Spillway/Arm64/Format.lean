import Spillway.Log

/-!
# Format strings

Printing and reading go through library routines that take a format string. Each format string that
code refers to is defined once, after the code, in the order of first use.
-/

namespace Spillway.Arm64

/-- A format string. -/
inductive Format where
  | print
  | println
  | read
  deriving DecidableEq, Repr

namespace Format

/-- The symbol under which a format string is defined. -/
def symbol : Format → String
  | .print => ".PRINT"
  | .println => ".PRINT_LN"
  | .read => ".READ"

/-- A format string as it is written in assembly, escapes included. -/
def literal : Format → String
  | .print | .read => "%ld"
  | .println => "%ld\\n"

/-- The bytes of a format string, with the one that ends it. -/
def bytes : Format → Nat
  | .print | .read => 4
  | .println => 5

/-- The routine that takes a format string. -/
def routine : Format → String
  | .print | .println => "printf"
  | .read => "scanf"

end Format

/-- The format strings in use, in the order of first use. -/
abbrev Formats := List Format

/-- Notes that a format string is in use. -/
def Formats.mark (fs : Formats) (f : Format) : Formats := if f ∈ fs then fs else fs ++ [f]

theorem Formats.mem_mark (fs : Formats) (f g : Format) : g ∈ fs.mark f ↔ g ∈ fs ∨ g = f := by
  unfold mark
  by_cases h : f ∈ fs
  · simp only [if_pos h]
    exact ⟨.inl, fun hg => hg.elim id fun e => e ▸ h⟩
  · simp [h]

end Spillway.Arm64
