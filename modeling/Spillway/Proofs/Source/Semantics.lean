import Mathlib.Logic.Function.Basic
import Spillway.Program
import Spillway.Proofs.World
import Spillway.Proofs.Symbol.Change

/-!
# What programs mean

The meaning of expressions and statements, said on trees and without regard to how they are lowered.
Words wrap around at 64 bits. A comparison is one of signed words and gives 0 or 1. `&&` and `||` work
bit by bit on both operands, which are always evaluated, and `!` changes the lowest bit. Operands and
arguments are evaluated once each, from left to right. A condition holds if its value is 1.

Something that has no value has no run: a call for its value to a function that returns none, a call
with a wrong number of arguments, whatever the world refuses. A run that does not end within its fuel
gives nothing either, so a terminating run is one that gives something for some fuel.

* `Statics` — what names, fields and callees are where the code stands.
* `Statics.eval`, `Statics.execBlock` — expressions and statements, given what calls do.
* `Program.callWithin` — what calls of a program's own functions do.
-/

namespace Spillway

/-! ### Operators -/

/-- The word of a truth value. -/
def truth (b : Bool) : Word := if b then 1 else 0

/-- What a binary operator computes. -/
def BinOp.apply : BinOp → Word → Word → Word
  | .or, a, b => a ||| b
  | .and, a, b => a &&& b
  | .eq, a, b => truth (a = b)
  | .ne, a, b => truth (a ≠ b)
  | .lt, a, b => truth (a.toInt < b.toInt)
  | .le, a, b => truth (a.toInt ≤ b.toInt)
  | .gt, a, b => truth (a.toInt > b.toInt)
  | .ge, a, b => truth (a.toInt ≥ b.toInt)
  | .add, a, b => a + b
  | .sub, a, b => a - b
  | .mul, a, b => a * b
  | .div, a, b => a.sdiv b

/-- What a unary operator computes. -/
def UnOp.apply : UnOp → Word → Word
  | .not, a => a ^^^ 1
  | .negate, a => -a

/-! ### What names stand for -/

/-- Where a variable lives. -/
inductive Home where
  /-- The function has it to itself. -/
  | own
  | memory
  deriving DecidableEq, Repr

/-- What names, fields and callees are where a piece of code stands. -/
structure Statics where
  home : String → Option Home
  /-- The struct that a variable points to. -/
  pointee : String → Option String
  callee : String → Option Callee
  /-- The place of a field in a struct, and the struct that the field points to. -/
  field : String → String → Option (Nat × Option String)
  /-- How many words a struct has. -/
  words : String → Option Nat

/-- The values of a function's own variables, and the world. -/
@[ext] structure Store (W : Type) where
  locals : String → Word
  outside : Outside W

namespace Statics

/-- The struct that a path of fields leads to. -/
def pointeeAlong (Γ : Statics) : Option String → List String → Option String
  | struct, [] => struct
  | struct, x :: path => do Γ.pointeeAlong (← Γ.field (← struct) x).2 path

/-- The struct that an allocation names: its first argument has to be a plain name. -/
def allocated? : List Expr → Option String
  | .name struct :: _ => some struct
  | _ => none

/-- The struct that the value of an expression points to. -/
def pointeeOf (Γ : Statics) : Expr → Option String
  | .name x => Γ.pointee x
  | .paren e => Γ.pointeeOf e
  | .chain head [] => Γ.pointeeOf head
  | .select base path => Γ.pointeeAlong (Γ.pointeeOf base) path
  | .call f arguments =>
    match Γ.callee f with
    | some (.user sig) => sig.returns.structName?
    | some (.builtin .new) => allocated? arguments
    | some (.builtin .delete) | none => none
  | .int _ | .bool _ | .nil | .chain _ (_ :: _) | .unary .. | .missing .. => none

variable {W : Type} (Γ : Statics) (rt : Runtime W) (calls : Calls W)

/-! ### Expressions -/

/-- The value of a variable. -/
def readName (s : Store W) (x : String) : Option Word := do
  match ← Γ.home x with
  | .own => return s.locals x
  | .memory => s.outside.load rt (.global x)

/-- The word that a path of fields leads to. -/
def follow (o : Outside W) : Word → Option String → List String → Option Word
  | v, _, [] => some v
  | v, struct, x :: path => do
    let (place, next) ← Γ.field (← struct) x
    follow o (← o.load rt (.field v place)) next path

/-- Allocates the struct that an allocation names. -/
def allocate (o : Outside W) (arguments : List Expr) : Option (Word × Outside W) := do
  o.alloc rt (← Γ.words (← allocated? arguments))

mutual

/-- The value of an expression, and the world after it. -/
def eval (ρ : String → Word) : Expr → Outside W → Option (Word × Outside W)
  | .int v, o => some (v.toBitVec, o)
  | .bool b, o => some (truth b, o)
  | .nil, o => some (0, o)
  | .name x, o => do return (← Γ.readName rt ⟨ρ, o⟩ x, o)
  | .paren e, o => eval ρ e o
  | .chain head links, o => do
    let (v, o) ← eval ρ head o
    evalLinks ρ v links o
  | .unary op e, o => do
    let (v, o) ← eval ρ e o
    return (op.apply v, o)
  | .select base path, o => do
    let (v, o) ← eval ρ base o
    return (← Γ.follow rt o v (Γ.pointeeOf base) path, o)
  | .call f arguments, o =>
    match Γ.callee f with
    | some (.user _) => do
      let (vs, o) ← evalAll ρ arguments o
      let (v, o) ← calls f vs o
      return (← v, o)
    | some (.builtin .new) => Γ.allocate rt o arguments
    | some (.builtin .delete) | none => none
  | .missing .., _ => none

/-- The value of a chain that goes on from a value, from left to right. -/
def evalLinks (ρ : String → Word) : Word → List (BinOp × Expr) → Outside W → Option (Word × Outside W)
  | v, [], o => some (v, o)
  | v, (op, e) :: rest, o => do
    let (v', o) ← eval ρ e o
    evalLinks ρ (op.apply v v') rest o

/-- The values of expressions, from left to right. -/
def evalAll (ρ : String → Word) : List Expr → Outside W → Option (List Word × Outside W)
  | [], o => some ([], o)
  | e :: rest, o => do
    let (v, o) ← eval ρ e o
    let (vs, o) ← evalAll ρ rest o
    return (v :: vs, o)

end

/-! ### Statements -/

/-- Gives a variable a value. -/
def writeName (s : Store W) (x : String) (v : Word) : Option (Store W) := do
  match ← Γ.home x with
  | .own => return { s with locals := Function.update s.locals x v }
  | .memory => return { s with outside := ← s.outside.store rt (.global x) v }

/-- Gives the field at the end of a path a value. -/
def writePath (o : Outside W) (v : Word) :
    Word → Option String → String → List String → Option (Outside W)
  | base, struct, x, [] => do
    let (place, _) ← Γ.field (← struct) x
    o.store rt (.field base place) v
  | base, struct, x, y :: path => do
    let (place, next) ← Γ.field (← struct) x
    writePath o v (← o.load rt (.field base place)) next y path

/-- Gives a place a value. -/
def write (s : Store W) (place : Place) (v : Word) : Option (Store W) :=
  match place.fields with
  | [] => Γ.writeName rt s place.base v
  | x :: path => do
    let base ← Γ.readName rt s place.base
    return { s with outside := ← Γ.writePath rt s.outside v base (Γ.pointee place.base) x path }

/-- Runs a call for what it does. Of the arguments of `delete` only the first counts. -/
def invoke (s : Store W) (f : String) (arguments : List Expr) : Option (Store W) :=
  match Γ.callee f, arguments with
  | some (.user _), _ => do
    let (vs, o) ← Γ.evalAll rt calls s.locals arguments s.outside
    return { s with outside := (← calls f vs o).2 }
  | some (.builtin .new), _ => do return { s with outside := (← Γ.allocate rt s.outside arguments).2 }
  | some (.builtin .delete), e :: _ => do
    let (v, o) ← Γ.eval rt calls s.locals e s.outside
    return { s with outside := ← o.free rt v }
  | _, _ => none

section Invoke

variable {Γ rt calls} {s s' : Store W} {f : String} {arguments : List Expr}

theorem invoke_user {sig : Signature} (hf : Γ.callee f = some (.user sig))
    (h : Γ.invoke rt calls s f arguments = some s') :
    ∃ vs o v o', Γ.evalAll rt calls s.locals arguments s.outside = some (vs, o) ∧
      calls f vs o = some (v, o') ∧ s' = { s with outside := o' } := by
  unfold invoke at h
  rw [hf] at h
  obtain ⟨⟨vs, o⟩, hvs, hrest⟩ := Option.bind_eq_some_iff.1 h
  obtain ⟨⟨v, o'⟩, hcall, hs'⟩ := Option.bind_eq_some_iff.1 hrest
  exact ⟨vs, o, v, o', hvs, hcall, (Option.some.inj hs').symm⟩

theorem invoke_new (hf : Γ.callee f = some (.builtin .new))
    (h : Γ.invoke rt calls s f arguments = some s') :
    ∃ v o, Γ.allocate rt s.outside arguments = some (v, o) ∧ s' = { s with outside := o } := by
  unfold invoke at h
  rw [hf] at h
  obtain ⟨⟨v, o⟩, halloc, hs'⟩ := Option.bind_eq_some_iff.1 h
  exact ⟨v, o, halloc, (Option.some.inj hs').symm⟩

theorem invoke_delete {e : Expr} {rest : List Expr} (hf : Γ.callee f = some (.builtin .delete))
    (h : Γ.invoke rt calls s f (e :: rest) = some s') :
    ∃ v o o', Γ.eval rt calls s.locals e s.outside = some (v, o) ∧ o.free rt v = some o' ∧
      s' = { s with outside := o' } := by
  unfold invoke at h
  rw [hf] at h
  obtain ⟨⟨v, o⟩, heval, hrest⟩ := Option.bind_eq_some_iff.1 h
  obtain ⟨o', hfree, hs'⟩ := Option.bind_eq_some_iff.1 hrest
  exact ⟨v, o, o', heval, hfree, (Option.some.inj hs').symm⟩

end Invoke

/-- Whether a condition holds, and the store after it was evaluated. -/
def test (s : Store W) (e : Expr) : Option (Bool × Store W) := do
  let (v, o) ← Γ.eval rt calls s.locals e s.outside
  return (v = 1, { s with outside := o })

mutual

/-- Runs a statement. -/
def exec : (fuel : Nat) → Stmt → Store W → Option (Outcome × Store W)
  | 0, _, _ => none
  | fuel + 1, .cond e thenBlock elseBlock, s => do
    let (holds, s) ← Γ.test rt calls s e
    execBlock fuel (if holds then thenBlock else elseBlock.getD []) s
  | fuel + 1, .loop e body, s => do
    let (holds, s) ← Γ.test rt calls s e
    if holds then
      match ← execBlock fuel body s with
      | (.fell, s) => exec fuel (.loop e body) s
      | (.returned v, s) => return (.returned v, s)
    else return (.fell, s)
  | _ + 1, .assign place e, s => do
    let (v, o) ← Γ.eval rt calls s.locals e s.outside
    return (.fell, ← Γ.write rt { s with outside := o } place v)
  | _ + 1, .print x newline, s => do
    let v ← Γ.readName rt s x
    return (.fell, { s with outside := s.outside.print v newline })
  | _ + 1, .read x, s => do
    let (v, o) ← s.outside.read rt
    return (.fell, ← Γ.writeName rt { s with outside := o } x v)
  | _ + 1, .ret none, s => some (.returned none, s)
  | _ + 1, .ret (some e), s => do
    let (v, o) ← Γ.eval rt calls s.locals e s.outside
    return (.returned (some v), { s with outside := o })
  | _ + 1, .call f arguments, s => do return (.fell, ← Γ.invoke rt calls s f arguments)
  | _ + 1, .missing .., _ => none

/-- Runs statements one after the other, up to the first that returns. -/
def execBlock : (fuel : Nat) → List Stmt → Store W → Option (Outcome × Store W)
  | 0, _, _ => none
  | _ + 1, [], s => some (.fell, s)
  | fuel + 1, st :: rest, s => do
    match ← exec fuel st s with
    | (.fell, s) => execBlock fuel rest s
    | (.returned v, s) => return (.returned v, s)

end

end Statics

/-! ### Programs -/

namespace Program

/-- What a name stands for in a function: one of its own variables, or else what it stands for
globally. -/
def entry? (p : Program) (f : FunctionDecl) (x : String) : Option Entry :=
  p.symbols.bound? f.scope x <|> p.symbols.bound? SymbolTable.global x

/-- What names, fields and callees are in a function. -/
def statics (p : Program) (f : FunctionDecl) : Statics where
  home x :=
    match p.symbols.bound? f.scope x, p.symbols.bound? SymbolTable.global x with
    | some (.var _), _ => some .own
    | none, some (.var _) => some .memory
    | _, _ => none
  pointee x := do Ty.structName? (← (← p.entry? f x).ty?)
  callee x :=
    match p.entry? f x with
    | some (.function sig) => some (.user sig)
    | _ => (Builtin.ofName? x).map .builtin
  field struct x :=
    match p.symbols.bound? SymbolTable.global struct with
    | some (.struct i) => do
      let fields := (← p.symbols.scopes.get? i).entries
      return (← fields.position? x, (← fields.get? x).ty?.bind Ty.structName?)
    | _ => none
  words struct :=
    match p.symbols.bound? SymbolTable.global struct with
    | some (.struct i) => do return (← p.symbols.scopes.get? i).entries.size
    | _ => none

/-- The names of a function's parameters, in order. -/
def parameterNames (p : Program) (f : FunctionDecl) : List String :=
  ((p.symbols.scopes.get? f.scope).map Scope.parameterNames).getD []

/-- The values with which a function starts: its parameters have the arguments, its locals are 0. -/
def startLocals (p : Program) (f : FunctionDecl) (arguments : List Word) (x : String) : Word :=
  (((p.parameterNames f).zip arguments).lookup x).getD 0

variable {W : Type}

/-- Runs a function, given what calls do. -/
def runWithin (p : Program) (rt : Runtime W) (calls : Calls W) (fuel : Nat) (f : FunctionDecl)
    (arguments : List Word) (o : Outside W) : Option (Outcome × Store W) :=
  if arguments.length = (p.parameterNames f).length then
    (p.statics f).execBlock rt calls fuel (p.body f) ⟨p.startLocals f arguments, o⟩
  else none

/-- What calls of a program's functions do, nested at most `depth` deep. -/
def callWithin (p : Program) (rt : Runtime W) : (depth : Nat) → Calls W
  | 0 => fun _ _ _ => none
  | depth + 1 => fun name arguments o => do
    let f ← p.functions.toList.find? fun f => f.name = name
    let (out, s) ← p.runWithin rt (p.callWithin rt depth) depth f arguments o
    return (out.value?, s.outside)

end Program

end Spillway
