import Spillway.Proofs.Lowering.Calls
import Spillway.Proofs.Lowering.Exact

/-!
# The calls of a program in its code

Lowered code makes the calls that the program makes, in the same order, and no others. Each is a group of
instructions that stand together: the arguments are passed, the function is called, the result is taken if
the call is used as a value, and the call is ended with the same arguments. The code that computes the
arguments stands right before the group. So groups neither nest nor overlap, however calls are nested in the
program.

* `Env.exprCalls`, `Env.stmtCalls` — the calls that a program makes.
* `Env.Serves` — code that makes them.
* `Program.calls_bracketed` — lowered code does.
-/

namespace Spillway

open Linear (Instr Fragment callCode)

namespace Lowering

/-- A call of a function: its name, its arguments, and whether it is used as a value. -/
structure CallSite where
  callee : String
  arguments : List Expr
  wanted : Bool

namespace Env

/-! ### Calls of the program -/

mutual

/-- The calls of functions in an expression, in the order in which they are made. -/
def exprCalls (env : Env) : Expr → List CallSite
  | .paren inner => env.exprCalls inner
  | .chain head links => env.exprCalls head ++ env.linksCalls links
  | .unary _ operand => env.exprCalls operand
  | .select base _ => env.exprCalls base
  | .call callee arguments =>
    match env.callee callee with
    | .ok (.user _) => env.exprsCalls arguments ++ [⟨callee, arguments, true⟩]
    | _ => []
  | .int _ | .bool _ | .nil | .name _ | .missing .. => []

/-- The calls of functions in the links of a chain. -/
def linksCalls (env : Env) : List (BinOp × Expr) → List CallSite
  | [] => []
  | (_, operand) :: rest => env.exprCalls operand ++ env.linksCalls rest

/-- The calls of functions in a list of expressions. -/
def exprsCalls (env : Env) : List Expr → List CallSite
  | [] => []
  | e :: rest => env.exprCalls e ++ env.exprsCalls rest

end

mutual

/-- The calls of functions in a statement, in the order in which its code makes them: that of a loop has the
condition after the body. Of the arguments of a built-in operation only the pointer that is given back is
computed. -/
def stmtCalls (env : Env) : Stmt → List CallSite
  | .assign _ value => env.exprCalls value
  | .cond test thenBlock none => env.exprCalls test ++ env.blockCalls thenBlock
  | .cond test thenBlock (some elseBlock) =>
    env.exprCalls test ++ env.blockCalls thenBlock ++ env.blockCalls elseBlock
  | .loop test body => env.blockCalls body ++ env.exprCalls test
  | .ret (some value) => env.exprCalls value
  | .call callee arguments =>
    match env.callee callee with
    | .ok (.user _) => env.exprsCalls arguments ++ [⟨callee, arguments, false⟩]
    | .ok (.builtin .delete) => env.exprsCalls (arguments.take 1)
    | _ => []
  | .print .. | .read _ | .ret none | .missing .. => []

/-- The calls of functions in statements, in the order in which their code makes them. -/
def blockCalls (env : Env) : List Stmt → List CallSite
  | [] => []
  | s :: rest => env.stmtCalls s ++ env.blockCalls rest

end

/-! ### Code that makes calls -/

/-- Code that makes these calls one after the other, and has no other instructions that are parts of calls. The
first list is the code before it, at the end of which the arguments of the next call are computed. -/
inductive Serves (env : Env) : List Instr → List CallSite → List Instr → Prop
  | nil {before : List Instr} : Serves env before [] []
  | plain {before code : List Instr} {i : Instr} {sites : List CallSite} :
      i.isCallPart = false → Serves env (before ++ [i]) sites code → Serves env before sites (i :: code)
  | call {earlier computing code : List Instr} {site : CallSite} {sites : List CallSite} {f : Signature}
      {rs : List VReg} {target : Option VReg} {c c' : Counters} :
      env.symbols.lookup env.scope site.callee = .ok (some (.function f)) →
      (env.exprs site.arguments).run c = ⟨.ok rs, c', computing⟩ →
      rs.length = site.arguments.length → target.isSome = site.wanted →
      Serves env (earlier ++ computing ++ callCode rs site.callee target) sites code →
      Serves env (earlier ++ computing) (site :: sites) (callCode rs site.callee target ++ code)

variable {env : Env} {before code code' : List Instr} {sites sites' : List CallSite}

theorem Serves.append (h : env.Serves before sites code) (h' : env.Serves (before ++ code) sites' code') :
    env.Serves before (sites ++ sites') (code ++ code') := by
  induction h with
  | nil => simpa using h'
  | plain hi _ ih =>
    refine .plain hi (ih ?_)
    simpa using h'
  | call hlookup hrun hlength htarget _ ih =>
    rw [List.append_assoc]
    refine .call hlookup hrun hlength htarget (ih ?_)
    simpa using h'

theorem serves_of_plain (h : ∀ i ∈ code, i.isCallPart = false) : env.Serves before [] code := by
  induction code generalizing before with
  | nil => exact .nil
  | cons i code ih =>
    obtain ⟨hi, hcode⟩ := List.forall_mem_cons.1 h
    exact .plain hi (ih hcode)

theorem Serves.append_plain (h : env.Serves before sites code) (h' : ∀ i ∈ code', i.isCallPart = false) :
    env.Serves before sites (code ++ code') := by
  have happend := h.append (serves_of_plain h')
  rwa [List.append_nil] at happend

theorem exprs_length {es : List Expr} {rs : List VReg} {c c' : Counters}
    (h : (env.exprs es).run c = ⟨.ok rs, c', code⟩) : rs.length = es.length := by
  induction es generalizing rs c c' code with
  | nil =>
    rw [exprs] at h
    obtain ⟨rfl, -, -⟩ := Journal.pure_ok.1 h
    rfl
  | cons e es ih =>
    rw [exprs] at h
    obtain ⟨r, c₁, w, w', -, h₁, -⟩ := Journal.bind_eq_ok_iff.1 h
    obtain ⟨rs', c₂, v, v', hrest, hpure, -⟩ := Journal.bind_eq_ok_iff.1 h₁
    obtain ⟨rfl, -, -⟩ := Journal.pure_ok.1 hpure
    exact congrArg (· + 1) (ih hrest)

/-- Code that computes arguments, and then the group of the call. -/
theorem Serves.then_call {f : Signature} {rs : List VReg} {c c' : Counters} (site : CallSite)
    (target : Option VReg) (h : env.Serves before sites code) (huser : env.callee site.callee = .ok (.user f))
    (hcode : env.Computes (.exprs site.arguments) c code rs c') (htarget : target.isSome = site.wanted) :
    env.Serves before (sites ++ [site]) (code ++ callCode rs site.callee target) := by
  refine h.append ?_
  have hgroup : env.Serves (before ++ code) [site] (callCode rs site.callee target ++ []) :=
    .call (lookup_of_callee huser) hcode.runs (exprs_length hcode.runs) htarget .nil
  rwa [List.append_nil] at hgroup

/-- The calls in what is lowered to values. -/
def phraseCalls (env : Env) : Phrase → List CallSite
  | .expr e => env.exprCalls e
  | .links _ rest => env.linksCalls rest
  | .exprs es => env.exprsCalls es

theorem plain_combination (op : BinOp) (target left right : VReg) :
    ∀ i ∈ combination op target left right, i.isCallPart = false := by
  unfold combination
  cases Action.of op <;> simp [Instr.isCallPart]

theorem Follows.plain {r r' : VReg} {ty : Ty} {path : List String} {c c' : Counters}
    (h : env.Follows r ty path c code r' c') : ∀ i ∈ code, i.isCallPart = false := by
  induction h with
  | nil => simp
  | cons _ _ ih => exact List.forall_mem_cons.2 ⟨rfl, ih⟩

/-- **Values.** Code that computes values makes the calls in them. -/
theorem Computes.serves {ph : Phrase} {c c' : Counters} {rs : List VReg} (h : env.Computes ph c code rs c') :
    env.Serves before (env.phraseCalls ph) code := by
  induction h generalizing before with
  | int | bool | nil | global | own =>
    rw [phraseCalls, exprCalls]
    exact serves_of_plain (by simp [Instr.isCallPart])
  | alloc hnew =>
    rw [phraseCalls, exprCalls, hnew]
    exact serves_of_plain (by simp [Instr.isCallPart])
  | paren _ ih =>
    rw [phraseCalls, exprCalls]
    exact ih
  | chain _ _ ih ih' =>
    rw [phraseCalls, exprCalls]
    exact ih.append ih'
  | not _ ih | negate _ ih =>
    rw [phraseCalls, exprCalls]
    exact Serves.append_plain ih (by simp [Instr.isCallPart])
  | select _ _ hfollows ih =>
    rw [phraseCalls, exprCalls]
    exact Serves.append_plain ih hfollows.plain
  | @call name f arguments rs c c' code huser harguments ih =>
    rw [phraseCalls, exprCalls, huser]
    exact Serves.then_call ⟨name, arguments, true⟩ (some ⟨c'.registers⟩) ih huser harguments rfl
  | linksNil =>
    rw [phraseCalls, linksCalls]
    exact .nil
  | exprsNil =>
    rw [phraseCalls, exprsCalls]
    exact .nil
  | linksCons _ _ ih ih' =>
    rw [phraseCalls, linksCalls]
    exact (Serves.append_plain ih (plain_combination _ _ _ _)).append ih'
  | exprsCons _ _ ih ih' =>
    rw [phraseCalls, exprsCalls]
    exact ih.append ih'

/-- The calls in statements. -/
def partCalls (env : Env) : Part → List CallSite
  | .stmt s => env.stmtCalls s
  | .block ss => env.blockCalls ss

theorem StoresPath.plain {value r : VReg} {ty : Ty} {x : String} {path : List String} {c c' : Counters}
    (h : env.StoresPath value r ty x path c code c') : ∀ i ∈ code, i.isCallPart = false := by
  induction h with
  | last => simp [Instr.isCallPart]
  | step _ _ ih => exact List.forall_mem_cons.2 ⟨rfl, ih⟩

theorem serves_name {x : String} {c c' : Counters} {rs : List VReg}
    (h : env.Computes (.expr (.name x)) c code rs c') : env.Serves before [] code := by
  have hserves : env.Serves before (env.phraseCalls (.expr (.name x))) code := h.serves
  rwa [phraseCalls, exprCalls] at hserves

theorem Stores.serves {value : VReg} {place : Place} {c c' : Counters}
    (h : env.Stores value place c code c') : env.Serves before [] code := by
  cases h with
  | global | own => exact serves_of_plain (by simp [Instr.isCallPart])
  | field _ hread hpath => exact (serves_name hread).append_plain hpath.plain

/-- **Statements.** The code of statements makes the calls in them. -/
theorem Emits.serves {part : Part} {c c' : Counters} (h : env.Emits part c code c') :
    env.Serves before (env.partCalls part) code := by
  induction h generalizing before with
  | @assign target value r c c₁ c' code code' hvalue hstores =>
    have hcode : env.Serves before (env.phraseCalls (.expr value) ++ []) (code ++ code') :=
      hvalue.serves.append hstores.serves
    rw [List.append_nil] at hcode
    rw [partCalls, stmtCalls]
    exact hcode
  | @print x newline r c c' code hread =>
    rw [partCalls, stmtCalls]
    refine (serves_name hread).append_plain ?_
    cases newline <;> simp [Instr.isCallPart]
  | readGlobal | readOwn | leave =>
    rw [partCalls, stmtCalls]
    exact serves_of_plain (by simp [Instr.isCallPart])
  | when htest _ ih =>
    rw [partCalls, stmtCalls]
    exact ((htest.serves.append_plain (by simp [Instr.isCallPart])).append ih).append_plain
      (by simp [Instr.isCallPart])
  | choose htest _ _ ih ih' =>
    rw [partCalls, stmtCalls]
    exact ((((htest.serves.append_plain (by simp [Instr.isCallPart])).append ih).append_plain
      (by simp [Instr.isCallPart])).append ih').append_plain (by simp [Instr.isCallPart])
  | loop _ htest ih =>
    rw [partCalls, stmtCalls]
    exact ((((serves_of_plain (by simp [Instr.isCallPart])).append ih).append_plain
      (by simp [Instr.isCallPart])).append htest.serves).append_plain (by simp [Instr.isCallPart])
  | give hvalue =>
    rw [partCalls, stmtCalls]
    exact hvalue.serves.append_plain (by simp [Instr.isCallPart])
  | alloc hnew =>
    rw [partCalls, stmtCalls, hnew]
    exact serves_of_plain (by simp [Instr.isCallPart])
  | @free name e rest r c c' code hdelete hvalue =>
    have hfirst : env.exprsCalls ((e :: rest).take 1) = env.phraseCalls (.expr e) := by
      rw [List.take_succ_cons, List.take_zero, exprsCalls, exprsCalls, List.append_nil, phraseCalls]
    rw [partCalls, stmtCalls, hdelete]
    show env.Serves before (env.exprsCalls ((e :: rest).take 1)) _
    rw [hfirst]
    exact hvalue.serves.append_plain (by simp [Instr.isCallPart])
  | @call name f arguments rs c c' code huser harguments =>
    rw [partCalls, stmtCalls, huser]
    exact harguments.serves.then_call ⟨name, arguments, false⟩ none huser harguments rfl
  | nil =>
    rw [partCalls, blockCalls]
    exact .nil
  | cons _ _ ih ih' =>
    rw [partCalls, blockCalls]
    exact ih.append ih'

theorem Clears.plain {names : List String} (h : env.Clears names code) :
    ∀ i ∈ code, i.isCallPart = false := by
  induction h with
  | nil => simp
  | cons hx _ ih =>
    obtain ⟨r, -, rfl⟩ := hx
    exact List.forall_mem_cons.2 ⟨rfl, ih⟩

theorem Resets.plain {names : List String} (h : env.Resets names code) :
    ∀ i ∈ code, i.isCallPart = false := by
  induction h with
  | nil => simp
  | cons _ _ ih => exact List.forall_mem_cons.2 ⟨rfl, List.forall_mem_cons.2 ⟨rfl, ih⟩⟩

end Env

end Lowering

namespace Program

variable {p : Program}

theorem Translates.serves {c c' : Counters} {f : FunctionDecl} {frag : Fragment}
    (h : p.Translates c f frag c') :
    (p.env f.scope).Serves [] ((p.env f.scope).blockCalls (p.body f)) frag.body := by
  obtain ⟨-, clear, code, hbody, hclears, hemits⟩ := h
  rw [hbody]
  exact (Lowering.Env.serves_of_plain hclears.plain).append hemits.serves

/-- **Calls stand together.** In the code of a program that is lowered, the fragment of the globals makes no
call. That of a function makes the calls of its body in order, each as one group of instructions with the code of
the arguments right before it, and takes the result exactly of those that are used as values. Every call goes to
a name that stands for a function, and has one register for each argument. -/
theorem calls_bracketed {c c' : Counters} {fragments : List Fragment} {w : List Lowering.Notice}
    (h : p.lower.run c = ⟨.ok fragments, c', w⟩) :
    ∃ globals functions, fragments = globals :: functions ∧
      (∀ i ∈ globals.body, i.isCallPart = false) ∧
      List.Forall₂ (fun f frag => frag.label = f.name ∧
        (p.env f.scope).Serves [] ((p.env f.scope).blockCalls (p.body f)) frag.body)
        p.functions.toList functions := by
  obtain ⟨globals, functions, rfl, -, hresets, hchain⟩ := translates_of_lower h
  exact ⟨globals, functions, rfl, hresets.plain, hchain.forall₂ fun hf => ⟨hf.1, hf.serves⟩⟩

/-- A function that calls itself on what it returns, once as a statement and once for its value. -/
def nestedCalls : Program :=
  ((do
    let k ← Draft.declareFunction "twice" [("n", .int)] .int
    Draft.pushStatement k 0
    Draft.pushStatement k 1 : Draft.Extend Unit).run ⟨{ nodes :=
      ⟨⟨#[.name "n", .call "twice" [0], .call "twice" [1]]⟩,
        ⟨#[.call "twice" [1], .ret (some 2)]⟩⟩ }, {}⟩).state.program

/-- The function has four groups, and one of them takes no result. -/
theorem calls_bracketed_nestedCalls : ∃ fragments c w,
    nestedCalls.lower.run ⟨1, 0⟩ = ⟨.ok fragments, c, w⟩ ∧
    ((fragments.flatMap (·.body)).filter Instr.isCallPart).length = 15 ∧
    (nestedCalls.functions.toList.flatMap fun f =>
      ((nestedCalls.env f.scope).blockCalls (nestedCalls.body f)).map (·.wanted)) = [true, false, true, true] ∧
    ∃ globals functions, fragments = globals :: functions ∧
      (∀ i ∈ globals.body, i.isCallPart = false) ∧
      List.Forall₂ (fun f frag => frag.label = f.name ∧
        (nestedCalls.env f.scope).Serves [] ((nestedCalls.env f.scope).blockCalls (nestedCalls.body f)) frag.body)
        nestedCalls.functions.toList functions := by
  obtain ⟨fragments, c, w, hlower, hlength⟩ : ∃ fragments c w,
      nestedCalls.lower.run ⟨1, 0⟩ = ⟨.ok fragments, c, w⟩ ∧
        ((fragments.flatMap (·.body)).filter Instr.isCallPart).length = 15 := ⟨_, _, _, rfl, rfl⟩
  exact ⟨fragments, c, w, hlower, hlength, rfl, calls_bracketed hlower⟩

end Program

end Spillway
