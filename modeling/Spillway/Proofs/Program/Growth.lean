import Mathlib.Data.List.Induction
import Spillway.Program
import Spillway.Proofs.Symbol.Change

/-!
# How programs are made

A program grows step by step, from an empty one: globals, structs, functions and locals are declared, nodes are
added and statements are appended, in any order, and between two steps the counters are used for something else.
`Draft.Adds` is one such step, and `Draft.Grows` is any number of them. Which steps may be taken is its parameter,
a rule. The rules of this module:

* `Rule.once` — no name is declared twice in one scope: `Draft.Built`;
* `Rule.any` — names may be declared again: `Draft.Declared`;
* `Rule.onward` — they may, but no register is numbered again: `Draft.Assembled`;
* `Rule.sparing` — one global name is not declared: `Draft.DeclaredSince`.

What holds of an empty program and is kept by every step holds of every program that grew: `Draft.Grown.induct`.
-/

namespace Spillway.Draft

/-! ### Steps -/

/-- How a function was declared: its name, its parameters, what it returns, and the number from which
its parameters got their registers. -/
structure Heading where
  name : String
  parameters : List (String × Ty)
  returns : Ty
  first : Nat

/-- A call that adds to a program, with what it was given and what it returned. -/
inductive Call where
  /-- The counters are used for something else. -/
  | elsewhere (c : Counters)
  | addExpr (node : ExprNode)
  | addStmt (node : StmtNode)
  | declareGlobal (x : String) (ty : Ty) (r : VReg)
  | declareStruct (x : String) (fields : List (String × Ty))
  | declareFunction (heading : Heading)
  | declareLocal (k : FunctionId) (x : String) (ty : Ty) (r : VReg)
  | pushStatement (k : FunctionId) (i : StmtId)

/-- A call leads from a draft to the next one. -/
inductive Adds (d : Draft) : Call → Draft → Prop
  | elsewhere (c : Counters) : Adds d (.elsewhere c) ⟨d.program, c⟩
  | addExpr (node : ExprNode) :
      Adds d (.addExpr node) ⟨{ d.program with nodes := (d.program.nodes.addExpr node).2 }, d.counters⟩
  | addStmt (node : StmtNode) :
      Adds d (.addStmt node) ⟨{ d.program with nodes := (d.program.nodes.addStmt node).2 }, d.counters⟩
  | declareGlobal {d' : Draft} {x : String} {ty : Ty} {r : VReg} {w : List Scoping.Notice} :
      (declareGlobal x ty).run d = ⟨.ok r, d', w⟩ → Adds d (.declareGlobal x ty r) d'
  | declareStruct {d' : Draft} {x : String} {fields : List (String × Ty)} {u : Unit} {w : List Scoping.Notice} :
      (declareStruct x fields).run d = ⟨.ok u, d', w⟩ → Adds d (.declareStruct x fields) d'
  | declareFunction {d' : Draft} {x : String} {ps : List (String × Ty)} {returns : Ty} {k : FunctionId}
      {w : List Scoping.Notice} :
      (declareFunction x ps returns).run d = ⟨.ok k, d', w⟩ →
      Adds d (.declareFunction ⟨x, ps, returns, d.counters.registers⟩) d'
  | declareLocal {d' : Draft} {k : FunctionId} {x : String} {ty : Ty} {r : VReg} {w : List Scoping.Notice} :
      (declareLocal k x ty).run d = ⟨.ok r, d', w⟩ → Adds d (.declareLocal k x ty r) d'
  | pushStatement {d' : Draft} {k : FunctionId} {i : StmtId} {u : Unit} {w : List Scoping.Notice} :
      (pushStatement k i).run d = ⟨.ok u, d', w⟩ → Adds d (.pushStatement k i) d'

/-! ### Rules -/

/-- Which calls may be made at a draft. -/
abbrev Rule := Draft → Call → Prop

/-- No register is numbered again: the counter of registers only grows. -/
def Onward (c c' : Counters) : Prop := c.registers ≤ c'.registers

namespace Rule

/-- No name is declared twice in one scope. How the counters may change elsewhere is the parameter `drift`. -/
def once (drift : Counters → Counters → Prop) : Rule := fun d call =>
  match call with
  | .elsewhere c => drift d.counters c
  | .declareGlobal x .. => d.program.symbols.bound? SymbolTable.global x = none
  | .declareStruct x fields =>
    d.program.symbols.bound? SymbolTable.global x = none ∧ (fields.map Prod.fst).Nodup
  | .declareFunction heading =>
    d.program.symbols.bound? SymbolTable.global heading.name = none ∧ (heading.parameters.map Prod.fst).Nodup
  | .declareLocal k x .. => ∃ f, d.program.functions.get? k = some f ∧ d.program.symbols.bound? f.scope x = none
  | .addExpr _ | .addStmt _ | .pushStatement .. => True

/-- Every call may be made. -/
def any : Rule := fun _ _ => True

/-- Every call may be made, as long as no register is numbered again. -/
def onward : Rule := fun d call =>
  match call with
  | .elsewhere c => Onward d.counters c
  | _ => True

/-- The global name `x` is not declared. -/
def sparing (x : String) : Rule := fun _ call =>
  match call with
  | .declareGlobal y .. | .declareStruct y _ => y ≠ x
  | .declareFunction heading => heading.name ≠ x
  | _ => True

end Rule

/-! ### Programs that grow -/

/-- Calls that a rule allows lead from one draft to another. -/
inductive Grows (rule : Rule) (start : Draft) : List Call → Draft → Prop
  | nil : Grows rule start [] start
  | add {calls : List Call} {call : Call} {d d' : Draft} :
      Grows rule start calls d → d.Adds call d' → rule d call → Grows rule start (calls ++ [call]) d'

/-- A draft that an empty program grew into. -/
def Grown (rule : Rule) (d : Draft) : Prop := ∃ c calls, Grows rule ⟨{}, c⟩ calls d

/-- A draft that was built step by step, no name being declared twice in one scope. -/
def Built (drift : Counters → Counters → Prop) (d : Draft) : Prop := d.Grown (.once drift)

/-- A draft that was declared step by step. Names may be declared again, and between two steps the counters may
be set to anything. -/
def Declared (d : Draft) : Prop := d.Grown .any

/-- A draft that was assembled step by step. Names may be declared again. -/
def Assembled (d : Draft) : Prop := d.Grown .onward

/-- A draft that the calls of a record led to, no name being declared twice in one scope. Between two
declarations nodes may be added and the counters used for anything else. -/
def Recorded (calls : List Call) (d : Draft) : Prop := ∃ c, Grows (.once fun _ _ => True) ⟨{}, c⟩ calls d

/-- A draft that came out of another by declarations, of which none declares the global name `struct`. -/
def DeclaredSince (start : Draft) (struct : String) (d : Draft) : Prop :=
  ∃ calls, Grows (.sparing struct) start calls d

variable {rule rule' : Rule} {d₀ d d' : Draft} {call : Call} {calls calls' : List Call}

theorem Grows.mono (h : Grows rule d₀ calls d) (hrules : ∀ d call, rule d call → rule' d call) :
    Grows rule' d₀ calls d := by
  induction h with
  | nil => exact .nil
  | add _ hadds hrule ih => exact .add ih hadds (hrules _ _ hrule)

theorem Grows.trans (h : Grows rule d₀ calls d) (h' : Grows rule d calls' d') :
    Grows rule d₀ (calls ++ calls') d' := by
  induction h' with
  | nil => rw [List.append_nil]; exact h
  | add _ hadds hrule ih => rw [← List.append_assoc]; exact .add ih hadds hrule

namespace Grown

theorem start (c : Counters) : (⟨{}, c⟩ : Draft).Grown rule := ⟨c, [], .nil⟩

theorem add (h : d.Grown rule) (hadds : d.Adds call d') (hrule : rule d call) : d'.Grown rule := by
  obtain ⟨c, calls, hgrows⟩ := h
  exact ⟨c, _, hgrows.add hadds hrule⟩

theorem mono (h : d.Grown rule) (hrules : ∀ d call, rule d call → rule' d call) : d.Grown rule' := by
  obtain ⟨c, calls, hgrows⟩ := h
  exact ⟨c, calls, hgrows.mono hrules⟩

theorem trans (h : d.Grown rule) (h' : Grows rule d calls d') : d'.Grown rule := by
  obtain ⟨c, _, hgrows⟩ := h
  exact ⟨c, _, hgrows.trans h'⟩

/-- What holds at the start and is kept by every step that the rule allows. -/
theorem induct {P : Draft → Prop} (h : d.Grown rule) (hstart : ∀ c, P ⟨{}, c⟩)
    (hadd : ∀ {d call d'}, d.Grown rule → P d → d.Adds call d' → rule d call → P d') : P d := by
  obtain ⟨c, calls, hgrows⟩ := h
  induction hgrows with
  | nil => exact hstart c
  | add hgrows hadds hrule ih => exact hadd ⟨c, _, hgrows⟩ ih hadds hrule

/-- All nodes of a program can be added before anything is declared. -/
theorem ofNodes (hexpr : ∀ d node, rule d (.addExpr node)) (hstmt : ∀ d node, rule d (.addStmt node)) (ns : Nodes)
    (c : Counters) : (⟨{ nodes := ns }, c⟩ : Draft).Grown rule := by
  obtain ⟨⟨⟨exprs⟩⟩, ⟨⟨stmts⟩⟩⟩ := ns
  induction stmts using List.reverseRecOn with
  | nil =>
    induction exprs using List.reverseRecOn with
    | nil => exact .start c
    | append_singleton exprs node ih =>
      have h := ih.add (.addExpr node) (hexpr _ node)
      rwa [Nodes.addExpr, Arena.push, List.push_toArray] at h
  | append_singleton stmts node ih =>
    have h := ih.add (.addStmt node) (hstmt _ node)
    rwa [Nodes.addStmt, Arena.push, List.push_toArray] at h

end Grown

/-- A draft with nodes only was built. -/
theorem Built.ofNodes (drift : Counters → Counters → Prop) (ns : Nodes) (c : Counters) :
    (⟨{ nodes := ns }, c⟩ : Draft).Built drift := Grown.ofNodes (fun _ _ => trivial) (fun _ _ => trivial) ns c

/-- A draft that was built without numbering a register again was assembled. -/
theorem Built.assembled (h : d.Built Onward) : d.Assembled := by
  refine Grown.mono h fun d call hrule => ?_
  cases call with
  | elsewhere c => exact hrule
  | _ => trivial

/-- An assembled draft was declared. -/
theorem Assembled.declared (h : d.Assembled) : d.Declared := h.mono fun _ _ _ => trivial

theorem DeclaredSince.declared {struct : String} (h : d₀.DeclaredSince struct d) (hstart : d₀.Declared) :
    d.Declared := by
  obtain ⟨calls, hgrows⟩ := h
  exact hstart.trans (hgrows.mono fun _ _ _ => trivial)

end Spillway.Draft
