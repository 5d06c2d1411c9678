import Spillway.Proofs.Lowering.Branches
import Spillway.Proofs.Lowering.Registers
import Spillway.Proofs.Lowering.Shift

/-!
# The code of an expression does what the expression does

Seen from outside, running the code of an expression is evaluating the expression: it ends with the value in the result
register, or is stopped, exactly if evaluation is, it leaves the world as evaluation does, and it asks the world for the
same things in the same order. Only the registers that were drawn for it are written. So a variable may be used in
place, in the register it has.

* `Env.statics` — what names, fields and callees are by the symbol table.
* `Env.expr_exact` — what lowering an expression writes.
-/

namespace Spillway.Lowering.Env

open Linear

/-! ### What names stand for -/

/-- What names, fields and callees are by the symbol table, seen from the scope of the code. -/
def statics (env : Env) : Statics where
  home x :=
    match env.symbols.resolve env.scope x with
    | .ok (some (scope, .var _)) => some (if scope = SymbolTable.global then .memory else .own)
    | _ => none
  pointee x :=
    match env.symbols.lookup env.scope x with
    | .ok (some e) => e.ty?.bind Ty.structName?
    | _ => none
  callee x :=
    match env.symbols.callee env.scope x with
    | .ok f => f
    | .error _ => none
  field struct x :=
    match env.symbols.field struct x with
    | .ok (some (place, e)) => some (place, e.ty?.bind Ty.structName?)
    | _ => none
  words struct :=
    match env.symbols.fieldCount struct with
    | .ok n => n
    | .error _ => none

/-- The values of variables that are in the registers they have. -/
def locals (env : Env) (regs : VReg → Word) (x : String) : Word :=
  match env.registerOf x with
  | .ok r => regs r
  | .error _ => 0

theorem agrees_locals (env : Env) (regs : VReg → Word) : env.Agrees (env.locals regs) regs := by
  intro x r hx
  rw [locals, hx.2]

/-- Lowering finds out what the symbol table says. -/
theorem describes_statics (env : Env) : env.Describes env.statics := by
  constructor
  case memory =>
    intro x hx
    obtain ⟨found, hresolve, hfound⟩ := Journal.except_bind_ok.1 hx
    rcases found with _ | ⟨scope, v | _ | _⟩
    case some.var =>
      have hglobal : scope = SymbolTable.global := of_decide_eq_true (Except.ok.inj hfound)
      simp only [statics, hresolve, if_pos hglobal]
    all_goals cases hfound
  case own =>
    rintro x r ⟨hnotGlobal, hr⟩
    obtain ⟨e, hlookup, hregister⟩ := Journal.except_bind_ok.1 hr
    obtain ⟨found, hresolve, hentry⟩ := Journal.except_bind_ok.1 hlookup
    cases hentry
    rcases found with _ | ⟨scope, v | _ | _⟩
    case some.var =>
      rw [isGlobal, SymbolTable.isGlobal, hresolve] at hnotGlobal
      have hscope : scope ≠ SymbolTable.global := of_decide_eq_false (Except.ok.inj hnotGlobal)
      simp only [statics, hresolve, if_neg hscope]
    all_goals cases hregister
  case pointee =>
    intro x v hx
    obtain ⟨found, hlookup, hfound⟩ := Journal.except_bind_ok.1 hx
    rcases found with _ | _ | _ | _ <;> cases hfound
    simp only [statics, hlookup]
    rfl
  case callee =>
    intro x f hx
    obtain ⟨found, hcallee, hfound⟩ := Journal.except_bind_ok.1 hx
    rcases found with _ | _ <;> cases hfound
    simp only [statics, hcallee]
  case field =>
    intro ty x k ty' hx
    obtain ⟨struct, e, rfl, hfield, rfl⟩ := field_ok hx
    refine ⟨struct, rfl, ?_⟩
    simp only [statics, hfield]
    cases e <;> rfl
  case words =>
    intro struct n hn
    simp only [statics, hn]

/-! ### Lowering an expression -/

variable {env : Env} {c c' : Counters} {code : List Instr}

/-- **Expressions are lowered exactly.** The code of an expression has neither labels nor branches, and writes the
registers from the counter before to the counter after and no others. From any state, running it looks from outside
like evaluating the expression: the value is left in the result register, or both are stopped, the world is the same
afterwards, and so are the requests, one after the other. -/
theorem expr_exact {e : Expr} {r : VReg} (hbelow : env.Below c.registers)
    (h : (env.expr e).run c = ⟨.ok r, c', code⟩) :
    Unlabelled code ∧
    (∀ r', r' ∈ Fragment.targets code ↔ c.registers ≤ r'.id ∧ r'.id < c'.registers) ∧
    ∀ {W : Type} (rt : Runtime W) (calls : Calls W) (s : State W),
      let run := (Linear.perform rt calls code).run s
      observed (·.regs r) run = (env.statics.perform rt calls (env.locals s.regs) e).run s.outside ∧
      (∀ r', ¬ (c.registers ≤ r'.id ∧ r'.id < c'.registers) → run.state.regs r' = s.regs r') ∧
      (run.result = .ok () → replay rt calls run.entries s.outside = some run.state.outside) ∧
      (∀ {head operand links op}, e = .chain head (links ++ [(op, operand)]) → op.compares = true →
        run.result = .ok () → run.state.regs r = 0 ∨ run.state.regs r = 1) ∧
      (straight rt calls code s).map (fun t => (t.regs r, t.outside))
        = env.statics.eval rt calls (env.locals s.regs) e s.outside := by
  have hcomputes := computes_of_expr env e h
  have hdrawn : Drawn ∅ c.registers code c'.registers := hcomputes.drawn
  refine ⟨hcomputes.unlabelled, fun _ => hdrawn.mem_targets_iff, fun rt calls s => ?_⟩
  have hmirrors : Mirrors rt calls code (·.regs r) (env.statics.perform rt calls (env.locals s.regs) e) s :=
    mirrors_singleton.1 (hcomputes.mirrors env.describes_statics hbelow (Nat.le_refl _) (List.forall_mem_nil _) s
      (env.agrees_locals s.regs))
  refine ⟨hmirrors, fun r' hr' => ?_, ?_, ?_, ?_⟩
  · exact sameBut_perform code s r' (mt hdrawn.mem_targets_iff.1 hr')
  · intro hok
    exact replay_of_perform (Run.ext hok rfl rfl)
  · rintro head operand links op rfl hop hok
    exact Statics.perform_comparison hop (hmirrors.run_eq hok)
  · rw [hmirrors.straight_eq, Statics.finished?_perform]

/-! ### A comparison -/

/-- A struct, a global, and a function with two pointers to the struct. -/
def pairs : Draft :=
  ((do
    Draft.declareStruct "Pair" [("next", .struct "Pair"), ("value", .int)]
    let _ ← Draft.declareGlobal "g" .int
    let _ ← Draft.declareFunction "sum" [("p", .struct "Pair"), ("q", .struct "Pair")] .int : Draft.Extend Unit).run
      {}).state

theorem below_pairs : (pairs.program.env 2).Below 5 := by
  have hstart : ({} : Draft).Fresh := (Draft.Built.ofNodes Draft.Onward {} {}).fresh
  have hkeeps := (Draft.keeps_declareStruct "Pair" [("next", .struct "Pair"), ("value", .int)]).bind fun _ =>
    (Draft.keeps_declareGlobal "g" .int).bind fun _ =>
      (Draft.keeps_declareFunction "sum" [("p", .struct "Pair"), ("q", .struct "Pair")] .int).bind fun _ =>
        Journal.Keeps.pure ()
  have hfresh : pairs.Fresh := hkeeps _ _ _ _ (show _ = Run.mk (.ok ()) pairs _ from rfl) hstart
  intro x r hx
  exact registerOf_lt (fun hv => hfresh.below hv) hx.2

/-- `g + p.next.value < sum(p, new(Pair))` -/
def pairTest : Expr :=
  .chain (.name "g") [(.add, .select (.name "p") ["next", "value"]),
    (.lt, .call "sum" [.name "p", .call "new" [.name "Pair"]])]

/-- Its code. -/
def pairCode : List Instr :=
  [.load ⟨5⟩ (.global "g"), .loadField ⟨6⟩ ⟨3⟩ "next" 0, .loadField ⟨7⟩ ⟨6⟩ "value" 1,
    .binary .add ⟨8⟩ ⟨5⟩ (.reg ⟨7⟩), .alloc ⟨9⟩ "Pair" 2, .push [⟨3⟩, ⟨9⟩] "sum", .call "sum", .result ⟨10⟩,
    .pop [⟨3⟩, ⟨9⟩] "sum", .mov ⟨11⟩ (.imm 0) .always, .cmp ⟨8⟩ (.reg ⟨10⟩), .mov ⟨11⟩ (.imm 1) (.on .lt)]

/-- Globals hold 5, a field holds the sum of its struct's address and its place, and structs are allocated at 7. -/
def pairWorld : Runtime Unit where
  load _ c :=
    match c with
    | .field base place => some (base + BitVec.ofNat 64 place)
    | _ => some 5
  store _ _ _ := none
  alloc _ _ := some (7, ())
  free _ _ := none
  read _ := none

/-- Every register holds its own number. -/
def pairState : State Unit := ⟨fun r => BitVec.ofNat 64 r.id, none, [], none, ⟨(), []⟩⟩

/-- If every call returns 40, the comparison holds. The argument `p` is passed as it was before the struct was
allocated. -/
theorem expr_exact_pairTest :
    (pairs.program.env 2).Below 5 ∧
    ((pairs.program.env 2).expr pairTest).run ⟨5, 0⟩ = ⟨.ok ⟨11⟩, ⟨12, 0⟩, pairCode⟩ ∧
    ((pairs.program.env 2).statics.perform pairWorld (fun _ _ o => some (some 40, o))
        ((pairs.program.env 2).locals pairState.regs) pairTest).run pairState.outside
      = ⟨.ok 1, ⟨(), []⟩,
          [.load (.global "g"), .load (.field 3 0), .load (.field 3 1), .alloc 2, .call "sum" [3, 7]]⟩ := by
  have hrun : ((pairs.program.env 2).expr pairTest).run ⟨5, 0⟩ = ⟨.ok ⟨11⟩, ⟨12, 0⟩, pairCode⟩ := rfl
  have hobserved : observed (·.regs ⟨11⟩)
      ((Linear.perform pairWorld (fun _ _ o => some (some 40, o)) pairCode).run pairState)
      = ⟨.ok 1, ⟨(), []⟩,
          [.load (.global "g"), .load (.field 3 0), .load (.field 3 1), .alloc 2, .call "sum" [3, 7]]⟩ := rfl
  exact ⟨below_pairs, hrun, ((expr_exact below_pairs hrun).2.2 pairWorld _ pairState).1.symm.trans hobserved⟩

end Spillway.Lowering.Env
