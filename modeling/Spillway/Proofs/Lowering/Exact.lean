import Spillway.Proofs.Lowering.Function

/-!
# Lowering does what the code relations say

The relations `Env.Computes` and `Env.Emits` say what code a successful run of lowering writes. Conversely
lowering succeeds, and writes that code, wherever they hold: `Env.Computes.runs` and `Env.Emits.writes`.
-/

namespace Spillway.Lowering

open Linear (Instr)

theorem combine_run (op : BinOp) (left right : VReg) (c : Counters) :
    (combine op left right).run c
      = ⟨.ok ⟨c.registers⟩, ⟨c.registers + 1, c.labels⟩, combination op ⟨c.registers⟩ left right⟩ := by
  unfold combine combination
  cases Action.of op <;> rfl

namespace Env

variable {env : Env} {c c' : Counters} {code : List Instr}

/-- A function that is called is what its name stands for. -/
theorem lookup_of_callee {callee : String} {f : Signature} (h : env.callee callee = .ok (.user f)) :
    env.symbols.lookup env.scope callee = .ok (some (.function f)) := by
  obtain ⟨found, hfound, hsome⟩ := Journal.except_bind_ok.1 h
  obtain ⟨entry, hlookup, hentry⟩ := Journal.except_bind_ok.1 hfound
  rw [hlookup]
  rcases entry with _ | _ | g | _
  all_goals cases hentry
  case some.function =>
    cases hsome
    rfl
  all_goals cases hbuiltin : Builtin.ofName? callee <;> rw [hbuiltin] at hsome <;> cases hsome

theorem loadField_run {r : VReg} {ty ty' : Ty} {x : String} {k : Nat} (h : env.field ty x = .ok (k, ty')) :
    (env.loadField r ty x).run c
      = ⟨.ok (⟨c.registers⟩, ty'), ⟨c.registers + 1, c.labels⟩, [.loadField ⟨c.registers⟩ r x k]⟩ := by
  unfold loadField
  rw [h]
  rfl

theorem Follows.run_eq {r r' : VReg} {ty : Ty} {path : List String}
    (h : env.Follows r ty path c code r' c') : (env.loadPath r ty path).run c = ⟨.ok r', c', code⟩ := by
  induction h with
  | nil => rfl
  | cons hfield _ ih => exact Journal.bind_eq_ok_iff.2 ⟨_, _, _, _, loadField_run hfield, ih, rfl⟩

/-- Lowering a phrase succeeds, with this code and with its values in these registers. -/
def Runs (env : Env) (ph : Phrase) (c : Counters) (code : List Instr) (rs : List VReg) (c' : Counters) : Prop :=
  match ph with
  | .expr e => ∃ r, rs = [r] ∧ (env.expr e).run c = ⟨.ok r, c', code⟩
  | .links r links => ∃ r', rs = [r'] ∧ (env.links r links).run c = ⟨.ok r', c', code⟩
  | .exprs es => (env.exprs es).run c = ⟨.ok rs, c', code⟩

theorem Runs.expr_run {e : Expr} {r : VReg} (h : env.Runs (.expr e) c code [r] c') :
    (env.expr e).run c = ⟨.ok r, c', code⟩ := by
  obtain ⟨r', hr, hrun⟩ := h
  cases hr
  exact hrun

theorem Runs.links_run {r r' : VReg} {links : List (BinOp × Expr)}
    (h : env.Runs (.links r links) c code [r'] c') : (env.links r links).run c = ⟨.ok r', c', code⟩ := by
  obtain ⟨r'', hr, hrun⟩ := h
  cases hr
  exact hrun

theorem readName_global {x : String} (h : env.isGlobal x = .ok true) :
    (env.readName x).run c
      = ⟨.ok ⟨c.registers⟩, ⟨c.registers + 1, c.labels⟩, [.load ⟨c.registers⟩ (.global x)]⟩ := by
  unfold readName
  rw [h]
  rfl

theorem readName_own {x : String} {r : VReg} (h : env.isGlobal x = .ok false)
    (hr : env.registerOf x = .ok r) : (env.readName x).run c = ⟨.ok r, c, []⟩ := by
  unfold readName
  rw [h, hr]
  rfl

theorem allocate_run {struct : String} {fields : Nat}
    (hfields : env.symbols.fieldCount struct = .ok (some fields)) :
    (env.allocate (some struct)).run c
      = ⟨.ok ⟨c.registers⟩, ⟨c.registers + 1, c.labels⟩, [.alloc ⟨c.registers⟩ struct fields]⟩ :=
  lift_bind_ok.2 ⟨_, hfields, rfl⟩

theorem callWith_new {name struct : String} {argument : Except Defect (Option String)} {fields : Nat}
    {all : Lower (List VReg)} {first : Lower VReg} {wanted : Bool} (hnew : env.callee name = .ok (.builtin .new))
    (hstruct : argument = .ok (some struct)) (hfields : env.symbols.fieldCount struct = .ok (some fields)) :
    (env.callWith name argument all first wanted).run c
      = ⟨.ok (some ⟨c.registers⟩), ⟨c.registers + 1, c.labels⟩, [.alloc ⟨c.registers⟩ struct fields]⟩ :=
  lift_bind_ok.2 ⟨_, hnew, lift_bind_ok.2 ⟨_, hstruct,
    Journal.bind_eq_ok_iff.2 ⟨_, _, _, _, allocate_run hfields, rfl, rfl⟩⟩⟩

/-- **Values.** Lowering succeeds on what code computes, and writes that code. -/
theorem Computes.runs {ph : Phrase} {rs : List VReg} (h : env.Computes ph c code rs c') :
    env.Runs ph c code rs c' := by
  induction h with
  | int | bool | nil =>
    refine ⟨_, rfl, ?_⟩
    rw [expr]
    rfl
  | global hglobal =>
    refine ⟨_, rfl, ?_⟩
    rw [expr]
    exact readName_global hglobal
  | own hown hr =>
    refine ⟨_, rfl, ?_⟩
    rw [expr]
    exact readName_own hown hr
  | paren _ ih =>
    refine ⟨_, rfl, ?_⟩
    rw [expr]
    exact ih.expr_run
  | chain _ _ ih ih' =>
    refine ⟨_, rfl, ?_⟩
    rw [expr]
    exact Journal.bind_eq_ok_iff.2 ⟨_, _, _, _, ih.expr_run, ih'.links_run, rfl⟩
  | not _ ih =>
    refine ⟨_, rfl, ?_⟩
    rw [expr]
    exact Journal.bind_eq_ok_iff.2 ⟨_, _, _, _, ih.expr_run, rfl, rfl⟩
  | negate _ ih =>
    refine ⟨_, rfl, ?_⟩
    rw [expr]
    exact Journal.bind_eq_ok_iff.2 ⟨_, _, _, _, ih.expr_run, rfl, rfl⟩
  | select hty _ hfollows ih =>
    refine ⟨_, rfl, ?_⟩
    rw [expr]
    refine lift_bind_ok.2 ⟨_, hty, ?_⟩
    exact Journal.bind_eq_ok_iff.2 ⟨_, _, _, _, ih.expr_run, hfollows.run_eq, rfl⟩
  | alloc hnew hstruct hfields =>
    refine ⟨_, rfl, ?_⟩
    rw [expr]
    exact Journal.bind_eq_ok_iff.2 ⟨_, _, _, _, callWith_new hnew hstruct hfields, rfl, rfl⟩
  | @call name f arguments rs c c' code huser _ ih =>
    refine ⟨_, rfl, ?_⟩
    have hcall : (env.callWith name (structArgument? arguments) (env.exprs arguments) (env.firstExpr arguments)
          true).run c
        = ⟨.ok (some ⟨c'.registers⟩), ⟨c'.registers + 1, c'.labels⟩,
          code ++ [.push rs name, .call name, .result ⟨c'.registers⟩, .pop rs name]⟩ :=
      lift_bind_ok.2 ⟨_, huser, Journal.bind_eq_ok_iff.2 ⟨_, _, _, _, ih, rfl, rfl⟩⟩
    rw [expr]
    exact Journal.bind_eq_ok_iff.2 ⟨_, _, _, _, hcall, rfl, (List.append_nil _).symm⟩
  | linksNil =>
    refine ⟨_, rfl, ?_⟩
    rw [links]
    rfl
  | linksCons _ _ ih ih' =>
    refine ⟨_, rfl, ?_⟩
    rw [links, List.append_assoc]
    refine Journal.bind_eq_ok_iff.2 ⟨_, _, _, _, ih.expr_run, ?_, rfl⟩
    exact Journal.bind_eq_ok_iff.2 ⟨_, _, _, _, combine_run .., ih'.links_run, rfl⟩
  | exprsNil =>
    show (env.exprs []).run _ = _
    rw [exprs]
    rfl
  | exprsCons _ _ ih ih' =>
    show (env.exprs (_ :: _)).run _ = _
    rw [exprs]
    refine Journal.bind_eq_ok_iff.2 ⟨_, _, _, _, ih.expr_run, ?_, rfl⟩
    exact Journal.bind_eq_ok_iff.2 ⟨_, _, _, _, ih', rfl, (List.append_nil _).symm⟩

/-! ### Statements -/

theorem StoresPath.run_eq {value r : VReg} {ty : Ty} {x : String} {path : List String}
    (h : env.StoresPath value r ty x path c code c') :
    (env.storePath value r ty x path).run c = ⟨.ok (), c', code⟩ := by
  induction h with
  | last hfield => exact lift_bind_ok.2 ⟨_, hfield, rfl⟩
  | step hfield _ ih => exact Journal.bind_eq_ok_iff.2 ⟨_, _, _, _, loadField_run hfield, ih, rfl⟩

theorem Stores.run_eq {value : VReg} {place : Place} (h : env.Stores value place c code c') :
    (env.store place value).run c = ⟨.ok (), c', code⟩ := by
  cases h with
  | global hglobal => exact lift_bind_ok.2 ⟨_, hglobal, rfl⟩
  | own hown hr => exact lift_bind_ok.2 ⟨_, hown, lift_bind_ok.2 ⟨_, hr, rfl⟩⟩
  | field hv hread hpath =>
    have hname := hread.runs.expr_run
    rw [expr] at hname
    refine lift_bind_ok.2 ⟨_, hv, ?_⟩
    exact Journal.bind_eq_ok_iff.2 ⟨_, _, _, _, hname, hpath.run_eq, rfl⟩

theorem condition_run {e : Expr} {r : VReg} (h : env.Computes (.expr e) c code [r] c') :
    (env.condition e).run c = ⟨.ok (), c', code ++ [.cmp r (.imm 1)]⟩ :=
  Journal.bind_eq_ok_iff.2 ⟨_, _, _, _, h.runs.expr_run, rfl, rfl⟩

/-- Lowering a statement, or statements, succeeds with this code. -/
def Writes (env : Env) (part : Part) (c : Counters) (code : List Instr) (c' : Counters) : Prop :=
  match part with
  | .stmt s => (env.stmt s).run c = ⟨.ok (), c', code⟩
  | .block ss => (env.block ss).run c = ⟨.ok (), c', code⟩

/-- **Statements.** Lowering succeeds on what code there is for, and writes that code. -/
theorem Emits.writes {part : Part} (h : env.Emits part c code c') : env.Writes part c code c' := by
  induction h with
  | assign hvalue hstores =>
    show (env.stmt _).run _ = _
    rw [stmt]
    exact Journal.bind_eq_ok_iff.2 ⟨_, _, _, _, hvalue.runs.expr_run, hstores.run_eq, rfl⟩
  | print hread =>
    have hname := hread.runs.expr_run
    rw [expr] at hname
    show (env.stmt _).run _ = _
    rw [stmt]
    exact Journal.bind_eq_ok_iff.2 ⟨_, _, _, _, hname, rfl, rfl⟩
  | readGlobal hglobal =>
    show (env.stmt _).run _ = _
    rw [stmt]
    exact lift_bind_ok.2 ⟨_, hglobal, rfl⟩
  | readOwn hown hr =>
    show (env.stmt _).run _ = _
    rw [stmt]
    exact lift_bind_ok.2 ⟨_, hown, lift_bind_ok.2 ⟨_, hr, rfl⟩⟩
  | when htest _ ih =>
    show (env.stmt _).run _ = _
    rw [stmt]
    refine Journal.bind_eq_ok_iff.2 ⟨_, _, _, _, condition_run htest, freshLabel_bind_ok.2
      (emit_bind_ok.2 ⟨_, Journal.bind_eq_ok_iff.2 ⟨_, _, _, _, ih, emit_bind_ok.2 ⟨_, rfl, rfl⟩, rfl⟩,
        rfl⟩), ?_⟩
    simp only [List.append_assoc, List.cons_append, List.nil_append]
  | choose htest _ _ ih ih' =>
    show (env.stmt _).run _ = _
    rw [stmt]
    refine Journal.bind_eq_ok_iff.2 ⟨_, _, _, _, condition_run htest,
      freshLabel_bind_ok.2 (freshLabel_bind_ok.2 (emit_bind_ok.2 ⟨_,
        Journal.bind_eq_ok_iff.2 ⟨_, _, _, _, ih, emit_bind_ok.2 ⟨_, emit_bind_ok.2 ⟨_,
          Journal.bind_eq_ok_iff.2 ⟨_, _, _, _, ih', rfl, rfl⟩, rfl⟩, rfl⟩, rfl⟩, rfl⟩)), ?_⟩
    simp only [List.append_assoc, List.cons_append, List.nil_append]
  | loop _ htest ih =>
    show (env.stmt _).run _ = _
    rw [stmt]
    refine freshLabel_bind_ok.2 (freshLabel_bind_ok.2 (emit_bind_ok.2 ⟨_, emit_bind_ok.2 ⟨_,
      Journal.bind_eq_ok_iff.2 ⟨_, _, _, _, ih, emit_bind_ok.2 ⟨_,
        Journal.bind_eq_ok_iff.2 ⟨_, _, _, _, condition_run htest, rfl, rfl⟩, rfl⟩, rfl⟩, rfl⟩, ?_⟩))
    simp only [List.append_assoc, List.cons_append, List.nil_append]
  | leave =>
    show (env.stmt _).run _ = _
    rw [stmt]
    rfl
  | give hvalue =>
    show (env.stmt _).run _ = _
    rw [stmt]
    exact Journal.bind_eq_ok_iff.2 ⟨_, _, _, _, hvalue.runs.expr_run, rfl, rfl⟩
  | alloc hnew hstruct hfields =>
    show (env.stmt _).run _ = _
    rw [stmt]
    exact Journal.bind_eq_ok_iff.2 ⟨_, _, _, _, callWith_new hnew hstruct hfields, rfl, rfl⟩
  | @free name e rest r c c' code hdelete hvalue =>
    have hfirst : (env.firstExpr (e :: rest)).run c = ⟨.ok r, c', code⟩ := by
      rw [firstExpr]
      exact hvalue.runs.expr_run
    have hcall : (env.callWith name (structArgument? (e :: rest)) (env.exprs (e :: rest))
          (env.firstExpr (e :: rest)) false).run c
        = ⟨.ok none, c', code ++ [.free r]⟩ :=
      lift_bind_ok.2 ⟨_, hdelete, Journal.bind_eq_ok_iff.2 ⟨_, _, _, _, hfirst, rfl, rfl⟩⟩
    show (env.stmt _).run _ = _
    rw [stmt]
    exact Journal.bind_eq_ok_iff.2 ⟨_, _, _, _, hcall, rfl, (List.append_nil _).symm⟩
  | @call name f arguments rs c c' code huser harguments =>
    have hcall : (env.callWith name (structArgument? arguments) (env.exprs arguments) (env.firstExpr arguments)
          false).run c
        = ⟨.ok none, c', code ++ [.push rs name, .call name, .pop rs name]⟩ :=
      lift_bind_ok.2 ⟨_, huser, Journal.bind_eq_ok_iff.2 ⟨_, _, _, _, harguments.runs, rfl, rfl⟩⟩
    show (env.stmt _).run _ = _
    rw [stmt]
    exact Journal.bind_eq_ok_iff.2 ⟨_, _, _, _, hcall, rfl, (List.append_nil _).symm⟩
  | nil =>
    show (env.block _).run _ = _
    rw [block]
    rfl
  | cons _ _ ih ih' =>
    show (env.block _).run _ = _
    rw [block]
    exact Journal.bind_eq_ok_iff.2 ⟨_, _, _, _, ih, ih', rfl⟩

/-! ### Functions and programs -/

theorem Clears.run_eq {names : List String} (h : env.Clears names code) (c : Counters) :
    (env.clearLocals names).run c = ⟨.ok (), c, code⟩ := by
  induction h with
  | nil => rfl
  | cons hx _ ih =>
    obtain ⟨r, hr, rfl⟩ := hx
    exact Journal.bind_eq_ok_iff.2 ⟨_, _, _, _, lift_bind_ok.2 ⟨r, hr, rfl⟩, ih, rfl⟩

theorem Resets.run_eq {names : List String} (h : env.Resets names code) (c : Counters) :
    (env.clearGlobals names).run c = ⟨.ok (), c, code⟩ := by
  induction h with
  | nil => rfl
  | cons hr _ ih => exact Journal.bind_eq_ok_iff.2 ⟨_, _, _, _, lift_bind_ok.2 ⟨_, hr, rfl⟩, ih, rfl⟩

end Env

theorem fragment_run (label : String) {m : Lower Unit} {c c' : Counters} {code : List Instr}
    (h : m.run c = ⟨.ok (), c', code⟩) :
    ∃ w, (fragment label m).run c = ⟨.ok ⟨label, code⟩, c', w⟩ := by
  refine ⟨_, Journal.bind_eq_ok_iff.2 ⟨((), code), c', code.map .emitted, [], ?_, rfl, rfl⟩⟩
  rw [Journal.collect_run, h]
  rfl

end Spillway.Lowering

namespace Spillway.Program

open Linear (Fragment)

variable {p : Program} {c c' : Counters}

theorem Translates.run_eq {f : FunctionDecl} {frag : Fragment} (h : p.Translates c f frag c') :
    ∃ w, (p.lowerFunction f).run c = ⟨.ok frag, c', w⟩ := by
  obtain ⟨label, body⟩ := frag
  obtain ⟨rfl, clear, code, rfl, hclears, hemits⟩ := h
  have hbody : ((p.env f.scope).function f.locals (p.body f)).run c = ⟨.ok (), c', clear ++ code⟩ :=
    Journal.bind_eq_ok_iff.2 ⟨_, _, _, _, hclears.run_eq c, hemits.writes, rfl⟩
  obtain ⟨w, hw⟩ := Lowering.fragment_run f.name hbody
  rw [lowerFunction_eq]
  exact ⟨_, Journal.record_bind_ok.2 ⟨w, hw, rfl⟩⟩

/-- **Programs.** Lowering succeeds on a program whose globals can be cleared and whose functions have code. -/
theorem lower_of_chain {code : List Linear.Instr} {functions : List Fragment}
    (hresets : (p.env SymbolTable.global).Resets p.globals code)
    (h : Journal.Chain p.Translates c p.functions.toList functions c') :
    ∃ w, p.lower.run c = ⟨.ok (⟨Fragment.globalsLabel, code⟩ :: functions), c', w⟩ := by
  obtain ⟨w, hw⟩ := Lowering.fragment_run Fragment.globalsLabel (hresets.run_eq c)
  obtain ⟨w', hw'⟩ := Journal.mapM_of_chain (R := p.Translates) (fun hf => hf.run_eq) h
  exact ⟨_, Journal.bind_eq_ok_iff.2 ⟨_, _, _, _, hw, Journal.bind_eq_ok_iff.2 ⟨_, _, _, _, hw', rfl, rfl⟩, rfl⟩⟩

end Spillway.Program
