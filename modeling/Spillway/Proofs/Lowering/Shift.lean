import Spillway.Proofs.Journal
import Spillway.Proofs.Linear.Renaming
import Spillway.Proofs.Lowering.Node
import Spillway.Proofs.Symbol.Change
import Spillway.Proofs.Translation

/-!
# Lowering from other counters

The counters that lowering starts from show only in the numbers of the registers and labels that are
drawn. From other counters every number that is drawn is moved by the same distance, and nothing else
changes, also if lowering fails. This needs the registers of the variables to be below the counter, so
that no drawn register can be taken for one of them.

* `Shift` — two pairs of counters, and how one is carried to the other.
* `Program.lower_carries` — lowering a program from one and from the other.
-/

namespace Spillway

open Journal.Translation (Carries)

/-! ### Registers of variables -/

namespace SymbolTable

/-- The registers of all variables are below `n`. -/
def Below (t : SymbolTable) (n : Nat) : Prop :=
  ∀ {i x v}, t.bound? i x = some (.var v) → v.register.id < n

/-- What a name resolves to is bound in the scope that holds it. -/
theorem bound?_of_resolveWithin {t : SymbolTable} {x : String} {depth : Nat} {i j : ScopeId} {e : Entry}
    (h : t.resolveWithin x depth i = .ok (some (j, e))) : t.bound? j x = some e := by
  induction depth generalizing i with
  | zero => cases h
  | succ depth ih =>
    rw [resolveWithin, scope, Arena.fetch] at h
    cases hs : t.scopes.get? i with
    | none =>
      rw [hs] at h
      cases h
    | some s =>
      rw [hs] at h
      dsimp only [bind, Except.bind] at h
      split at h
      · cases h
        rw [bound?_of_scope hs]
        assumption
      · exact ih h
      · cases h

/-- Renaming registers that no variable has changes nothing. -/
theorem rename_eq_self {t : SymbolTable} {f : VReg → VReg}
    (h : ∀ {i x v}, t.bound? i x = some (.var v) → f v.register = v.register) : t.rename f = t := by
  have hscope : ∀ i (hi : i < t.scopes.items.size), t.scopes.items[i].rename f = t.scopes.items[i] := by
    intro i hi
    have hget : t.scopes.get? i = some t.scopes.items[i] := Array.getElem?_eq_getElem hi
    have hentries : t.scopes.items[i].entries.map (Entry.rename f) = t.scopes.items[i].entries := by
      refine Dict.map_eq_self fun {x e} he => ?_
      cases e with
      | var v =>
        rw [← bound?_of_scope hget] at he
        rw [Entry.rename, Variable.rename, h he]
      | function g => rfl
      | struct scope => rfl
    rw [Scope.rename, hentries]
  have hitems : t.scopes.items.map (Scope.rename f) = t.scopes.items := by
    refine Array.ext (Array.size_map ..) fun i hi hi' => ?_
    rw [Array.getElem_map]
    exact hscope i hi'
  show SymbolTable.mk ⟨t.scopes.items.map (Scope.rename f)⟩ = t
  rw [hitems]

end SymbolTable

/-! ### Reports of queries -/

namespace SymbolTable

variable (t : SymbolTable) (i : ScopeId) (x : String)

theorem nameless_resolveWithin (depth : Nat) : Nameless (t.resolveWithin x depth i) := by
  induction depth generalizing i with
  | zero => exact fun _ => rfl
  | succ depth ih =>
    refine (nameless_scope t i).bind fun s => ?_
    cases s.entries.get? x with
    | some e => exact fun _ => rfl
    | none =>
      cases s.parent with
      | some parent => exact ih parent
      | none => exact fun _ => rfl

theorem nameless_lookup : Nameless (t.lookup i x) :=
  (nameless_resolveWithin t i x _).bind fun _ _ => rfl

theorem nameless_struct? : Nameless (t.struct? x) := by
  refine ((nameless_scope t _).bind fun _ _ => rfl).bind fun entry => ?_
  rcases entry with _ | _ | _ | _ <;> exact fun _ => rfl

theorem nameless_fieldCount : Nameless (t.fieldCount x) := by
  refine (nameless_struct? t x).bind fun struct => ?_
  cases struct with
  | none => exact fun _ => rfl
  | some i => exact (nameless_scope t i).bind fun _ _ => rfl

theorem nameless_field (field : String) : Nameless (t.field x field) := by
  refine (nameless_struct? t x).bind fun struct => ?_
  cases struct with
  | none => exact fun _ => rfl
  | some i =>
    refine (nameless_scope t i).bind fun s => ?_
    dsimp only
    cases s.entries.position? field <;> cases s.entries.get? field <;> exact fun _ => rfl

end SymbolTable

namespace Lowering.Env

variable (env : Env) (x : String)

theorem nameless_var : Nameless (env.var x) := by
  refine (env.symbols.nameless_lookup env.scope x).bind fun entry => ?_
  rcases entry with _ | _ | _ | _ <;> exact fun _ => rfl

theorem nameless_registerOf : Nameless (env.registerOf x) := by
  refine (env.symbols.nameless_lookup env.scope x).bind fun entry => ?_
  cases entry.bind Entry.register? <;> exact fun _ => rfl

theorem nameless_isGlobal : Nameless (env.isGlobal x) := by
  refine (env.symbols.nameless_resolveWithin env.scope x _).bind fun found => ?_
  rcases found with _ | ⟨_, _ | _ | _⟩ <;> exact fun _ => rfl

theorem nameless_callee : Nameless (env.callee x) := by
  refine Nameless.bind ?_ fun callee => ?_
  · refine (env.symbols.nameless_lookup env.scope x).bind fun entry => ?_
    rcases entry with _ | _ | _ | _ <;> exact fun _ => rfl
  · cases callee <;> exact fun _ => rfl

theorem nameless_field (ty : Ty) : Nameless (env.field ty x) := by
  cases ty with
  | struct struct =>
    refine (env.symbols.nameless_field struct x).bind fun found => ?_
    cases found <;> exact fun _ => rfl
  | _ => exact fun _ => rfl

theorem nameless_typeAlong (ty : Ty) (path : List String) : Nameless (env.typeAlong ty path) := by
  induction path generalizing ty with
  | nil => exact fun _ => rfl
  | cons x path ih => exact (nameless_field env x ty).bind fun field => ih field.2

theorem nameless_structArgument? (arguments : List Expr) : Nameless (structArgument? arguments) := by
  rcases arguments with _ | ⟨_ | _ | _ | _ | _ | _ | _ | _ | _ | _, _⟩ <;> exact fun _ => rfl

theorem nameless_typeOf (e : Expr) : Nameless (env.typeOf e) := by
  fun_induction typeOf env e with
  | case4 x => exact (nameless_var env x).bind fun _ _ => rfl
  | case5 inner ih => exact ih
  | case6 head ih => exact ih
  | case9 base fields ih => exact ih.bind fun ty => nameless_typeAlong env ty fields
  | case10 callee arguments =>
    refine (nameless_callee env callee).bind fun goal => ?_
    rcases goal with _ | _ | _
    · exact fun _ => rfl
    · exact (nameless_structArgument? arguments).bind fun _ _ => rfl
    · exact fun _ => rfl
  | _ => exact fun _ => rfl

end Lowering.Env

theorem Lowering.Env.registerOf_lt {env : Lowering.Env} {n : Nat} (h : env.symbols.Below n) {x : String}
    {r : VReg} (hr : env.registerOf x = .ok r) : r.id < n := by
  obtain ⟨entry, hlookup, hr⟩ := Journal.except_bind_ok.1 hr
  obtain ⟨found, hresolve, hentry⟩ := Journal.except_bind_ok.1 hlookup
  cases hentry
  rcases found with _ | ⟨j, _ | _ | _⟩ <;> cases hr
  exact h (SymbolTable.bound?_of_resolveWithin hresolve)

/-- Counters to lower from, and counters to lower from instead. -/
structure Shift where
  source : Counters
  target : Counters

namespace Shift

/-- A register that is drawn is moved; one that was drawn before is not. -/
def reg (s : Shift) (r : VReg) : VReg :=
  if r.id < s.source.registers then r else ⟨r.id + s.target.registers - s.source.registers⟩

/-- A label that is drawn is moved. -/
def label (s : Shift) : Label → Label
  | .numbered stem n => .numbered stem (n + s.target.labels - s.source.labels)
  | .named text => .named text

/-- The renaming of what is drawn. -/
def moves (s : Shift) : Renaming := ⟨s.reg, s.label⟩

/-- Where the counters are after as much was drawn from the target. -/
def counters (s : Shift) (c : Counters) : Counters :=
  ⟨c.registers + s.target.registers - s.source.registers, c.labels + s.target.labels - s.source.labels⟩

/-- How writing linear code appears from the other counters. Its reports are the same whatever the names of
registers are, so they may be given other names. -/
def lowering (s : Shift) (f : VReg → VReg) : Journal.Translation Defect Counters Linear.Instr where
  error := Defect.rename f
  state := s.counters
  entry := Linear.Instr.rename s.moves
  covers c := s.source.registers ≤ c.registers ∧ s.source.labels ≤ c.labels

theorem reg_of_lt {s : Shift} {r : VReg} (h : r.id < s.source.registers) : s.reg r = r := if_pos h

end Shift

namespace Lowering

open Linear (Instr)

variable {s : Shift} {f : VReg → VReg}

theorem emit_carries (i : Instr) : (s.lowering f).Carries id (emit i) (emit (i.rename s.moves)) := .record rfl

theorem freshRegister_carries : (s.lowering f).Carries s.reg freshRegister freshRegister := by
  refine .modifyGet fun c hc => ?_
  obtain ⟨hregisters, hlabels⟩ := hc
  refine ⟨⟨Nat.le_succ_of_le hregisters, hlabels⟩, ?_⟩
  have hreg : s.reg ⟨c.registers⟩ = ⟨c.registers + s.target.registers - s.source.registers⟩ :=
    if_neg (Nat.not_lt.2 hregisters)
  have hnext : c.registers + s.target.registers - s.source.registers + 1
      = c.registers + 1 + s.target.registers - s.source.registers := by
    omega
  show ((⟨(s.counters c).registers⟩, ⟨(s.counters c).registers + 1, (s.counters c).labels⟩) : VReg × Counters)
    = (s.reg ⟨c.registers⟩, ⟨c.registers + 1 + s.target.registers - s.source.registers, (s.counters c).labels⟩)
  rw [hreg, ← hnext]
  rfl

theorem freshLabel_carries (stem : String) :
    (s.lowering f).Carries s.label (freshLabel stem) (freshLabel stem) := by
  refine .modifyGet fun c hc => ?_
  obtain ⟨hregisters, hlabels⟩ := hc
  refine ⟨⟨hregisters, Nat.le_succ_of_le hlabels⟩, ?_⟩
  have hnext : c.labels + s.target.labels - s.source.labels + 1
      = c.labels + 1 + s.target.labels - s.source.labels := by
    omega
  show ((.numbered stem (s.counters c).labels, ⟨(s.counters c).registers, (s.counters c).labels + 1⟩) :
      Label × Counters)
    = (.numbered stem (s.counters c).labels,
      ⟨(s.counters c).registers, c.labels + 1 + s.target.labels - s.source.labels⟩)
  rw [← hnext]
  rfl

theorem lift_carries {α : Type} {x : Except Defect α} (h : Nameless x) :
    (s.lowering f).Carries id (liftM x) (liftM x : Lower α) := by
  refine .ofExcept ?_
  rw [Except.map_id]
  exact (h f).symm

theorem constant_carries (value : Int64) : (s.lowering f).Carries s.reg (constant value) (constant value) :=
  freshRegister_carries.bind fun target => (emit_carries (.mov target (.imm value) .always)).bind fun _ =>
    .pure rfl

theorem combine_carries (op : BinOp) (left right : VReg) :
    (s.lowering f).Carries s.reg (combine op left right) (combine op (s.reg left) (s.reg right)) := by
  refine freshRegister_carries.bind fun target => ?_
  cases Action.of op with
  | compare c =>
    refine (emit_carries (.mov target (.imm 0) .always)).bind fun _ => ?_
    refine (emit_carries (.cmp left (.reg right))).bind fun _ => ?_
    exact (emit_carries (.mov target (.imm 1) (.on c))).bind fun _ => .pure rfl
  | compute op => exact (emit_carries (.binary op target left (.reg right))).bind fun _ => .pure rfl

theorem applyUnary_carries (op : UnOp) (operand : VReg) :
    (s.lowering f).Carries s.reg (applyUnary op operand) (applyUnary op (s.reg operand)) := by
  cases op with
  | not =>
    refine freshRegister_carries.bind fun target => ?_
    exact (emit_carries (.not target operand)).bind fun _ => .pure rfl
  | negate =>
    refine (constant_carries 0).bind fun zero => freshRegister_carries.bind fun target => ?_
    exact (emit_carries (.binary .sub target zero (.reg operand))).bind fun _ => .pure rfl

namespace Env

variable {env : Env}

theorem registerOf_carries (h : env.symbols.Below s.source.registers) (x : String) :
    (s.lowering f).Carries s.reg (liftM (env.registerOf x)) (liftM (env.registerOf x) : Lower VReg) := by
  refine .ofExcept ?_
  cases hr : env.registerOf x with
  | error d =>
    have hnameless := nameless_registerOf env x f
    rw [hr] at hnameless
    exact hnameless.symm
  | ok r => exact congrArg Except.ok (Shift.reg_of_lt (registerOf_lt h hr)).symm

theorem readName_carries (h : env.symbols.Below s.source.registers) (x : String) :
    (s.lowering f).Carries s.reg (env.readName x) (env.readName x) := by
  refine (lift_carries (nameless_isGlobal env x)).bind fun isGlobal => ?_
  refine .ite (fun _ => ?_) fun _ => registerOf_carries h x
  refine freshRegister_carries.bind fun target => ?_
  exact (emit_carries (.load target (.global x))).bind fun _ => .pure rfl

theorem loadField_carries (base : VReg) (ty : Ty) (x : String) :
    (s.lowering f).Carries (Prod.map s.reg id) (env.loadField base ty x) (env.loadField (s.reg base) ty x) := by
  refine (lift_carries (nameless_field env x ty)).bind fun field => freshRegister_carries.bind fun target => ?_
  exact (emit_carries (.loadField target base x field.1)).bind fun _ => .pure rfl

theorem loadPath_carries (base : VReg) (ty : Ty) (path : List String) :
    (s.lowering f).Carries s.reg (env.loadPath base ty path) (env.loadPath (s.reg base) ty path) := by
  induction path generalizing base ty with
  | nil => exact .pure rfl
  | cons x path ih => exact (loadField_carries base ty x).bind fun field => ih field.1 field.2

theorem allocate_carries (struct? : Option String) :
    (s.lowering f).Carries s.reg (env.allocate struct?) (env.allocate struct?) := by
  cases struct? with
  | none => exact .fail _
  | some struct =>
    refine (lift_carries (env.symbols.nameless_fieldCount struct)).bind fun fields? => ?_
    cases fields? with
    | none => exact .fail _
    | some fields =>
      refine freshRegister_carries.bind fun target => ?_
      exact (emit_carries (.alloc target struct fields)).bind fun _ => .pure rfl

theorem callUser_carries (callee : String) (arguments : List VReg) (wanted : Bool) :
    (s.lowering f).Carries (Option.map s.reg) (callUser callee arguments wanted)
      (callUser callee (arguments.map s.reg) wanted) := by
  refine (emit_carries (.push arguments callee)).bind fun _ => (emit_carries (.call callee)).bind fun _ => ?_
  refine .ite (fun _ => ?_) fun _ => (emit_carries (.pop arguments callee)).bind fun _ => .pure rfl
  refine freshRegister_carries.bind fun target => (emit_carries (.result target)).bind fun _ => ?_
  exact (emit_carries (.pop arguments callee)).bind fun _ => .pure rfl

theorem callWith_carries (callee : String) {argument : Except Defect (Option String)} (hargument : Nameless argument)
    {all : Lower (List VReg)} {first : Lower VReg}
    (hall : (s.lowering f).Carries (List.map s.reg) all all) (hfirst : (s.lowering f).Carries s.reg first first)
    (wanted : Bool) :
    (s.lowering f).Carries (Option.map s.reg) (env.callWith callee argument all first wanted)
      (env.callWith callee argument all first wanted) := by
  refine (lift_carries (nameless_callee env callee)).bind fun goal => ?_
  rcases goal with _ | _ | _
  · exact hall.bind fun rs => callUser_carries callee rs wanted
  · exact (lift_carries hargument).bind fun struct? => (allocate_carries struct?).bind fun _ => .pure rfl
  · exact hfirst.bind fun pointer => (emit_carries (.free pointer)).bind fun _ => .pure rfl

mutual

/-- **Expressions** from other counters. -/
theorem expr_carries (h : env.symbols.Below s.source.registers) :
    ∀ e : Expr, (s.lowering f).Carries s.reg (env.expr e) (env.expr e)
  | .int value => by
    rw [expr]
    exact constant_carries value
  | .bool value => by
    rw [expr]
    exact constant_carries _
  | .nil => by
    rw [expr]
    exact constant_carries 0
  | .name x => by
    rw [expr]
    exact readName_carries h x
  | .paren inner => by
    rw [expr]
    exact expr_carries h inner
  | .chain head links => by
    rw [expr]
    exact (expr_carries h head).bind fun r => links_carries h r links
  | .unary op operand => by
    rw [expr]
    exact (expr_carries h operand).bind fun r => applyUnary_carries op r
  | .select base fields => by
    rw [expr]
    refine (lift_carries (nameless_typeOf env base)).bind fun ty => ?_
    exact (expr_carries h base).bind fun r => loadPath_carries r ty fields
  | .call callee arguments => by
    rw [expr]
    refine (callWith_carries callee (nameless_structArgument? arguments) (exprs_carries h arguments)
      (firstExpr_carries h arguments) true).bind fun result => ?_
    cases result with
    | none => exact .fail _
    | some r => exact .pure rfl
  | .missing index size => by
    rw [expr]
    exact .fail _

theorem links_carries (h : env.symbols.Below s.source.registers) (r : VReg) :
    ∀ links : List (BinOp × Expr), (s.lowering f).Carries s.reg (env.links r links) (env.links (s.reg r) links)
  | [] => by
    rw [links, links]
    exact .pure rfl
  | (op, operand) :: rest => by
    rw [links, links]
    refine (expr_carries h operand).bind fun right => ?_
    exact (combine_carries op r right).bind fun r => links_carries h r rest

theorem exprs_carries (h : env.symbols.Below s.source.registers) :
    ∀ es : List Expr, (s.lowering f).Carries (List.map s.reg) (env.exprs es) (env.exprs es)
  | [] => by
    rw [exprs]
    exact .pure rfl
  | e :: rest => by
    rw [exprs]
    exact (expr_carries h e).bind fun r => (exprs_carries h rest).bind fun rs => .pure rfl

theorem firstExpr_carries (h : env.symbols.Below s.source.registers) :
    ∀ es : List Expr, (s.lowering f).Carries s.reg (env.firstExpr es) (env.firstExpr es)
  | [] => by
    rw [firstExpr]
    exact .fail _
  | e :: _ => by
    rw [firstExpr]
    exact expr_carries h e

end

/-! ### Statements -/

theorem storePath_carries (value base : VReg) (ty : Ty) (x : String) (path : List String) :
    (s.lowering f).Carries id (env.storePath value base ty x path)
      (env.storePath (s.reg value) (s.reg base) ty x path) := by
  induction path generalizing base ty x with
  | nil =>
    refine (lift_carries (nameless_field env x ty)).bind fun field => ?_
    exact emit_carries (.storeField value base x field.1)
  | cons next path ih => exact (loadField_carries base ty x).bind fun field => ih field.1 field.2 next

theorem store_carries (h : env.symbols.Below s.source.registers) (place : Place) (value : VReg) :
    (s.lowering f).Carries id (env.store place value) (env.store place (s.reg value)) := by
  unfold store
  cases place.fields with
  | nil =>
    refine (lift_carries (nameless_isGlobal env place.base)).bind fun isGlobal => ?_
    refine .ite (fun _ => emit_carries _) fun _ => ?_
    exact (registerOf_carries h place.base).bind fun r => emit_carries (.mov r (.reg value) .always)
  | cons x path =>
    refine (lift_carries (nameless_var env place.base)).bind fun v => ?_
    refine (readName_carries h place.base).bind fun base => ?_
    exact storePath_carries value base v.ty x path

theorem readInto_carries (h : env.symbols.Below s.source.registers) (x : String) :
    (s.lowering f).Carries id (env.readInto x) (env.readInto x) := by
  refine (lift_carries (nameless_isGlobal env x)).bind fun isGlobal => .ite (fun _ => ?_) fun _ => ?_
  · refine freshRegister_carries.bind fun target => (emit_carries (.read target x)).bind fun _ => ?_
    exact emit_carries (.store target (.global x))
  · exact (registerOf_carries h x).bind fun r => emit_carries (.read r x)

theorem condition_carries (h : env.symbols.Below s.source.registers) (e : Expr) :
    (s.lowering f).Carries id (env.condition e) (env.condition e) :=
  (expr_carries h e).bind fun r => emit_carries (.cmp r (.imm 1))

mutual

/-- **Statements** from other counters. -/
theorem stmt_carries (h : env.symbols.Below s.source.registers) :
    ∀ st : Stmt, (s.lowering f).Carries id (env.stmt st) (env.stmt st)
  | .assign target value => by
    rw [stmt]
    exact (expr_carries h value).bind fun r => store_carries h target r
  | .print x newline => by
    rw [stmt]
    refine (readName_carries h x).bind fun source => ?_
    cases newline with
    | true => exact emit_carries (.println source)
    | false => exact emit_carries (.print source)
  | .read x => by
    rw [stmt]
    exact readInto_carries h x
  | .cond test thenBlock none => by
    rw [stmt]
    refine (condition_carries h test).bind fun _ => (freshLabel_carries "done").bind fun done => ?_
    refine (emit_carries (.branch (.on .ne) done)).bind fun _ => (block_carries h thenBlock).bind fun _ => ?_
    exact (emit_carries (.branch .always done)).bind fun _ => emit_carries (.label done)
  | .cond test thenBlock (some elseBlock) => by
    rw [stmt]
    refine (condition_carries h test).bind fun _ => (freshLabel_carries "else").bind fun otherwise => ?_
    refine (freshLabel_carries "done").bind fun done => ?_
    refine (emit_carries (.branch (.on .ne) otherwise)).bind fun _ => ?_
    refine (block_carries h thenBlock).bind fun _ => (emit_carries (.branch .always done)).bind fun _ => ?_
    refine (emit_carries (.label otherwise)).bind fun _ => ?_
    exact (block_carries h elseBlock).bind fun _ => emit_carries (.label done)
  | .loop test body => by
    rw [stmt]
    refine (freshLabel_carries "condLabel").bind fun entry => ?_
    refine (freshLabel_carries "loopBody").bind fun again => ?_
    refine (emit_carries (.branch .always entry)).bind fun _ => (emit_carries (.label again)).bind fun _ => ?_
    refine (block_carries h body).bind fun _ => (emit_carries (.label entry)).bind fun _ => ?_
    exact (condition_carries h test).bind fun _ => emit_carries (.branch (.on .eq) again)
  | .ret none => by
    rw [stmt]
    exact emit_carries (.ret none)
  | .ret (some value) => by
    rw [stmt]
    exact (expr_carries h value).bind fun r => emit_carries (.ret (some (.reg r)))
  | .call callee arguments => by
    rw [stmt]
    exact (callWith_carries callee (nameless_structArgument? arguments) (exprs_carries h arguments)
      (firstExpr_carries h arguments) false).bind fun _ => .pure rfl
  | .missing index size => by
    rw [stmt]
    exact .fail _

theorem block_carries (h : env.symbols.Below s.source.registers) :
    ∀ sts : List Stmt, (s.lowering f).Carries id (env.block sts) (env.block sts)
  | [] => by
    rw [block]
    exact .pure rfl
  | st :: rest => by
    rw [block]
    exact (stmt_carries h st).bind fun _ => block_carries h rest

end

/-! ### Programs -/

theorem forM_carries {m : String → Lower Unit} (names : List String)
    (h : ∀ x ∈ names, (s.lowering f).Carries id (m x) (m x)) :
    (s.lowering f).Carries id (names.forM m) (names.forM m) := by
  have hforM := Carries.forM (g := id) names h
  rw [List.map_id] at hforM
  exact hforM

theorem clearGlobals_carries (h : env.symbols.Below s.source.registers) (names : List String) :
    (s.lowering f).Carries id (env.clearGlobals names) (env.clearGlobals names) := by
  refine forM_carries names fun x _ => (registerOf_carries h x).bind fun r => ?_
  exact (emit_carries (.mov r (.imm 0) .always)).bind fun _ => emit_carries (.store r (.global x))

theorem clearLocals_carries (h : env.symbols.Below s.source.registers) (names : List String) :
    (s.lowering f).Carries id (env.clearLocals names) (env.clearLocals names) :=
  forM_carries names fun x _ => (registerOf_carries h x).bind fun r =>
    emit_carries (.mov r (.imm 0) .always)

theorem function_carries (h : env.symbols.Below s.source.registers) (locals : List String)
    (body : List Stmt) : (s.lowering f).Carries id (env.function locals body) (env.function locals body) :=
  (clearLocals_carries h locals).bind fun _ => block_carries h body

end Env

/-- A notice about what is written from the other counters. -/
def Notice.rename (ρ : Renaming) : Notice → Notice
  | .entered function statements => .entered function statements
  | .emitted i => .emitted (i.rename ρ)

end Lowering

/-- How lowering a program appears from the other counters. -/
def Shift.reporting (s : Shift) (f : VReg → VReg) : Journal.Translation Defect Counters Lowering.Notice :=
  { s.lowering f with entry := Lowering.Notice.rename s.moves }

namespace Lowering

theorem fragment_carries {s : Shift} {f : VReg → VReg} (label : String) {code : Lower Unit}
    (h : (s.lowering f).Carries id code code) :
    (s.reporting f).Carries (Linear.Fragment.rename s.moves) (fragment label code) (fragment label code) :=
  (h.collect (U := s.reporting f) rfl rfl rfl fun _ => rfl).bind fun _ => .pure rfl

end Lowering

namespace Program

open Lowering

variable {p : Program} {s : Shift} {f : VReg → VReg}

theorem lowerFunction_carries (h : p.symbols.Below s.source.registers) (decl : FunctionDecl) :
    (s.reporting f).Carries (Linear.Fragment.rename s.moves) (p.lowerFunction decl) (p.lowerFunction decl) := by
  rw [lowerFunction_eq]
  refine (Carries.record rfl).bind fun _ => ?_
  have henv : (p.env decl.scope).symbols.Below s.source.registers := h
  exact fragment_carries decl.name (Env.function_carries henv decl.locals (p.body decl))

/-- **Lowering from other counters** gives the same program with the registers and labels that are drawn
moved, or else the same report. -/
theorem lower_carries (h : p.symbols.Below s.source.registers) :
    (s.reporting f).Carries (List.map (Linear.Fragment.rename s.moves)) p.lower p.lower := by
  have henv : (p.env SymbolTable.global).symbols.Below s.source.registers := h
  refine (fragment_carries _ (Env.clearGlobals_carries henv p.globals)).bind fun globals => ?_
  have hfunctions := Carries.mapM (T := s.reporting f) (g := id) p.functions.toList
    fun decl _ => lowerFunction_carries h decl
  rw [List.map_id] at hfunctions
  exact hfunctions.bind fun functions => .pure rfl

end Program

end Spillway
