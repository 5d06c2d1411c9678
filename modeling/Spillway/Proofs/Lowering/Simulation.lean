import Spillway.Proofs.Lowering.Labels

/-!
# Statements run as they mean

The machine that runs the code of some statements does what the statements mean. Code is always part of
a body, whose labels are written differently, and stands in front of code that comes after it. A
statement that comes to its end takes the machine to that code; one that returns takes it to a `ret`
with the value returned.

Between statements only the registers of variables count: they hold the variables' values
(`Env.Matches`), and the code of a statement may use every register above them.

* `Env.Stores.run` — an assignment.
* `Env.Emits.simulates` — statements and blocks, by induction on the fuel of their run.
-/

namespace Spillway.Lowering.Env

open Linear (Instr State straight straight_next straight_append_of_eq Config Procedure Caller after)

variable {W : Type} {env : Env} {Γ : Statics} {rt : Runtime W} {calls : Calls W} {n : Nat}

/-! ### States that match a store -/

/-- Every variable of the store is in its register, and the world is that of the store. -/
structure Matches (env : Env) (σ : Store W) (s : State W) : Prop where
  locals : env.Agrees σ.locals s.regs
  outside : s.outside = σ.outside

/-- No two variables have the same register. -/
def Distinct (env : Env) : Prop := ∀ ⦃x y r⦄, env.Owns x r → env.Owns y r → x = y

/-- Registers above those of variables do not count. -/
theorem Matches.temporary {σ : Store W} {s s' : State W} {o : Outside W} (h : env.Matches σ s)
    (hbelow : env.Below n) (hsame : State.SameBelow n s s') (ho : s'.outside = o) :
    env.Matches { σ with outside := o } s' :=
  ⟨h.locals.keep hbelow hsame, ho⟩

/-- Giving a variable a value. -/
theorem Matches.set {σ : Store W} {s : State W} {x : String} {r : VReg} (h : env.Matches σ s)
    (hdistinct : env.Distinct) (hx : env.Owns x r) (v : Word) :
    env.Matches { σ with locals := Function.update σ.locals x v } (s.set r v) := by
  refine ⟨?_, h.outside⟩
  intro y r' hy
  show Function.update s.regs r v r' = Function.update σ.locals x v y
  by_cases hr : r' = r
  · subst hr
    obtain rfl := hdistinct hx hy
    rw [Function.update_self, Function.update_self]
  · have hne : y ≠ x := by
      rintro rfl
      obtain ⟨-, hr₁⟩ := hx
      obtain ⟨-, hr₂⟩ := hy
      rw [hr₁] at hr₂
      exact hr (Except.ok.inj hr₂).symm
    rw [Function.update_of_ne hr, Function.update_of_ne hne]
    exact h.locals hy

/-! ### Registers are drawn upward -/

theorem StoresPath.registers_le {value r : VReg} {ty : Ty} {x : String} {path : List String}
    {c c' : Counters} {code : List Instr} (h : env.StoresPath value r ty x path c code c') :
    c.registers ≤ c'.registers := by
  induction h with
  | last _ => exact Nat.le_refl _
  | step _ _ ih => exact Nat.le_of_succ_le ih

theorem Stores.registers_le {value : VReg} {place : Place} {c c' : Counters} {code : List Instr}
    (h : env.Stores value place c code c') : c.registers ≤ c'.registers := by
  cases h with
  | global _ | own _ _ => exact Nat.le_refl _
  | field _ hbase hpath => exact Nat.le_trans hbase.registers_le hpath.registers_le

theorem Emits.registers_le {part : Part} {c c' : Counters} {code : List Instr}
    (h : env.Emits part c code c') : c.registers ≤ c'.registers := by
  induction h with
  | assign hvalue hstore => exact Nat.le_trans hvalue.registers_le hstore.registers_le
  | print hvalue | give hvalue | free _ hvalue | call _ hvalue => exact hvalue.registers_le
  | readGlobal _ | alloc _ _ _ => exact Nat.le_succ _
  | readOwn _ _ | leave | nil => exact Nat.le_refl _
  | when htest _ ih => exact Nat.le_trans htest.registers_le ih
  | choose htest _ _ ih₁ ih₂ => exact Nat.le_trans htest.registers_le (Nat.le_trans ih₁ ih₂)
  | loop _ htest ih => exact Nat.le_trans ih htest.registers_le
  | cons _ _ ih₁ ih₂ => exact Nat.le_trans ih₁ ih₂

/-! ### Assignments -/

/-- The code of an expression, from a state that matches a store. -/
theorem Computes.run_expr {e : Expr} {r : VReg} {c c' : Counters} {code : List Instr}
    (h : env.Computes (.expr e) c code [r] c') (hdesc : env.Describes Γ) (hbelow : env.Below n)
    (hn : n ≤ c.registers) {σ : Store W} {s : State W} (hs : env.Matches σ s) {v : Word}
    {o : Outside W} (hv : Γ.eval rt calls σ.locals e σ.outside = some (v, o)) :
    ∃ s', straight rt calls code s = some s' ∧ s'.regs r = v ∧
      env.Matches { σ with outside := o } s' ∧ State.SameBelow c.registers s s' := by
  rw [← hs.outside] at hv
  obtain ⟨s', hrun, hout, hres, hsame⟩ :=
    h.run hdesc hbelow hn nofun s hs.locals (Phrase.values_expr.2 ⟨v, hv, rfl⟩)
  exact ⟨s', hrun, List.singleton_inj.1 hres, hs.temporary hbelow (hsame.mono hn) hout, hsame⟩

theorem StoresPath.run {value r : VReg} {ty : Ty} {x : String} {path : List String}
    {c c' : Counters} {code : List Instr} (calls : Calls W)
    (h : env.StoresPath value r ty x path c code c') (hdesc : env.Describes Γ)
    (hvalue : value.id < c.registers) (s : State W) {o : Outside W}
    (ho : Γ.writePath rt s.outside (s.regs value) (s.regs r) ty.structName? x path = some o) :
    ∃ s', straight rt calls code s = some s' ∧ s'.outside = o ∧
      State.SameBelow c.registers s s' := by
  induction h generalizing s with
  | @last r ty ty' x k c hfield =>
    obtain ⟨struct, hstruct, hΓ⟩ := hdesc.field hfield
    rw [Statics.writePath, hstruct] at ho
    simp only [Option.bind_eq_bind, Option.bind_some, hΓ] at ho
    refine ⟨{ s with outside := o }, straight_next ?_, rfl, fun _ _ => rfl⟩
    simp only [Instr.effect, ho, Option.map_some]
  | @step r ty ty' x y path k c c' code hfield _ ih =>
    obtain ⟨struct, hstruct, hΓ⟩ := hdesc.field hfield
    rw [Statics.writePath, hstruct] at ho
    simp only [Option.bind_eq_bind, Option.bind_some, hΓ] at ho
    obtain ⟨u, hload, hrest⟩ := Option.bind_eq_some_iff.1 ho
    have hinstr : (Instr.loadField ⟨c.registers⟩ r x k).effect rt s
        = some (s.set ⟨c.registers⟩ u, .next) := by
      simp only [Instr.effect, hload, Option.map_some]
    have hreg : (s.set ⟨c.registers⟩ u).regs ⟨c.registers⟩ = u := Function.update_self ..
    have hsame₁ := State.SameBelow.fresh c.registers s u
    obtain ⟨s', hrun, hout, hsame⟩ := ih (Nat.lt_succ_of_lt hvalue) (s.set ⟨c.registers⟩ u)
      (by rw [hreg, hsame₁ value hvalue]; exact hrest)
    refine ⟨s', (straight_next hinstr).trans hrun, hout, ?_⟩
    exact hsame₁.trans (hsame.mono (Nat.le_succ _))

/-- The code of an assignment gives the place its value. -/
theorem Stores.run {value : VReg} {place : Place} {c c' : Counters} {code : List Instr}
    (calls : Calls W) (h : env.Stores value place c code c') (hdesc : env.Describes Γ)
    (hdistinct : env.Distinct)
    (hbelow : env.Below n) (hn : n ≤ c.registers) (hvalue : value.id < c.registers)
    {σ σ' : Store W} {s : State W} (hs : env.Matches σ s)
    (hσ : Γ.write rt σ place (s.regs value) = some σ') :
    ∃ s', straight rt calls code s = some s' ∧ env.Matches σ' s' := by
  cases h with
  | @global x _ hglobal =>
    rw [Statics.write, Statics.writeName, hdesc.memory hglobal, ← hs.outside] at hσ
    simp only [Option.bind_eq_bind, Option.bind_some] at hσ
    obtain ⟨o, hstore, ho⟩ := Option.bind_eq_some_iff.1 hσ
    cases ho
    refine ⟨{ s with outside := o }, straight_next ?_, hs.locals, rfl⟩
    simp only [Instr.effect, Linear.Address.cell, hstore, Option.map_some]
  | @own x r _ hglobal hr =>
    rw [Statics.write, Statics.writeName, hdesc.own ⟨hglobal, hr⟩] at hσ
    cases hσ
    exact ⟨s.set r (s.regs value), straight_next rfl, hs.set hdistinct ⟨hglobal, hr⟩ _⟩
  | @field x y path v r _ c₁ _ code code' hvar hbase hpath =>
    rw [Statics.write] at hσ
    obtain ⟨base, hread, hrest⟩ := Option.bind_eq_some_iff.1 hσ
    obtain ⟨o, hwrite, ho⟩ := Option.bind_eq_some_iff.1 hrest
    cases ho
    have heval : Γ.eval rt calls σ.locals (.name x) σ.outside = some (base, σ.outside) := by
      rw [Statics.eval]
      exact Option.bind_eq_some_iff.2 ⟨base, hread, rfl⟩
    obtain ⟨s₁, hrun₁, hres₁, hs₁, hsame₁⟩ := hbase.run_expr hdesc hbelow hn hs heval
    rw [← hs₁.outside, hdesc.pointee hvar, ← hsame₁ value hvalue, ← hres₁] at hwrite
    obtain ⟨s₂, hrun₂, hout₂, hsame₂⟩ := hpath.run calls hdesc
      (Nat.lt_of_lt_of_le hvalue hbase.registers_le) s₁ hwrite
    refine ⟨s₂, (straight_append_of_eq hrun₁).trans hrun₂, ?_⟩
    exact hs₁.temporary hbelow (hsame₂.mono (Nat.le_trans hn hbase.registers_le)) hout₂

/-! ### Conditions -/

/-- The code of a condition compares its value with one. -/
theorem Computes.run_test {e : Expr} {r : VReg} {c c' : Counters} {code : List Instr}
    (h : env.Computes (.expr e) c code [r] c') (hdesc : env.Describes Γ) (hbelow : env.Below n)
    (hn : n ≤ c.registers) {σ σ' : Store W} {s : State W} (hs : env.Matches σ s) {holds : Bool}
    (ht : Γ.test rt calls σ e = some (holds, σ')) :
    ∃ s' v, straight rt calls (code ++ [.cmp r (.imm 1)]) s = some s' ∧ env.Matches σ' s' ∧
      s'.flags = some (v, 1) ∧ holds = decide (v = 1) := by
  obtain ⟨⟨v, o⟩, heval, hpair⟩ := Option.bind_eq_some_iff.1 ht
  cases hpair
  obtain ⟨s₁, hrun, hres, hs₁, -⟩ := h.run_expr hdesc hbelow hn hs heval
  refine ⟨{ s₁ with flags := some (v, 1) }, v, ?_, ⟨hs₁.locals, hs₁.outside⟩, rfl, rfl⟩
  have hcmp : (Instr.cmp r (.imm 1)).effect rt s₁
      = some ({ s₁ with flags := some (v, 1) }, .next) := by
    rw [Instr.effect, hres]
    rfl
  rw [straight_append_of_eq hrun, straight_next hcmp]
  rfl

theorem effect_branch_eq {s : State W} {v : Word} (h : s.flags = some (v, 1)) (l : Label) :
    (Instr.branch (.on .eq) l).effect rt s = some (s, if v = 1 then .jump l else .next) := by
  simp only [Instr.effect, Linear.Guard.passes, h, Option.map_some, Linear.Cond.holds,
    BitVec.toInt_inj, decide_eq_true_eq]

theorem effect_branch_ne {s : State W} {v : Word} (h : s.flags = some (v, 1)) (l : Label) :
    (Instr.branch (.on .ne) l).effect rt s = some (s, if v = 1 then .next else .jump l) := by
  simp only [Instr.effect, Linear.Guard.passes, h, Option.map_some, Linear.Cond.holds, ne_eq,
    BitVec.toInt_inj, decide_eq_true_eq, ite_not]

/-! ### Printing, reading and calls -/

/-- The code that prints a variable. -/
theorem Computes.run_print {x : String} {newline : Bool} {r : VReg} {c c' : Counters}
    {code : List Instr} (h : env.Computes (.expr (.name x)) c code [r] c')
    (hdesc : env.Describes Γ) (hbelow : env.Below n) (hn : n ≤ c.registers) {σ : Store W}
    {s : State W} (hs : env.Matches σ s) {v : Word} (hv : Γ.readName rt σ x = some v) :
    ∃ s', straight rt calls (code ++ [if newline then .println r else .print r]) s = some s' ∧
      env.Matches { σ with outside := σ.outside.print v newline } s' := by
  have heval : Γ.eval rt calls σ.locals (.name x) σ.outside = some (v, σ.outside) := by
    rw [Statics.eval]
    exact Option.bind_eq_some_iff.2 ⟨v, hv, rfl⟩
  obtain ⟨s₁, hrun, hres, hs₁, -⟩ := h.run_expr hdesc hbelow hn hs heval
  have hprint : (if newline then Instr.println r else Instr.print r).effect rt s₁
      = some (s₁.called (σ.outside.print v newline), .next) := by
    have hout : s₁.outside = σ.outside := hs₁.outside
    cases newline <;> simp [Instr.effect, hres, hout]
  refine ⟨s₁.called (σ.outside.print v newline), ?_, hs₁.locals, rfl⟩
  rw [straight_append_of_eq hrun, straight_next hprint]
  rfl

/-- The code that reads a global. -/
theorem run_readGlobal {x : String} (m : Nat) (hdesc : env.Describes Γ) (hbelow : env.Below n)
    (hn : n ≤ m) (hglobal : env.isGlobal x = .ok true) {σ σ' : Store W} {s : State W}
    (hs : env.Matches σ s) {v : Word} {o : Outside W} (hread : σ.outside.read rt = some (v, o))
    (hwrite : Γ.writeName rt { σ with outside := o } x v = some σ') :
    ∃ s', straight rt calls [.read ⟨m⟩ x, .store ⟨m⟩ (.global x)] s = some s' ∧
      env.Matches σ' s' := by
  rw [Statics.writeName, hdesc.memory hglobal] at hwrite
  simp only [Option.bind_eq_bind, Option.bind_some] at hwrite
  obtain ⟨o', hstore, ho'⟩ := Option.bind_eq_some_iff.1 hwrite
  cases ho'
  let s₁ := (s.called o).set ⟨m⟩ v
  have hfirst : (Instr.read ⟨m⟩ x).effect rt s = some (s₁, .next) := by
    simp only [Instr.effect, hs.outside, hread, Option.map_some, s₁]
  have hvalue : s₁.regs ⟨m⟩ = v := Function.update_self ..
  have hsecond : (Instr.store ⟨m⟩ (.global x)).effect rt s₁
      = some ({ s₁ with outside := o' }, .next) := by
    have hstore' : s₁.outside.store rt (.global x) v = some o' := hstore
    simp only [Instr.effect, Linear.Address.cell, hvalue, hstore', Option.map_some]
  have hsame : State.SameBelow m s s₁ := .fresh m (s.called o) v
  refine ⟨{ s₁ with outside := o' }, ?_, ?_⟩
  · rw [straight_next hfirst, straight_next hsecond]
    rfl
  · exact ⟨hs.locals.keep hbelow (hsame.mono hn), rfl⟩

/-- The code that reads a variable with a register of its own. -/
theorem run_readOwn {x : String} {r : VReg} (hdesc : env.Describes Γ) (hdistinct : env.Distinct)
    (hx : env.Owns x r) {σ σ' : Store W} {s : State W} (hs : env.Matches σ s) {v : Word}
    {o : Outside W} (hread : σ.outside.read rt = some (v, o))
    (hwrite : Γ.writeName rt { σ with outside := o } x v = some σ') :
    ∃ s', straight rt calls [.read r x] s = some s' ∧ env.Matches σ' s' := by
  rw [Statics.writeName, hdesc.own hx] at hwrite
  cases hwrite
  have hs₁ : env.Matches { σ with outside := o } (s.called o) := ⟨hs.locals, rfl⟩
  have heffect : (Instr.read r x).effect rt s = some ((s.called o).set r v, .next) := by
    simp only [Instr.effect, hs.outside, hread, Option.map_some]
  refine ⟨(s.called o).set r v, ?_, hs₁.set hdistinct hx v⟩
  rw [straight_next heffect]
  rfl

/-- The code that calls a function of the program for what it does. -/
theorem Computes.run_invoke {name : String} {arguments : List Expr} {rs : List VReg}
    {c c' : Counters} {code : List Instr} (h : env.Computes (.exprs arguments) c code rs c')
    (hdesc : env.Describes Γ) (hbelow : env.Below n) (hn : n ≤ c.registers) {σ : Store W}
    {s : State W} (hs : env.Matches σ s) {vs : List Word} {v : Option Word} {o o' : Outside W}
    (hvs : Γ.evalAll rt calls σ.locals arguments σ.outside = some (vs, o))
    (hcall : calls name vs o = some (v, o')) :
    ∃ s', straight rt calls (code ++ [.push rs name, .call name, .pop rs name]) s = some s' ∧
      env.Matches { σ with outside := o' } s' := by
  rw [← hs.outside] at hvs
  obtain ⟨s₁, hrun, rfl, rfl, hsame⟩ := h.run hdesc hbelow hn nofun s hs.locals hvs
  refine ⟨{ s₁.returned v o' with args := [] }, ?_, hs.locals.keep hbelow (hsame.mono hn), rfl⟩
  rw [straight_append_of_eq hrun, run_call hcall]
  rfl

/-- The code that gives a struct back. -/
theorem Computes.run_free {e : Expr} {r : VReg} {c c' : Counters} {code : List Instr}
    (h : env.Computes (.expr e) c code [r] c') (hdesc : env.Describes Γ) (hbelow : env.Below n)
    (hn : n ≤ c.registers) {σ : Store W} {s : State W} (hs : env.Matches σ s) {v : Word}
    {o o' : Outside W} (hv : Γ.eval rt calls σ.locals e σ.outside = some (v, o))
    (hfree : o.free rt v = some o') :
    ∃ s', straight rt calls (code ++ [.free r]) s = some s' ∧
      env.Matches { σ with outside := o' } s' := by
  obtain ⟨s₁, hrun, hres, hs₁, -⟩ := h.run_expr hdesc hbelow hn hs hv
  have hout : s₁.outside = o := hs₁.outside
  have heffect : (Instr.free r).effect rt s₁ = some (s₁.called o', .next) := by
    simp only [Instr.effect, hres, hout, hfree, Option.map_some]
  refine ⟨s₁.called o', ?_, hs₁.locals, rfl⟩
  rw [straight_append_of_eq hrun, straight_next heffect]
  rfl

/-- The code that allocates a struct and drops it. -/
theorem run_alloc {struct : String} {arguments : List Expr} {fields : Nat} (m : Nat)
    (hdesc : env.Describes Γ) (hbelow : env.Below n) (hn : n ≤ m)
    (harg : structArgument? arguments = .ok (some struct))
    (hfields : env.symbols.fieldCount struct = .ok (some fields)) {σ : Store W} {s : State W}
    (hs : env.Matches σ s) {v : Word} {o : Outside W}
    (halloc : Γ.allocate rt σ.outside arguments = some (v, o)) :
    ∃ s', straight rt calls [.alloc ⟨m⟩ struct fields] s = some s' ∧
      env.Matches { σ with outside := o } s' := by
  rw [Statics.allocate, allocated?_of_structArgument? harg] at halloc
  simp only [Option.bind_eq_bind, Option.bind_some, hdesc.words hfields] at halloc
  have heffect : (Instr.alloc ⟨m⟩ struct fields).effect rt s
      = some ((s.called o).set ⟨m⟩ v, .next) := by
    simp only [Instr.effect, hs.outside, halloc, Option.map_some]
  obtain ⟨s', hrun, hout, -, hsame⟩ := run_fresh calls heffect rfl
  exact ⟨s', hrun, hs.temporary hbelow (hsame.mono hn) hout⟩

/-! ### Statements on the machine -/

section Machine

variable {procedures : String → Option Procedure} {body : List Instr} {callers : List Caller}

/-- The machine gets from `m` to where a run ends with the given outcome and store: to the code `k` that
comes next, or to the end of the function with the value that it returns. -/
def Arrives (env : Env) (rt : Runtime W) (procedures : String → Option Procedure)
    (body : List Instr) (callers : List Caller) (m : Config W) (out : Outcome) (k : List Instr)
    (σ : Store W) : Prop :=
  ∃ rest s, m.Reaches rt procedures ⟨body, rest, s, callers⟩ ∧ env.Matches σ s ∧
    match out with
    | .fell => rest = k
    | .returned v => (⟨body, rest, s, callers⟩ : Config W).exit? rt = some (.returned v)

theorem Arrives.of_reaches {m m' : Config W} {out : Outcome} {k : List Instr} {σ : Store W}
    (h : m.Reaches rt procedures m') (h' : env.Arrives rt procedures body callers m' out k σ) :
    env.Arrives rt procedures body callers m out k σ := by
  obtain ⟨rest, s, hreach, hrest⟩ := h'
  exact ⟨rest, s, Config.Reaches.trans h hreach, hrest⟩

/-- Code without jumps arrives at what comes next. -/
theorem Arrives.of_straight (hcalls : Config.Realizes rt procedures calls) {code k : List Instr}
    {s : State W} {σ : Store W} (h : ∃ s', straight rt calls code s = some s' ∧ env.Matches σ s') :
    env.Arrives rt procedures body callers ⟨body, code ++ k, s, callers⟩ .fell k σ := by
  obtain ⟨s', hrun, hs'⟩ := h
  exact ⟨k, s', Config.reaches_of_straight hcalls hrun, hs', rfl⟩

/-- Where a run that came to its end arrived, another one may begin. -/
theorem Arrives.trans {m : Config W} {out : Outcome} {k k' : List Instr} {σ σ' : Store W}
    (h : env.Arrives rt procedures body callers m .fell k σ)
    (h' : ∀ s, env.Matches σ s →
      env.Arrives rt procedures body callers ⟨body, k, s, callers⟩ out k' σ') :
    env.Arrives rt procedures body callers m out k' σ' := by
  obtain ⟨rest, s, hreach, hs, rfl⟩ := h
  exact (h' s hs).of_reaches hreach

/-- The run of statements. -/
def Part.run (Γ : Statics) (rt : Runtime W) (calls : Calls W) (fuel : Nat) :
    Part → Store W → Option (Outcome × Store W)
  | .stmt st => Γ.exec rt calls fuel st
  | .block ss => Γ.execBlock rt calls fuel ss

/-- A loop, entered at its condition. What is known of its body is known up to the loop's own fuel. -/
theorem Computes.arrives_loop {test : Expr} {ss : List Stmt} {r : VReg} {c c' : Counters}
    {code again k : List Instr} {l m : Label} {fuel : Nat}
    (h : env.Computes (.expr test) c code [r] c') (hdesc : env.Describes Γ) (hbelow : env.Below n)
    (hn : n ≤ c.registers) (hcalls : Config.Realizes rt procedures calls)
    (hagain : after l body = some again)
    (hblock : ∀ fuel' < fuel, ∀ {σ σ' : Store W} {out : Outcome} {s : State W},
      env.Matches σ s → Γ.execBlock rt calls fuel' ss σ = some (out, σ') →
      env.Arrives rt procedures body callers ⟨body, again, s, callers⟩ out
        (.label m :: (code ++ (.cmp r (.imm 1) :: .branch (.on .eq) l :: k))) σ')
    {σ σ' : Store W} {out : Outcome} {s : State W} (hs : env.Matches σ s)
    (hrun : Γ.exec rt calls fuel (.loop test ss) σ = some (out, σ')) :
    env.Arrives rt procedures body callers
      ⟨body, code ++ (.cmp r (.imm 1) :: .branch (.on .eq) l :: k), s, callers⟩ out k σ' := by
  induction fuel generalizing σ s with
  | zero => cases hrun
  | succ fuel ih =>
    rw [Statics.exec] at hrun
    obtain ⟨⟨holds, σ₁⟩, htest, hrest⟩ := Option.bind_eq_some_iff.1 hrun
    obtain ⟨s₁, v, hstraight, hs₁, hflags, rfl⟩ := h.run_test hdesc hbelow hn hs htest
    rw [List.append_cons]
    refine Arrives.of_reaches (Config.reaches_of_straight hcalls hstraight) ?_
    have hbranch : (Instr.branch (.on .eq) l).effect rt s₁ = _ := effect_branch_eq hflags l
    by_cases hv : v = 1
    · rw [if_pos hv] at hbranch
      simp only [hv, decide_true, if_true] at hrest
      refine Arrives.of_reaches (Config.reaches_jump hbranch hagain) ?_
      obtain ⟨⟨out₁, σ₂⟩, hbody, hnext⟩ := Option.bind_eq_some_iff.1 hrest
      have harrive := hblock fuel (Nat.lt_succ_self _) hs₁ hbody
      cases out₁ with
      | fell =>
        refine harrive.trans fun s₂ hs₂ => ?_
        refine Arrives.of_reaches (Config.reaches_next rfl) ?_
        exact ih (fun fuel' hlt => hblock fuel' (Nat.lt_succ_of_lt hlt)) hs₂ hnext
      | returned u =>
        cases hnext
        exact harrive
    · rw [if_neg hv] at hbranch
      simp only [hv, decide_false] at hrest
      cases hrest
      exact ⟨k, s₁, Config.reaches_next hbranch, hs₁, rfl⟩

/-- A conditional: its code goes on if the condition holds, and jumps if not. -/
theorem Computes.arrives_cond {test : Expr} {r : VReg} {c c' : Counters} {code code' k : List Instr}
    {l : Label} (h : env.Computes (.expr test) c code [r] c') (hdesc : env.Describes Γ)
    (hbelow : env.Below n) (hn : n ≤ c.registers) (hcalls : Config.Realizes rt procedures calls)
    (hjump : after l body = some code') {σ σ₁ σ' : Store W} {out : Outcome} {s : State W}
    (hs : env.Matches σ s) {holds : Bool} (htest : Γ.test rt calls σ test = some (holds, σ₁))
    {rest : List Instr} (hthen : holds = true → ∀ s₁, env.Matches σ₁ s₁ →
      env.Arrives rt procedures body callers ⟨body, rest, s₁, callers⟩ out k σ')
    (helse : holds = false → ∀ s₁, env.Matches σ₁ s₁ →
      env.Arrives rt procedures body callers ⟨body, code', s₁, callers⟩ out k σ') :
    env.Arrives rt procedures body callers
      ⟨body, code ++ (.cmp r (.imm 1) :: .branch (.on .ne) l :: rest), s, callers⟩ out k σ' := by
  obtain ⟨s₁, v, hstraight, hs₁, hflags, rfl⟩ := h.run_test hdesc hbelow hn hs htest
  have hbranch : (Instr.branch (.on .ne) l).effect rt s₁ = _ := effect_branch_ne hflags l
  rw [List.append_cons]
  refine Arrives.of_reaches (Config.reaches_of_straight hcalls hstraight) ?_
  by_cases hv : v = 1
  · rw [if_pos hv] at hbranch
    exact (hthen (decide_eq_true hv) s₁ hs₁).of_reaches (Config.reaches_next hbranch)
  · rw [if_neg hv] at hbranch
    exact (helse (decide_eq_false hv) s₁ hs₁).of_reaches (Config.reaches_jump hbranch hjump)

/-- A branch goes on after the one label that it names. -/
theorem after_of_suffix {l : Label} {rest : List Instr} (hunique : Linear.UniqueLabels body)
    (h : .label l :: rest <:+ body) : after l body = some rest := by
  obtain ⟨first, rfl⟩ := h
  exact Linear.after_eq_of_unique hunique

/-- Code that stands behind other code in the body stands in the body. -/
theorem suffix_of_append {code rest : List Instr} (h : code ++ rest <:+ body) : rest <:+ body :=
  (List.suffix_append code rest).trans h

theorem suffix_of_cons {i : Instr} {rest : List Instr} (h : i :: rest <:+ body) : rest <:+ body :=
  (List.suffix_cons i rest).trans h

/-- **Statements run as they mean.** A run of statements that ends takes the machine, from any state
that matches the store, to where the run ends. -/
theorem Emits.simulates (hdesc : env.Describes Γ) (hdistinct : env.Distinct) (hbelow : env.Below n)
    (hcalls : Config.Realizes rt procedures calls) (hunique : Linear.UniqueLabels body) {fuel : Nat}
    {part : Part} {c c' : Counters} {code k : List Instr} (h : env.Emits part c code c')
    (hn : n ≤ c.registers) (hbody : code ++ k <:+ body) {σ σ' : Store W} {out : Outcome}
    {s : State W} (hs : env.Matches σ s) (hrun : part.run Γ rt calls fuel σ = some (out, σ')) :
    env.Arrives rt procedures body callers ⟨body, code ++ k, s, callers⟩ out k σ' := by
  induction fuel using Nat.strongRecOn generalizing part c c' code k σ σ' out s with
  | ind fuel ih =>
  cases fuel with
  | zero => cases part <;> cases hrun
  | succ fuel =>
  have hlt : fuel < fuel + 1 := Nat.lt_succ_self fuel
  cases h with
  | @assign place value r _ c₁ _ code code' hvalue hstore =>
    rw [Part.run, Statics.exec] at hrun
    obtain ⟨⟨v, o⟩, heval, hrest⟩ := Option.bind_eq_some_iff.1 hrun
    obtain ⟨σ₁, hwrite, hpair⟩ := Option.bind_eq_some_iff.1 hrest
    cases hpair
    obtain ⟨s₁, hrun₁, rfl, hs₁, -⟩ := hvalue.run_expr hdesc hbelow hn hs heval
    obtain ⟨s₂, hrun₂, hs₂⟩ := hstore.run calls hdesc hdistinct hbelow
      (Nat.le_trans hn hvalue.registers_le)
      (hvalue.results_lt hbelow hn nofun r (List.mem_singleton.2 rfl)) hs₁ hwrite
    exact .of_straight hcalls ⟨s₂, (straight_append_of_eq hrun₁).trans hrun₂, hs₂⟩
  | @print x newline r _ _ code hread =>
    rw [Part.run, Statics.exec] at hrun
    obtain ⟨v, hv, hpair⟩ := Option.bind_eq_some_iff.1 hrun
    cases hpair
    exact .of_straight hcalls (hread.run_print hdesc hbelow hn hs hv)
  | @readGlobal x _ hglobal =>
    rw [Part.run, Statics.exec] at hrun
    obtain ⟨⟨v, o⟩, hread, hrest⟩ := Option.bind_eq_some_iff.1 hrun
    obtain ⟨σ₁, hwrite, hpair⟩ := Option.bind_eq_some_iff.1 hrest
    cases hpair
    exact .of_straight hcalls (run_readGlobal _ hdesc hbelow hn hglobal hs hread hwrite)
  | @readOwn x r _ hglobal hr =>
    rw [Part.run, Statics.exec] at hrun
    obtain ⟨⟨v, o⟩, hread, hrest⟩ := Option.bind_eq_some_iff.1 hrun
    obtain ⟨σ₁, hwrite, hpair⟩ := Option.bind_eq_some_iff.1 hrest
    cases hpair
    exact .of_straight hcalls (run_readOwn hdesc hdistinct ⟨hglobal, hr⟩ hs hread hwrite)
  | @when test thenBlock r _ c₁ _ code code' htest hthen =>
    simp only [List.append_assoc, List.cons_append, List.nil_append] at hbody ⊢
    rw [Part.run, Statics.exec] at hrun
    obtain ⟨⟨holds, σ₁⟩, hσ₁, hbranch⟩ := Option.bind_eq_some_iff.1 hrun
    have hthenCode := suffix_of_cons (suffix_of_cons (suffix_of_append hbody))
    have hdone := after_of_suffix hunique (suffix_of_cons (suffix_of_append hthenCode))
    refine htest.arrives_cond hdesc hbelow hn hcalls hdone hs hσ₁ ?_ ?_
    · rintro rfl s₁ hs₁
      have harrive := ih fuel hlt hthen (Nat.le_trans hn htest.registers_le) hthenCode hs₁ hbranch
      cases out with
      | fell =>
        refine harrive.trans fun s₂ hs₂ => ?_
        exact ⟨k, s₂, Config.reaches_jump rfl hdone, hs₂, rfl⟩
      | returned v => exact harrive
    · rintro rfl s₁ hs₁
      -- an empty block ends where it starts
      cases fuel with
      | zero => cases hbranch
      | succ fuel =>
        cases hbranch
        exact ⟨k, s₁, Relation.ReflTransGen.refl, hs₁, rfl⟩
  | @choose test thenBlock elseBlock r _ c₁ c₂ _ code code' code'' htest hthen helse =>
    simp only [List.append_assoc, List.cons_append, List.nil_append] at hbody ⊢
    rw [Part.run, Statics.exec] at hrun
    obtain ⟨⟨holds, σ₁⟩, hσ₁, hbranch⟩ := Option.bind_eq_some_iff.1 hrun
    have hthenCode := suffix_of_cons (suffix_of_cons (suffix_of_append hbody))
    have helseLabel := suffix_of_cons (suffix_of_append hthenCode)
    have hdone := after_of_suffix hunique (suffix_of_append (suffix_of_cons helseLabel))
    have hn₁ : n ≤ c₁.registers := Nat.le_trans hn htest.registers_le
    refine htest.arrives_cond hdesc hbelow hn hcalls (after_of_suffix hunique helseLabel) hs hσ₁
      ?_ ?_
    · rintro rfl s₁ hs₁
      have harrive := ih fuel hlt hthen hn₁ hthenCode hs₁ hbranch
      cases out with
      | fell =>
        refine harrive.trans fun s₂ hs₂ => ?_
        exact ⟨k, s₂, Config.reaches_jump rfl hdone, hs₂, rfl⟩
      | returned v => exact harrive
    · rintro rfl s₁ hs₁
      have harrive := ih fuel hlt helse (Nat.le_trans hn₁ hthen.registers_le)
        (suffix_of_cons helseLabel) hs₁ hbranch
      cases out with
      | fell =>
        refine harrive.trans fun s₂ hs₂ => ?_
        exact ⟨k, s₂, Config.reaches_next rfl, hs₂, rfl⟩
      | returned v => exact harrive
  | @loop test ss r _ c₁ _ code code' hblock htest =>
    simp only [List.append_assoc, List.cons_append, List.nil_append] at hbody ⊢
    have hagain := after_of_suffix hunique (suffix_of_cons hbody)
    have hbodyCode := suffix_of_cons (suffix_of_cons hbody)
    have hentry := after_of_suffix hunique (suffix_of_append hbodyCode)
    refine Arrives.of_reaches (Config.reaches_jump rfl hentry) ?_
    refine htest.arrives_loop (m := .numbered "condLabel" c.labels) hdesc hbelow
      (Nat.le_trans hn hblock.registers_le) hcalls hagain ?_ hs hrun
    intro fuel' hlt' σ₁ σ₂ out₁ s₁ hs₁ hrun₁
    exact ih fuel' hlt' hblock hn hbodyCode hs₁ hrun₁
  | leave =>
    rw [Part.run, Statics.exec] at hrun
    cases hrun
    exact ⟨_, s, Relation.ReflTransGen.refl, hs, rfl⟩
  | @give value r _ _ code hvalue =>
    rw [Part.run, Statics.exec] at hrun
    obtain ⟨⟨v, o⟩, heval, hpair⟩ := Option.bind_eq_some_iff.1 hrun
    cases hpair
    obtain ⟨s₁, hrun₁, rfl, hs₁, -⟩ := hvalue.run_expr hdesc hbelow hn hs heval
    rw [List.append_assoc]
    exact ⟨_, s₁, Config.reaches_of_straight hcalls hrun₁, hs₁, rfl⟩
  | @alloc name struct arguments fields _ hnew harg hfields =>
    rw [Part.run, Statics.exec] at hrun
    obtain ⟨σ₁, hinvoke, hpair⟩ := Option.bind_eq_some_iff.1 hrun
    cases hpair
    obtain ⟨v, o, halloc, rfl⟩ := Statics.invoke_new (hdesc.callee hnew) hinvoke
    exact .of_straight hcalls (run_alloc _ hdesc hbelow hn harg hfields hs halloc)
  | @free name e rest r _ _ code hdelete hvalue =>
    rw [Part.run, Statics.exec] at hrun
    obtain ⟨σ₁, hinvoke, hpair⟩ := Option.bind_eq_some_iff.1 hrun
    cases hpair
    obtain ⟨v, o, o', heval, hfree, rfl⟩ := Statics.invoke_delete (hdesc.callee hdelete) hinvoke
    exact .of_straight hcalls (hvalue.run_free hdesc hbelow hn hs heval hfree)
  | @call name f arguments rs _ _ code huser hargs =>
    rw [Part.run, Statics.exec] at hrun
    obtain ⟨σ₁, hinvoke, hpair⟩ := Option.bind_eq_some_iff.1 hrun
    cases hpair
    obtain ⟨vs, o, v, o', hvs, hcall, rfl⟩ := Statics.invoke_user (hdesc.callee huser) hinvoke
    exact .of_straight hcalls (hargs.run_invoke hdesc hbelow hn hs hvs hcall)
  | nil =>
    rw [Part.run, Statics.execBlock] at hrun
    cases hrun
    exact ⟨k, s, Relation.ReflTransGen.refl, hs, rfl⟩
  | @cons st rest _ c₁ _ code code' hst hrest =>
    rw [Part.run, Statics.execBlock] at hrun
    obtain ⟨⟨out₁, σ₁⟩, hfirst, hnext⟩ := Option.bind_eq_some_iff.1 hrun
    rw [List.append_assoc] at hbody ⊢
    have harrive := ih fuel hlt hst hn hbody hs hfirst
    cases out₁ with
    | fell =>
      refine harrive.trans fun s₁ hs₁ => ?_
      exact ih fuel hlt hrest (Nat.le_trans hn hst.registers_le) (suffix_of_append hbody) hs₁ hnext
    | returned v =>
      cases hnext
      exact harrive

end Machine

end Spillway.Lowering.Env
