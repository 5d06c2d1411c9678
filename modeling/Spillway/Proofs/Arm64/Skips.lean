import Spillway.Arm64.Assembly
import Spillway.Proofs.Lowering.Function

/-!
# How many conditional moves are numbered

The generator numbers the conditional moves of a program, with 32 bits. Lowering writes a conditional move only for a
comparison, whose result goes to a register that is drawn for it. So a program that is lowered within 32 bits never
runs out of these numbers, and `generateCounted` does what `generate` does: `Program.generateCounted_run`.
-/

namespace Spillway

open Linear (Instr Fragment)

/-! ### Conditional moves in lowered code -/

namespace Linear

/-- Whether an instruction is a conditional move. -/
def Instr.conditional : Instr → Bool
  | .mov _ _ (.on _) => true
  | _ => false

/-- How many conditional moves there are in some code. -/
def conditionals (code : List Instr) : Nat := code.countP Instr.conditional

theorem conditionals_append (code code' : List Instr) :
    conditionals (code ++ code') = conditionals code + conditionals code' := List.countP_append

end Linear

namespace Lowering

open Linear (conditionals conditionals_append)

theorem conditionals_combination (op : BinOp) (target left right : VReg) :
    conditionals (combination op target left right) ≤ 1 := by
  unfold combination
  cases Action.of op with
  | compare c => exact Nat.le_refl 1
  | compute op => exact Nat.zero_le 1

namespace Env

variable {env : Env} {c c' : Counters} {code : List Instr}

theorem Follows.conditionals_le {r r' : VReg} {ty : Ty} {path : List String} (h : env.Follows r ty path c code r' c') :
    c.registers + conditionals code ≤ c'.registers := by
  induction h with
  | nil => exact Nat.le_refl _
  | cons _ _ ih => exact Nat.le_trans (Nat.add_le_add_right (Nat.le_succ _) _) ih

/-- **Values.** There are at most as many conditional moves as registers that are drawn. -/
theorem Computes.conditionals_le {ph : Phrase} {rs : List VReg} (h : env.Computes ph c code rs c') :
    c.registers + conditionals code ≤ c'.registers := by
  induction h with
  | int | bool | nil | global | alloc => exact Nat.le_succ _
  | own | linksNil | exprsNil => exact Nat.le_refl _
  | paren _ ih => exact ih
  | chain _ _ ih ih' | exprsCons _ _ ih ih' =>
    rw [conditionals_append]
    omega
  | not _ ih =>
    rw [conditionals_append]
    exact Nat.le_succ_of_le ih
  | negate _ ih =>
    rw [conditionals_append]
    exact Nat.le_succ_of_le (Nat.le_succ_of_le ih)
  | select _ _ hpath ih =>
    have hfields := hpath.conditionals_le
    rw [conditionals_append]
    omega
  | call _ _ ih =>
    rw [conditionals_append]
    exact Nat.le_succ_of_le ih
  | @linksCons op e rest r r₁ r' c c₁ c₂ code code' _ _ ih ih' =>
    have hone := conditionals_combination op ⟨c₁.registers⟩ r r₁
    have hrest : c₁.registers + 1 + conditionals code' ≤ c₂.registers := ih'
    rw [conditionals_append, conditionals_append]
    omega

theorem StoresPath.conditionals_le {value r : VReg} {ty : Ty} {x : String} {path : List String}
    (h : env.StoresPath value r ty x path c code c') : c.registers + conditionals code ≤ c'.registers := by
  induction h with
  | last _ => exact Nat.le_refl _
  | step _ _ ih => exact Nat.le_trans (Nat.add_le_add_right (Nat.le_succ _) _) ih

theorem Stores.conditionals_le {value : VReg} {place : Place} (h : env.Stores value place c code c') :
    c.registers + conditionals code ≤ c'.registers := by
  cases h with
  | global _ => exact Nat.le_refl _
  | own _ _ => exact Nat.le_refl _
  | field _ hread hpath =>
    have hbase := hread.conditionals_le
    have hfields := hpath.conditionals_le
    rw [conditionals_append]
    omega

/-- **Statements.** -/
theorem Emits.conditionals_le {part : Part} (h : env.Emits part c code c') :
    c.registers + conditionals code ≤ c'.registers := by
  induction h with
  | assign hvalue hstores =>
    have hvalue := hvalue.conditionals_le
    have hstores := hstores.conditionals_le
    rw [conditionals_append]
    omega
  | @print x newline r c c' code hread =>
    have hread := hread.conditionals_le
    rw [conditionals_append]
    cases newline <;> exact hread
  | readGlobal _ | alloc _ _ _ => exact Nat.le_succ _
  | readOwn _ _ | leave | nil => exact Nat.le_refl _
  | @when _ _ _ c c₁ c₂ code code' htest _ ih =>
    have htest := htest.conditionals_le
    have hthen : c₁.registers + conditionals code' ≤ c₂.registers := ih
    simp only [conditionals_append]
    show c.registers + (conditionals code + 0 + conditionals code' + 0) ≤ c₂.registers
    omega
  | @choose _ _ _ _ c c₁ c₂ c₃ code code' code'' htest _ _ ih ih' =>
    have htest := htest.conditionals_le
    have hthen : c₁.registers + conditionals code' ≤ c₂.registers := ih
    simp only [conditionals_append]
    show c.registers + (conditionals code + 0 + conditionals code' + 0 + conditionals code'' + 0) ≤ c₃.registers
    omega
  | @loop _ _ _ c c₁ c₂ code code' _ htest ih =>
    have htest := htest.conditionals_le
    have hbody : c.registers + conditionals code ≤ c₁.registers := ih
    simp only [conditionals_append]
    show c.registers + (0 + conditionals code + 0 + conditionals code' + 0) ≤ c₂.registers
    omega
  | give hvalue | free _ hvalue | call _ hvalue =>
    rw [conditionals_append]
    exact hvalue.conditionals_le
  | cons _ _ ih ih' =>
    rw [conditionals_append]
    omega

theorem Clears.conditionals_eq {names : List String} (h : env.Clears names code) : conditionals code = 0 := by
  induction h with
  | nil => rfl
  | cons hx _ ih =>
    obtain ⟨r, -, rfl⟩ := hx
    exact ih

end Env

end Lowering

namespace Program

variable {p : Program} {c c' : Counters}

theorem conditionals_le_of_chain {fs : List FunctionDecl} {frags : List Fragment}
    (h : Journal.Chain p.Translates c fs frags c') :
    c.registers + Linear.conditionals (frags.flatMap (·.body)) ≤ c'.registers := by
  induction h with
  | nil => exact Nat.le_refl _
  | cons hf _ ih =>
    obtain ⟨-, clear, code, hbody, hclears, hemits⟩ := hf
    have hcode := hemits.conditionals_le
    rw [List.flatMap_cons, Linear.conditionals_append, hbody, Linear.conditionals_append, hclears.conditionals_eq]
    omega

end Program

/-! ### Numbering in the generator -/

namespace Arm64

variable {ε ω α β : Type} {j k : Nat}

/-- However it ends, the computation numbers at most `k` conditional moves. -/
def Numbers (k : Nat) (m : Journal ε Generator ω α) : Prop := ∀ g, (m.run g).state.skips ≤ g.skips + k

namespace Numbers

theorem bind {m : Journal ε Generator ω α} {f : α → Journal ε Generator ω β} (hm : Numbers j m)
    (hf : ∀ a, Numbers k (f a)) : Numbers (j + k) (m >>= f) := by
  intro g
  have hfirst := hm g
  rw [Journal.bind_run]
  generalize m.run g = r at hfirst
  rcases r with ⟨e | a, g', w⟩
  · exact Nat.le_trans hfirst (by omega)
  · have hsecond := hf a g'
    rw [Journal.andThen_ok]
    dsimp only at hfirst ⊢
    omega

/-- Most steps number nothing. -/
theorem andThen {m : Journal ε Generator ω α} {f : α → Journal ε Generator ω β} (hm : Numbers 0 m)
    (hf : ∀ a, Numbers k (f a)) : Numbers k (m >>= f) := by
  have hboth := hm.bind hf
  rwa [Nat.zero_add] at hboth

theorem pure (a : α) : Numbers k (pure a : Journal ε Generator ω α) := fun _ => Nat.le_add_right ..

theorem fail (e : ε) : Numbers k (Journal.fail e : Journal ε Generator ω α) := fun _ => Nat.le_add_right ..

theorem get : Numbers k (get : Journal ε Generator ω Generator) := fun _ => Nat.le_add_right ..

theorem recordAll (ws : List ω) : Numbers k (Journal.recordAll ws : Journal ε Generator ω Unit) :=
  fun _ => Nat.le_add_right ..

theorem record (w : ω) : Numbers k (Journal.record w : Journal ε Generator ω Unit) := recordAll [w]

theorem ofExcept (x : Except ε α) : Numbers k (Journal.ofExcept x : Journal ε Generator ω α) :=
  fun _ => Nat.le_add_right ..

theorem modify {f : Generator → Generator} (h : ∀ g, (f g).skips = g.skips) :
    Numbers k (modify f : Journal ε Generator ω PUnit) := by
  intro g
  show (f g).skips ≤ g.skips + k
  rw [h g]
  exact Nat.le_add_right ..

theorem forM {γ : Type} {f : γ → Journal ε Generator ω PUnit} (xs : List γ) (hf : ∀ x, Numbers 0 (f x)) :
    Numbers k (xs.forM f) := by
  induction xs with
  | nil => exact pure _
  | cons x xs ih => exact (hf x).andThen fun _ => ih

end Numbers

theorem numbers_emit (i : Instr) : Numbers k (emit i) := .record _

theorem numbers_emitAll (is : List Instr) : Numbers k (emitAll is) := .recordAll _

theorem numbers_acquire : Numbers k acquire := by
  intro g
  rw [acquire, Journal.bind_run, Journal.get_run, Journal.andThen_ok]
  cases g.pool.acquire? with
  | none => exact Nat.le_add_right ..
  | some taken => exact Nat.le_add_right ..

theorem numbers_displacement (index : Nat) : Numbers k (displacement index) := .ofExcept _

namespace Context

variable (ctx : Context)

theorem numbers_load (r : VReg) : Numbers k (ctx.load r) := by
  refine .andThen (.ofExcept _) fun l => ?_
  cases l with
  | parameter i => exact .pure _
  | slot n => exact .andThen numbers_acquire fun d => .andThen (numbers_emitAll _) fun _ => .pure _

theorem numbers_loadInto (r : VReg) (d : Reg) : Numbers k (ctx.loadInto r d) := by
  refine .andThen (.ofExcept _) fun l => ?_
  cases l with
  | parameter i =>
    refine .andThen .get fun g => ?_
    split
    · exact numbers_emit _
    · split
      · exact numbers_emit _
      · exact .pure _
  | slot n => exact numbers_emitAll _

theorem numbers_loadOperand (operand : Linear.Operand) : Numbers k (ctx.loadOperand operand) := by
  cases operand with
  | reg r => exact ctx.numbers_load r
  | imm value => exact .andThen numbers_acquire fun d => .andThen (numbers_emitAll _) fun _ => .pure _

theorem numbers_destination (r : VReg) : Numbers k (ctx.destination r) := by
  unfold destination
  split
  · refine .andThen .get fun g => ?_
    split
    · exact numbers_acquire
    · exact .pure _
  · exact numbers_acquire

theorem numbers_store (r : VReg) (s : Reg) : Numbers k (ctx.store r s) := by
  refine .andThen (.ofExcept _) fun l => ?_
  cases l with
  | slot n => exact numbers_emitAll _
  | parameter i =>
    refine .andThen .get fun g => ?_
    split
    · exact numbers_emit _
    · split
      · exact numbers_emit _
      · exact .pure _

theorem numbers_saveParameters (words : Nat) : Numbers k (ctx.saveParameters words) := by
  unfold saveParameters
  dsimp only
  split
  · exact .pure _
  · exact .andThen (numbers_emit _) fun _ => .andThen (numbers_emitAll _) fun _ =>
      .andThen (.modify fun _ => rfl) fun _ => .pure _

theorem numbers_restoreParameters (area : Nat) : Numbers k (ctx.restoreParameters area) := by
  unfold restoreParameters
  split
  · exact .andThen (numbers_emitAll _) fun _ => .andThen (numbers_emit _) fun _ => .modify fun _ => rfl
  · exact .pure _

theorem numbers_memory (address : Linear.Address) : Numbers k (ctx.memory address) := by
  cases address with
  | indexed base offset =>
    exact .andThen (ctx.numbers_load _) fun _ => .andThen (ctx.numbers_load _) fun _ => .pure _
  | displaced base offset => exact .andThen (ctx.numbers_load _) fun _ => .pure _
  | direct base => exact .andThen (ctx.numbers_load _) fun _ => .pure _
  | global name => exact .andThen numbers_acquire fun _ => .andThen (numbers_emitAll _) fun _ => .pure _

theorem numbers_formatAddress (f : Format) (d : Reg) : Numbers k (formatAddress f d) :=
  .andThen (.modify fun _ => rfl) fun _ => numbers_emitAll _

theorem numbers_callRoutine (routine : String) {arguments results : Emit Unit} (harguments : Numbers 0 arguments)
    (hresults : Numbers 0 results) : Numbers k (ctx.callRoutine routine arguments results) :=
  .andThen (ctx.numbers_saveParameters _) fun _ => .andThen harguments fun _ =>
    .andThen (numbers_emit _) fun _ => .andThen hresults fun _ => ctx.numbers_restoreParameters _

theorem numbers_print (source : VReg) (f : Format) : Numbers k (ctx.print source f) :=
  ctx.numbers_callRoutine _ (.andThen (ctx.numbers_loadInto _ _) fun _ => numbers_formatAddress _ _) (.pure _)

theorem numbers_homeAddress (r : VReg) (d : Reg) : Numbers k (ctx.homeAddress r d) := by
  refine .andThen (.ofExcept _) fun l => ?_
  cases l <;> exact numbers_emit _

theorem numbers_push (arguments : List VReg) (callee : String) : Numbers k (ctx.push arguments callee) := by
  unfold push
  split
  · exact .fail _
  · exact .andThen (ctx.numbers_saveParameters _) fun _ => .forM _ fun a =>
      .andThen (ctx.numbers_loadInto _ _) fun _ => .modify fun _ => rfl

theorem numbers_pop (count : Nat) : Numbers k (ctx.pop count) :=
  .andThen (ctx.numbers_restoreParameters _) fun _ => .modify fun _ => rfl

theorem numbers_compare (left : VReg) (right : Linear.Operand) : Numbers k (ctx.compare left right) := by
  refine .andThen (ctx.numbers_load left) fun a => ?_
  cases right with
  | imm value =>
    dsimp only
    split
    · exact numbers_emit _
    · exact .andThen (ctx.numbers_loadOperand _) fun _ => numbers_emit _
  | reg r => exact .andThen (ctx.numbers_loadOperand _) fun _ => numbers_emit _

theorem numbers_leave (value : Option Linear.Operand) : Numbers k (ctx.leave value) := by
  cases value with
  | none => exact .andThen (.pure _) fun _ => numbers_emit _
  | some operand =>
    cases operand with
    | reg r => exact .andThen (ctx.numbers_loadInto _ _) fun _ => numbers_emit _
    | imm value => exact .andThen (numbers_emitAll _) fun _ => numbers_emit _

/-- A conditional move draws one number. -/
theorem numbers_moveOn (target : VReg) (source : Linear.Operand) (c : Linear.Cond) :
    Numbers 1 (ctx.move target source (.on c)) := by
  have hskip : Numbers 1 nextSkip := fun _ => Nat.le_refl _
  exact hskip.bind (k := 0) fun _ => .andThen (numbers_emit _) fun _ =>
    .andThen (ctx.numbers_loadOperand _) fun _ => .andThen (ctx.numbers_store _ _) fun _ => .record _

theorem numbers_move (target : VReg) (source : Linear.Operand) : Numbers k (ctx.move target source .always) := by
  refine .andThen (ctx.numbers_destination _) fun d => ?_
  cases source with
  | reg r =>
    exact .andThen (ctx.numbers_load _) fun _ => .andThen (numbers_emit _) fun _ => ctx.numbers_store _ _
  | imm value => exact .andThen (numbers_emitAll _) fun _ => ctx.numbers_store _ _

/-- **One instruction** draws a number only if it is a conditional move. -/
theorem numbers_instr (i : Linear.Instr) : Numbers (if i.conditional then 1 else 0) (ctx.instr i) := by
  cases i with
  | binary op target left right =>
    exact .andThen (ctx.numbers_load _) fun _ => .andThen (ctx.numbers_loadOperand _) fun _ =>
      .andThen (ctx.numbers_destination _) fun _ => .andThen (numbers_emit _) fun _ => ctx.numbers_store _ _
  | not target operand =>
    exact .andThen (ctx.numbers_load _) fun _ => .andThen (ctx.numbers_destination _) fun _ =>
      .andThen (numbers_emit _) fun _ => ctx.numbers_store _ _
  | cmp left right => exact ctx.numbers_compare left right
  | branch guard l => cases guard <;> exact numbers_emit _
  | label l => exact .record _
  | load target address =>
    exact .andThen (ctx.numbers_memory _) fun _ => .andThen (ctx.numbers_destination _) fun _ =>
      .andThen (numbers_emit _) fun _ => ctx.numbers_store _ _
  | store value address =>
    exact .andThen (ctx.numbers_load _) fun _ => .andThen (ctx.numbers_memory _) fun _ => numbers_emit _
  | loadField target base field index =>
    exact .andThen (ctx.numbers_load _) fun _ => .andThen (ctx.numbers_destination _) fun _ =>
      .andThen (numbers_displacement _) fun _ => .andThen (numbers_emit _) fun _ => ctx.numbers_store _ _
  | storeField value base field index =>
    exact .andThen (ctx.numbers_load _) fun _ => .andThen (ctx.numbers_load _) fun _ =>
      .andThen (numbers_displacement _) fun _ => numbers_emit _
  | alloc target struct fields =>
    exact ctx.numbers_callRoutine _ (.andThen (numbers_displacement _) fun _ => numbers_emitAll _)
      (ctx.numbers_store _ _)
  | free pointer => exact ctx.numbers_callRoutine _ (ctx.numbers_loadInto _ _) (.pure _)
  | push arguments callee => exact ctx.numbers_push arguments callee
  | pop arguments callee => exact ctx.numbers_pop _
  | mov target source guard =>
    cases guard with
    | always => exact ctx.numbers_move target source
    | on c => exact ctx.numbers_moveOn target source c
  | result target => exact ctx.numbers_store _ _
  | ret value => exact ctx.numbers_leave value
  | call callee => exact numbers_emit _
  | print source => exact ctx.numbers_print _ _
  | println source => exact ctx.numbers_print _ _
  | read target name =>
    exact ctx.numbers_callRoutine _
      (.andThen (ctx.numbers_homeAddress _ _) fun _ => numbers_formatAddress _ _) (.pure _)

theorem numbers_body (instrs : List Linear.Instr) : Numbers (Linear.conditionals instrs) (ctx.body instrs) := by
  induction instrs with
  | nil => exact .pure _
  | cons i instrs ih =>
    have hone : Numbers (if i.conditional then 1 else 0) (ctx.instr i >>= fun _ => releaseScratch) :=
      (ctx.numbers_instr i).bind (k := 0) fun _ => .modify fun _ => rfl
    rw [Linear.conditionals, List.countP_cons, Nat.add_comm]
    exact hone.bind fun _ => ih

theorem numbers_block (instrs : List Linear.Instr) (returns : Ty) :
    Numbers (Linear.conditionals instrs) (ctx.block instrs returns) :=
  .andThen (.recordAll _) fun _ => (ctx.numbers_body instrs).bind (k := 0) fun _ => .recordAll _

end Context

theorem numbers_layout (fragment : Fragment) (parameters : List VReg) : Numbers k (layout fragment parameters) := by
  unfold layout
  dsimp only
  split
  · exact .andThen (.recordAll _) fun _ => .andThen (.ofExcept _) fun _ => .andThen (.record _) fun _ => .pure _
  · exact .andThen (.ofExcept _) fun _ => .andThen (.record _) fun _ => .pure _

theorem numbers_generateFunction (symbols : SymbolTable) (fragment : Fragment) :
    Numbers (Linear.conditionals fragment.body) (generateFunction symbols fragment) := by
  refine .andThen (.ofExcept _) fun signature => ?_
  cases signature with
  | none => exact .fail _
  | some signature =>
    exact .andThen (.ofExcept _) fun parameters => .andThen (numbers_layout _ _) fun frame =>
      .andThen (.modify fun _ => rfl) fun _ g =>
        Context.numbers_block ⟨fragment.label, frame⟩ fragment.body signature.returns g

theorem numbers_functions (symbols : SymbolTable) (functions : List Fragment) :
    Numbers (Linear.conditionals (functions.flatMap (·.body))) (functions.mapM (generateFunction symbols)) := by
  induction functions with
  | nil => exact .pure _
  | cons fragment functions ih =>
    rw [List.mapM_cons, List.flatMap_cons, Linear.conditionals_append]
    exact (numbers_generateFunction symbols fragment).bind fun _ => ih.bind (k := 0) fun _ => .pure _

/-- **Programs.** At most the conditional moves of the functions are numbered, from zero. -/
theorem generate_skips_le (globals : Fragment) (functions : List Fragment) (symbols : SymbolTable) (g : Generator) :
    ((generate (globals :: functions) symbols).run g).state.skips
      ≤ Linear.conditionals (functions.flatMap (·.body)) := by
  have hrest : Numbers (Linear.conditionals (functions.flatMap (·.body))) (do
      if globals.isGlobals then
        let blocks ← functions.mapM (generateFunction symbols)
        return header globals ++ blocks.flatten ++ (← MonadState.get).formats.lines
      else
        Journal.fail (.fault (.defect (.missingGlobals globals.label))) : Generate (List Line)) := by
    split
    · exact (numbers_functions symbols functions).bind (k := 0) fun _ => .andThen .get fun _ => .pure _
    · exact .fail _
  have hle := hrest {}
  rw [Nat.zero_add] at hle
  exact hle

end Arm64

/-- **Enough numbers.** Code for a program that is lowered with registers of 32 bits is generated as if
conditional moves were numbered without end. -/
theorem Program.generateCounted_run {p : Program} {c c' : Counters} {fragments : List Fragment}
    {w : List Lowering.Notice} (h : p.lower.run c = ⟨.ok fragments, c', w⟩) (hc : c'.registers < Counters.capacity)
    (symbols : SymbolTable) (g : Arm64.Generator) :
    (Arm64.generateCounted fragments symbols).run g = (Arm64.generate fragments symbols).run g := by
  obtain ⟨globals, functions, rfl, -, -, hchain⟩ := translates_of_lower h
  have hskips := Arm64.generate_skips_le globals functions symbols g
  have hmoves := conditionals_le_of_chain hchain
  exact if_pos (Nat.lt_of_le_of_lt (by omega) hc)

end Spillway
