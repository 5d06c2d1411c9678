import Mathlib.Data.List.Basic
import Spillway.Arm64.Assembly
import Spillway.Lowering.Program
import Spillway.Proofs.Distinct
import Spillway.Proofs.Linear.Renaming
import Spillway.Proofs.Program.Built
import Spillway.Proofs.Translation

/-!
# Code generation under other names

Where a virtual register lives depends on which registers are the same and on the order in which they
are first written, never on their names. So a program whose registers have other names, no two of them
the same, has the same assembly. The names of labels do show in the assembly, where they are written out.

* `Frame.location?_rename` and `Frame.spill_rename` — frames do not depend on the names of registers.
* `Context.instr_carries` — neither does the code of an instruction.
* `generate_carries` — nor the assembly of a program, apart from the names of its labels.
* `generate_ignores_register_names` — so the names of the registers alone make no difference.
-/

namespace Spillway

namespace Arm64

open Journal (Translation)
open Journal.Translation (Carries)

/-! ### Assembly with other labels -/

section Relabel

variable (f : Label → Label)

/-- A symbol of assembly with other labels. -/
def Symbol.relabel : Symbol → Symbol
  | .block l => .block (f l)
  | s => s

/-- An instruction of assembly with other labels. -/
def Instr.relabel : Instr → Instr
  | .branch target => .branch (target.relabel f)
  | .branchOn c target => .branchOn c (target.relabel f)
  | .call target => .call (target.relabel f)
  | .page d symbol => .page d (symbol.relabel f)
  | .addPageOffset d a symbol => .addPageOffset d a (symbol.relabel f)
  | i => i

/-- A line of assembly with other labels. -/
def Line.relabel : Line → Line
  | .instr i => .instr (i.relabel f)
  | .label s => .label (s.relabel f)
  | .directive (.size symbol bytes) => .directive (.size (symbol.relabel f) bytes)
  | .directive d => .directive d

end Relabel

/-- Instructions that name no label. -/
def Unlabelled (is : List Instr) : Prop := ∀ f, is.map (Instr.relabel f) = is

theorem Unlabelled.lines {is : List Instr} (h : Unlabelled is) (f : Label → Label) :
    (is.map Line.instr).map (Line.relabel f) = is.map Line.instr := by
  rw [List.map_map]
  show is.map (Line.instr ∘ Instr.relabel f) = _
  rw [← List.map_map, h]

theorem unlabelled_immediate (d : Reg) (value : Int64) : Unlabelled (immediate d value) := by
  intro f
  unfold immediate
  by_cases h : isShort value = true
  · simp [h, Instr.relabel]
  · simp [h, Instr.relabel, Function.comp_def]

theorem unlabelled_slotAccess {access : Mem → Instr} (h : ∀ f m, (access m).relabel f = access m)
    (slot : Nat) : Unlabelled (slotAccess access slot) := by
  intro f
  unfold slotAccess
  by_cases hnear : minDirectOffset ≤ slotOffset slot
  · simp [hnear, h]
  · simp only [if_neg hnear, List.map_cons, List.map_nil, h]
    rfl

/-! ### Frames -/

namespace Frame

variable {f : VReg → VReg}

/-- The frame of the same function with its registers under other names. -/
def rename (f : VReg → VReg) (frame : Frame) : Frame := ⟨frame.parameters.map f, frame.slots.map f⟩

@[simp] theorem bytes_rename (frame : Frame) : (frame.rename f).bytes = frame.bytes := by
  simp [bytes, rename]

@[simp] theorem size_rename (frame : Frame) : (frame.rename f).size = frame.size := by
  simp [size]

@[simp] theorem parameterRegs_rename (frame : Frame) :
    (frame.rename f).parameterRegs = frame.parameterRegs := by
  simp [parameterRegs, rename]

theorem parameter?_rename (hf : Function.Injective f) (frame : Frame) (r : VReg) :
    (frame.rename f).parameter? (f r) = frame.parameter? r := by
  show ((Argument.all.zip (frame.parameters.map f)).reverse.find? (·.2 = f r)).map (·.1) = _
  rw [List.zip_map_right, ← List.map_reverse, List.find?_map, Option.map_map]
  have hsame : ((fun p : Argument × VReg => decide (p.2 = f r)) ∘ Prod.map id f)
      = fun p => decide (p.2 = r) := by
    funext p
    simp [hf.eq_iff]
  rw [hsame]
  rfl

/-- **Homes.** A register lives under its new name where it lived under the old one. -/
theorem location?_rename (hf : Function.Injective f) (frame : Frame) (r : VReg) :
    (frame.rename f).location? (f r) = frame.location? r := by
  have hslots : (frame.rename f).slots.idxOf? (f r) = frame.slots.idxOf? r := idxOf?_map hf ..
  unfold location?
  rw [parameter?_rename hf, hslots]

/-- **Slots.** They are given out in the same order. -/
theorem spill_rename {ρ : Renaming} (hρ : Function.Injective ρ.reg) (body : List Linear.Instr)
    (parameters : List VReg) :
    spill (body.map (Linear.Instr.rename ρ)) (parameters.map ρ.reg) = (spill body parameters).rename ρ.reg := by
  have hslots : (spill (body.map (Linear.Instr.rename ρ)) (parameters.map ρ.reg)).slots
      = ((spill body parameters).rename ρ.reg).slots := by
    show _ = (spill body parameters).slots.map ρ.reg
    rw [slots_spill, slots_spill, Linear.Fragment.targets_rename, List.filter_map, ← eraseDups_map hρ]
    congr 3
    funext r
    simp only [Function.comp_apply, List.mem_map_of_injective hρ]
  exact congrArg (Frame.mk _) hslots

end Frame

/-! ### Writing assembly -/

theorem lift_carries {α β ω : Type} {f : VReg → VReg} {T : Translation Failure Generator ω} {g : α → β}
    (hT : T.error = Failure.rename f) {x : Except Defect α} {x' : Except Defect β}
    (h : x' = (x.map g).mapError (Defect.rename f)) :
    T.Carries g (liftM x) (liftM x' : Journal Failure Generator ω β) := by
  refine .ofExcept ?_
  rw [h, hT]
  cases x <;> rfl

/-- How writing assembly appears under other names. -/
def emission (ρ : Renaming) : Translation Failure Generator Line where
  error := Failure.rename ρ.reg
  state := id
  entry := Line.relabel ρ.label
  covers _ := True

section Emission

variable {ρ : Renaming}

theorem emit_carries (i : Instr) : (emission ρ).Carries id (emit i) (emit (i.relabel ρ.label)) :=
  .record rfl

theorem emitAll_carries {is : List Instr} (h : Unlabelled is) :
    (emission ρ).Carries id (emitAll is) (emitAll is) := .recordAll (h.lines _).symm

theorem emitLabel_carries (s : Symbol) :
    (emission ρ).Carries id (emitLabel s) (emitLabel (s.relabel ρ.label)) := .record rfl

/-- A change of the generator does not depend on names. -/
theorem modify_carries (h : Generator → Generator) : (emission ρ).Carries id (modify h) (modify h) :=
  .modify fun _ _ => ⟨trivial, rfl⟩

@[simp] theorem emission_state (g : Generator) : (emission ρ).state g = g := rfl

theorem acquire_carries : (emission ρ).Carries id acquire acquire := by
  refine Carries.get.bind fun g => ?_
  rw [emission_state]
  cases g.pool.acquire? with
  | none => exact .fail _
  | some taken => exact (Carries.set trivial).bind fun _ => .pure rfl

theorem displacement_carries (index : Nat) :
    (emission ρ).Carries id (displacement index) (displacement index) := by
  refine .ofExcept ?_
  cases Word.displacement index <;> rfl

end Emission

namespace Context

variable {ρ : Renaming}

/-- The same function with its registers under other names. -/
def rename (f : VReg → VReg) (ctx : Context) : Context := ⟨ctx.name, ctx.frame.rename f⟩

@[simp] theorem frame_rename (f : VReg → VReg) (ctx : Context) :
    (ctx.rename f).frame = ctx.frame.rename f := rfl

theorem locate_carries (hρ : Function.Injective ρ.reg) (ctx : Context) (r : VReg) :
    (emission ρ).Carries id (liftM (ctx.frame.locate r))
      (liftM ((ctx.rename ρ.reg).frame.locate (ρ.reg r)) : Emit Location) := by
  refine lift_carries rfl ?_
  unfold Frame.locate
  rw [frame_rename, Frame.location?_rename hρ]
  cases ctx.frame.location? r <;> rfl

theorem load_carries (hρ : Function.Injective ρ.reg) (ctx : Context) (r : VReg) :
    (emission ρ).Carries id (ctx.load r) ((ctx.rename ρ.reg).load (ρ.reg r)) := by
  refine (locate_carries hρ ctx r).bind fun l => ?_
  cases l with
  | parameter i => exact .pure rfl
  | slot k =>
    refine acquire_carries.bind fun d => ?_
    exact (emitAll_carries (unlabelled_slotAccess (fun _ _ => rfl) k)).bind fun _ => .pure rfl

theorem loadInto_carries (hρ : Function.Injective ρ.reg) (ctx : Context) (r : VReg) (d : Reg) :
    (emission ρ).Carries id (ctx.loadInto r d) ((ctx.rename ρ.reg).loadInto (ρ.reg r) d) := by
  refine (locate_carries hρ ctx r).bind fun l => ?_
  cases l with
  | parameter i =>
    refine Carries.get.bind fun g => ?_
    exact .ite (fun _ => emit_carries _) fun _ => .ite (fun _ => emit_carries _) fun _ => .pure rfl
  | slot k => exact emitAll_carries (unlabelled_slotAccess (fun _ _ => rfl) k)

theorem loadOperand_carries (hρ : Function.Injective ρ.reg) (ctx : Context) (o : Linear.Operand) :
    (emission ρ).Carries id (ctx.loadOperand o) ((ctx.rename ρ.reg).loadOperand (o.rename ρ)) := by
  cases o with
  | reg r => exact load_carries hρ ctx r
  | imm value =>
    refine acquire_carries.bind fun d => ?_
    exact (emitAll_carries (unlabelled_immediate d value)).bind fun _ => .pure rfl

theorem destination_carries (hρ : Function.Injective ρ.reg) (ctx : Context) (r : VReg) :
    (emission ρ).Carries id (ctx.destination r) ((ctx.rename ρ.reg).destination (ρ.reg r)) := by
  unfold destination
  rw [frame_rename, Frame.location?_rename hρ]
  rcases ctx.frame.location? r with _ | _ | i
  · exact acquire_carries
  · exact acquire_carries
  · refine Carries.get.bind fun g => ?_
    exact .ite (fun _ => acquire_carries) fun _ => .pure rfl

theorem store_carries (hρ : Function.Injective ρ.reg) (ctx : Context) (r : VReg) (s : Reg) :
    (emission ρ).Carries id (ctx.store r s) ((ctx.rename ρ.reg).store (ρ.reg r) s) := by
  refine (locate_carries hρ ctx r).bind fun l => ?_
  cases l with
  | slot k => exact emitAll_carries (unlabelled_slotAccess (fun _ _ => rfl) k)
  | parameter i =>
    refine Carries.get.bind fun g => ?_
    exact .ite (fun _ => emit_carries _) fun _ => .ite (fun _ => emit_carries _) fun _ => .pure rfl

theorem saveParameters_carries (ctx : Context) (words : Nat) :
    (emission ρ).Carries id (ctx.saveParameters words) ((ctx.rename ρ.reg).saveParameters words) := by
  unfold saveParameters
  rw [frame_rename, Frame.parameterRegs_rename]
  refine .ite (fun _ => .pure rfl) fun _ => ?_
  refine (emit_carries _).bind fun _ => ?_
  refine (emitAll_carries fun f => ?_).bind fun _ => (modify_carries _).bind fun _ => .pure rfl
  simp [Instr.relabel, Function.comp_def]

theorem restoreParameters_carries (ctx : Context) (area : Nat) :
    (emission ρ).Carries id (ctx.restoreParameters area) ((ctx.rename ρ.reg).restoreParameters area) := by
  unfold restoreParameters
  rw [frame_rename, Frame.parameterRegs_rename]
  refine .ite (fun _ => ?_) fun _ => .pure rfl
  refine (emitAll_carries fun f => ?_).bind fun _ => (emit_carries _).bind fun _ => modify_carries _
  simp [Instr.relabel, Function.comp_def]

theorem memory_carries (hρ : Function.Injective ρ.reg) (ctx : Context) (a : Linear.Address) :
    (emission ρ).Carries id (ctx.memory a) ((ctx.rename ρ.reg).memory (a.rename ρ)) := by
  cases a with
  | indexed base offset =>
    exact (load_carries hρ ctx base).bind fun _ => (load_carries hρ ctx offset).bind fun _ => .pure rfl
  | displaced base offset => exact (load_carries hρ ctx base).bind fun _ => .pure rfl
  | direct base => exact (load_carries hρ ctx base).bind fun _ => .pure rfl
  | global name =>
    exact acquire_carries.bind fun d => (emitAll_carries fun _ => rfl).bind fun _ => .pure rfl

theorem formatAddress_carries (f : Format) (d : Reg) :
    (emission ρ).Carries id (formatAddress f d) (formatAddress f d) :=
  (modify_carries _).bind fun _ => emitAll_carries fun _ => rfl

/-! ### Instructions -/

theorem callRoutine_carries (ctx : Context) (routine : String) {arguments arguments' results results' : Emit Unit}
    (harguments : (emission ρ).Carries id arguments arguments')
    (hresults : (emission ρ).Carries id results results') :
    (emission ρ).Carries id (ctx.callRoutine routine arguments results)
      ((ctx.rename ρ.reg).callRoutine routine arguments' results') := by
  refine (saveParameters_carries ctx 0).bind fun area => ?_
  refine harguments.bind fun _ => (emit_carries _).bind fun _ => ?_
  exact hresults.bind fun _ => restoreParameters_carries ctx area

theorem print_carries (hρ : Function.Injective ρ.reg) (ctx : Context) (source : VReg) (f : Format) :
    (emission ρ).Carries id (ctx.print source f) ((ctx.rename ρ.reg).print (ρ.reg source) f) := by
  refine callRoutine_carries ctx f.routine ?_ (.pure rfl)
  exact (loadInto_carries hρ ctx source _).bind fun _ => formatAddress_carries f _

theorem homeAddress_carries (hρ : Function.Injective ρ.reg) (ctx : Context) (target : VReg) (d : Reg) :
    (emission ρ).Carries id (ctx.homeAddress target d) ((ctx.rename ρ.reg).homeAddress (ρ.reg target) d) := by
  refine (locate_carries hρ ctx target).bind fun l => ?_
  cases l <;> exact emit_carries _

theorem push_carries (hρ : Function.Injective ρ.reg) (ctx : Context) (arguments : List VReg) (callee : String) :
    (emission ρ).Carries id (ctx.push arguments callee)
      ((ctx.rename ρ.reg).push (arguments.map ρ.reg) callee) := by
  unfold push
  rw [List.length_map, List.zip_map_right]
  refine .ite (fun _ => .fail _) fun _ => ?_
  refine (saveParameters_carries ctx arguments.length).bind fun _ => ?_
  refine .forM _ fun a _ => ?_
  exact (loadInto_carries hρ ctx a.2 a.1.reg).bind fun _ => modify_carries _

theorem pop_carries (ctx : Context) (count : Nat) :
    (emission ρ).Carries id (ctx.pop count) ((ctx.rename ρ.reg).pop count) := by
  unfold pop
  rw [frame_rename, Frame.parameterRegs_rename]
  exact (restoreParameters_carries ctx _).bind fun _ => modify_carries _

theorem compare_carries (hρ : Function.Injective ρ.reg) (ctx : Context) (left : VReg) (right : Linear.Operand) :
    (emission ρ).Carries id (ctx.compare left right)
      ((ctx.rename ρ.reg).compare (ρ.reg left) (right.rename ρ)) := by
  refine (load_carries hρ ctx left).bind fun a => ?_
  have hcmp : (emission ρ).Carries id (ctx.loadOperand right >>= fun b => emit (.cmp a b))
      ((ctx.rename ρ.reg).loadOperand (right.rename ρ) >>= fun b => emit (.cmp a b)) :=
    (loadOperand_carries hρ ctx right).bind fun b => emit_carries (.cmp a b)
  cases right with
  | reg r => exact hcmp
  | imm value => exact .ite (fun _ => emit_carries _) fun _ => hcmp

theorem move_carries (hρ : Function.Injective ρ.reg) (ctx : Context) (target : VReg) (source : Linear.Operand)
    (guard : Linear.Guard) :
    (emission ρ).Carries id (ctx.move target source guard)
      ((ctx.rename ρ.reg).move (ρ.reg target) (source.rename ρ) guard) := by
  cases guard with
  | always =>
    refine (destination_carries hρ ctx target).bind fun d => ?_
    cases source with
    | reg r =>
      refine (load_carries hρ ctx r).bind fun s => (emit_carries (.mov d s)).bind fun _ => ?_
      exact store_carries hρ ctx target d
    | imm value =>
      refine (emitAll_carries (unlabelled_immediate d value)).bind fun _ => ?_
      exact store_carries hρ ctx target d
  | on c =>
    have hskip : (emission ρ).Carries (Symbol.relabel ρ.label) nextSkip nextSkip :=
      .modifyGet fun _ _ => ⟨trivial, rfl⟩
    refine hskip.bind fun skip => (emit_carries (.branchOn c.inverse skip)).bind fun _ => ?_
    refine (loadOperand_carries hρ ctx source).bind fun s => ?_
    exact (store_carries hρ ctx target s).bind fun _ => emitLabel_carries skip

theorem leave_carries (hρ : Function.Injective ρ.reg) (ctx : Context) (value : Option Linear.Operand) :
    (emission ρ).Carries id (ctx.leave value)
      ((ctx.rename ρ.reg).leave (value.map (Linear.Operand.rename ρ))) := by
  have hexit : (emission ρ).Carries id (emit (.branch (.exit ctx.name))) (emit (.branch (.exit ctx.name))) :=
    emit_carries _
  rcases value with _ | r | value
  · exact hexit
  · exact (loadInto_carries hρ ctx r .result).bind fun _ => hexit
  · exact (emitAll_carries (unlabelled_immediate _ value)).bind fun _ => hexit

/-- **One instruction.** Its code does not depend on the names of the registers, and it names the labels
that the instruction names. -/
theorem instr_carries (hρ : Function.Injective ρ.reg) (ctx : Context) (i : Linear.Instr) :
    (emission ρ).Carries id (ctx.instr i) ((ctx.rename ρ.reg).instr (i.rename ρ)) := by
  cases i with
  | binary op target left right =>
    refine (load_carries hρ ctx left).bind fun a => (loadOperand_carries hρ ctx right).bind fun b => ?_
    refine (destination_carries hρ ctx target).bind fun d => (emit_carries _).bind fun _ => ?_
    exact store_carries hρ ctx target d
  | not target operand =>
    refine (load_carries hρ ctx operand).bind fun a => ?_
    refine (destination_carries hρ ctx target).bind fun d => (emit_carries _).bind fun _ => ?_
    exact store_carries hρ ctx target d
  | cmp left right => exact compare_carries hρ ctx left right
  | branch guard l => cases guard <;> exact emit_carries _
  | label l => exact emitLabel_carries (.block l)
  | load target address =>
    refine (memory_carries hρ ctx address).bind fun m => ?_
    refine (destination_carries hρ ctx target).bind fun d => (emit_carries _).bind fun _ => ?_
    exact store_carries hρ ctx target d
  | store value address =>
    refine (load_carries hρ ctx value).bind fun s => ?_
    exact (memory_carries hρ ctx address).bind fun m => emit_carries (.store s m)
  | loadField target base field index =>
    refine (load_carries hρ ctx base).bind fun b => (destination_carries hρ ctx target).bind fun d => ?_
    refine (displacement_carries index).bind fun offset => (emit_carries _).bind fun _ => ?_
    exact store_carries hρ ctx target d
  | storeField value base field index =>
    refine (load_carries hρ ctx value).bind fun s => (load_carries hρ ctx base).bind fun b => ?_
    exact (displacement_carries index).bind fun offset => emit_carries (.store s (.displaced b offset.toInt))
  | alloc target struct fields =>
    refine callRoutine_carries ctx _ ?_ (store_carries hρ ctx target .result)
    exact (displacement_carries fields).bind fun size => emitAll_carries (unlabelled_immediate _ size)
  | free pointer => exact callRoutine_carries ctx _ (loadInto_carries hρ ctx pointer .result) (.pure rfl)
  | push arguments callee => exact push_carries hρ ctx arguments callee
  | pop arguments callee =>
    show (emission ρ).Carries id _ ((ctx.rename ρ.reg).pop (arguments.map ρ.reg).length)
    rw [List.length_map]
    exact pop_carries ctx arguments.length
  | mov target source guard => exact move_carries hρ ctx target source guard
  | result target => exact store_carries hρ ctx target .result
  | ret value => exact leave_carries hρ ctx value
  | call callee => exact emit_carries _
  | print source => exact print_carries hρ ctx source .print
  | println source => exact print_carries hρ ctx source .println
  | read target name =>
    refine callRoutine_carries ctx _ ?_ (.pure rfl)
    exact (homeAddress_carries hρ ctx target _).bind fun _ => formatAddress_carries .read _

/-! ### Blocks -/

theorem body_carries (hρ : Function.Injective ρ.reg) (ctx : Context) (instrs : List Linear.Instr) :
    (emission ρ).Carries id (ctx.body instrs)
      ((ctx.rename ρ.reg).body (instrs.map (Linear.Instr.rename ρ))) := by
  refine .forM instrs fun i _ => ?_
  exact (instr_carries hρ ctx i).bind fun _ => modify_carries _

theorem prologue_rename (ctx : Context) :
    (ctx.rename ρ.reg).prologue = ctx.prologue.map (Line.relabel ρ.label) := by
  simp [prologue, Frame.opening, rename, Line.relabel, Instr.relabel, Symbol.relabel]

theorem epilogue_rename (ctx : Context) (returns : Ty) :
    (ctx.rename ρ.reg).epilogue returns = (ctx.epilogue returns).map (Line.relabel ρ.label) := by
  have hclosing : (ctx.rename ρ.reg).frame.closing = ctx.frame.closing := by
    simp [Frame.closing]
  have hcode : Unlabelled (ctx.status returns ++ ctx.frame.closing) := by
    intro f
    rw [List.map_append]
    unfold status
    split
    · rw [unlabelled_immediate]
      rfl
    · rfl
  show .label (.exit ctx.name) :: (ctx.status returns ++ (ctx.rename ρ.reg).frame.closing).map Line.instr
    ++ [.directive (.functionSize ctx.name)] = _
  unfold epilogue
  rw [hclosing]
  generalize ctx.status returns ++ ctx.frame.closing = code at hcode
  rw [List.map_append, List.map_cons, hcode.lines]
  rfl

theorem block_carries (hρ : Function.Injective ρ.reg) (ctx : Context) (instrs : List Linear.Instr)
    (returns : Ty) :
    (emission ρ).Carries id (ctx.block instrs returns)
      ((ctx.rename ρ.reg).block (instrs.map (Linear.Instr.rename ρ)) returns) := by
  refine (Carries.recordAll ctx.prologue_rename).bind fun _ => ?_
  exact (body_carries hρ ctx instrs).bind fun _ => .recordAll (ctx.epilogue_rename returns)

end Context

/-! ### Programs -/

/-- A notice with the registers under other names. -/
def Notice.rename (f : VReg → VReg) : Notice → Notice
  | .slot function register offset => .slot function (f register) offset
  | n => n

/-- How generating code appears under other names. -/
def generation (ρ : Renaming) : Translation Failure Generator Notice where
  error := Failure.rename ρ.reg
  state := id
  entry := Notice.rename ρ.reg
  covers _ := True

section Generation

variable {ρ : Renaming}

theorem narrate_carries {m m' : Emit Unit} (h : (emission ρ).Carries id m m') :
    (generation ρ).Carries (List.map (Line.relabel ρ.label)) (narrate m) (narrate m') := by
  intro g _
  obtain ⟨-, hrun⟩ := h g trivial
  refine ⟨trivial, ?_⟩
  show Run.mk ((m'.run g).result.map fun _ => (m'.run g).entries) (m'.run g).state
    (((m'.run g).state.formats.drop g.formats.length).map Notice.format) = _
  have hrun' : m'.run g = (emission ρ).run id (m.run g) := hrun
  rw [hrun']
  show _ = (generation ρ).run _ (Run.mk ((m.run g).result.map fun _ => (m.run g).entries) (m.run g).state
    (((m.run g).state.formats.drop g.formats.length).map Notice.format))
  rcases m.run g with ⟨_ | _, g', w⟩ <;>
    simp [Translation.run, emission, generation, Except.map, Except.mapError, Function.comp_def, Notice.rename]

theorem checked_carries (frame : Frame) (function : String) :
    (generation ρ).Carries (Frame.rename ρ.reg) (liftM (frame.checked function))
      (liftM ((frame.rename ρ.reg).checked function) : Generate Frame) := by
  refine .ofExcept ?_
  have hlength : (frame.rename ρ.reg).parameters.length = frame.parameters.length := List.length_map _
  unfold Frame.checked
  rw [hlength, Frame.bytes_rename]
  by_cases hparameters : Limit.maxArguments < frame.parameters.length
  · rw [if_pos hparameters, if_pos hparameters]
    rfl
  · rw [if_neg hparameters, if_neg hparameters]
    by_cases hbytes : Limit.maxFrameBytes < frame.bytes
    · rw [if_pos hbytes, if_pos hbytes]
      rfl
    · rw [if_neg hbytes, if_neg hbytes]
      rfl

theorem layout_carries (hρ : Function.Injective ρ.reg) (frag : Linear.Fragment) (parameters : List VReg) :
    (generation ρ).Carries (Frame.rename ρ.reg) (layout frag parameters)
      (layout (frag.rename ρ) (parameters.map ρ.reg)) := by
  have hspill : Frame.spill (frag.rename ρ).body (parameters.map ρ.reg)
      = (Frame.spill frag.body parameters).rename ρ.reg := Frame.spill_rename hρ ..
  have hslots : (((Frame.spill frag.body parameters).rename ρ.reg).slots.mapIdx fun k r =>
        Notice.slot frag.label r (slotOffset k))
      = ((Frame.spill frag.body parameters).slots.mapIdx fun k r =>
        Notice.slot frag.label r (slotOffset k)).map (Notice.rename ρ.reg) := by
    simp [Frame.rename, List.mapIdx_eq_zipIdx_map, List.zipIdx_map, Notice.rename, Function.comp_def]
  have hframe : ∀ frame : Frame, Notice.frame frag.label (frame.rename ρ.reg).slots.length
      (frame.rename ρ.reg).size = .frame frag.label frame.slots.length frame.size := by
    intro frame
    rw [Frame.size_rename, show (frame.rename ρ.reg).slots.length = frame.slots.length from List.length_map _]
  have hrest : (generation ρ).Carries (Frame.rename ρ.reg)
      (do
        let frame ← liftM ((Frame.spill frag.body parameters).checked frag.label)
        Journal.record (.frame frag.label frame.slots.length frame.size)
        return frame)
      (do
        let frame ← liftM (((Frame.spill frag.body parameters).rename ρ.reg).checked frag.label)
        Journal.record (.frame frag.label frame.slots.length frame.size)
        return frame) :=
    (checked_carries _ _).bind fun frame => (Carries.record (hframe frame)).bind fun _ => .pure rfl
  unfold layout
  rw [hspill, List.length_map]
  exact .ite (fun _ => (Carries.recordAll hslots).bind fun _ => hrest) fun _ => hrest

/-- **One function.** -/
theorem generateFunction_carries (hρ : Function.Injective ρ.reg) (symbols : SymbolTable)
    (frag : Linear.Fragment) :
    (generation ρ).Carries (List.map (Line.relabel ρ.label)) (generateFunction symbols frag)
      (generateFunction (symbols.rename ρ.reg) (frag.rename ρ)) := by
  have hfunction : (symbols.rename ρ.reg).function? frag.label
      = ((symbols.function? frag.label).map id).mapError (Defect.rename ρ.reg) := by
    rw [SymbolTable.function?_rename, Except.map_id, id, SymbolTable.nameless_function?]
  refine (lift_carries rfl hfunction).bind fun signature => ?_
  cases signature with
  | none => exact .fail _
  | some signature =>
    have hparameters : (symbols.rename ρ.reg).parameters signature.scope
        = ((symbols.parameters signature.scope).map (List.map (Variable.rename ρ.reg))).mapError
          (Defect.rename ρ.reg) := by
      rw [← SymbolTable.parameters_rename, SymbolTable.nameless_parameters]
    refine (lift_carries rfl hparameters).bind fun parameters => ?_
    have hregisters : (parameters.map (Variable.rename ρ.reg)).map (·.register)
        = (parameters.map (·.register)).map ρ.reg := by
      rw [List.map_map, List.map_map]
      rfl
    rw [hregisters]
    refine (layout_carries hρ frag _).bind fun frame => ?_
    have henter : (generation ρ).Carries id (modify fun g => g.enter frame)
        (modify fun g => g.enter (frame.rename ρ.reg)) := by
      refine .modify fun g _ => ⟨trivial, ?_⟩
      unfold Generator.enter
      rw [Frame.parameterRegs_rename]
      rfl
    exact henter.bind fun _ => narrate_carries (Context.block_carries hρ ⟨frag.label, frame⟩ _ _)

theorem header_rename (globals : Linear.Fragment) :
    header (globals.rename ρ) = (header globals).map (Line.relabel ρ.label) := by
  have hglobals : (globals.rename ρ).body.filterMap Linear.Instr.global?
      = globals.body.filterMap Linear.Instr.global? := by
    simp [Linear.Fragment.rename, List.filterMap_map]
  unfold header
  rw [hglobals]
  simp [Line.relabel, Function.comp_def]

theorem formats_relabel (f : Label → Label) (fs : Formats) : fs.lines.map (Line.relabel f) = fs.lines := by
  unfold Formats.lines
  split
  · rfl
  · rw [List.map_cons, List.map_flatMap]
    rfl

/-- **Programs.** Under other names for its registers, no two of them the same, and for its labels, a
program has the same assembly apart from the names of the labels. -/
theorem generate_carries (hρ : Function.Injective ρ.reg) (fragments : List Linear.Fragment)
    (symbols : SymbolTable) :
    (generation ρ).Carries (List.map (Line.relabel ρ.label)) (generate fragments symbols)
      (generate (fragments.map (Linear.Fragment.rename ρ)) (symbols.rename ρ.reg)) := by
  refine (Carries.set trivial).bind fun _ => ?_
  cases fragments with
  | nil => exact .fail _
  | cons globals functions =>
    refine .ite (fun _ => ?_) fun _ => .fail _
    refine (Carries.mapM functions fun frag _ => generateFunction_carries hρ symbols frag).bind
      fun blocks => Carries.get.bind fun g => .pure ?_
    rw [List.map_append, List.map_append, header_rename, List.map_flatten, formats_relabel]
    rfl

end Generation

@[simp] theorem Line.relabel_id : Line.relabel id = id := by
  funext l
  rcases l with i | s | d
  · rcases i with _ | _ | _ | _ | _ | _ | _ | _ | _ | _ | s | ⟨_, s⟩ | s | _ | _ | _ | _ | ⟨_, s⟩ | ⟨_, _, s⟩ |
      _ <;> try rfl
    all_goals cases s <;> rfl
  · cases s <;> rfl
  · rcases d with _ | _ | _ | _ | _ | _ | _ | _ | _ | ⟨s, _⟩ <;> try rfl
    cases s <;> rfl

/-- **Code generation ignores the names of registers.** Whatever the program and its symbol table are,
other names for the registers, no two of them the same, change neither the lines of assembly nor the
limit that is reported. What is changed is the name in the report of a register that lives nowhere, and
in the notices about slots. -/
theorem generate_ignores_register_names {f : VReg → VReg} (hf : Function.Injective f)
    (fragments : List Linear.Fragment) (symbols : SymbolTable) (g : Generator) :
    (generate (fragments.map (Linear.Fragment.rename (.registers f))) (symbols.rename f)).run g
      = ⟨((generate fragments symbols).eval g).mapError (Failure.rename f),
        ((generate fragments symbols).run g).state,
        ((generate fragments symbols).run g).entries.map (Notice.rename f)⟩ := by
  obtain ⟨-, hrun⟩ := generate_carries (ρ := .registers f) hf fragments symbols g trivial
  have hlines : List.map (Line.relabel (Renaming.registers f).label) = id := by
    show List.map (Line.relabel id) = id
    rw [Line.relabel_id, List.map_id_fun]
  rw [hlines] at hrun
  show (generate _ _).run g = ⟨((generate fragments symbols).run g).result.mapError (Failure.rename f), _, _⟩
  refine hrun.trans ?_
  rw [Translation.run, Except.map_id]
  rfl

/-- The register with twice the number and five more. -/
def spread (r : VReg) : VReg := ⟨2 * r.id + 5⟩

/-- `Draft.sumDown` has the same assembly under other names. With a read of a register that nothing
writes at its end it is refused, and the report has the other name. -/
theorem generate_ignores_register_names_sumDown :
    Function.Injective spread ∧ ∃ globals sum lines,
      Draft.sumDown.program.lower.eval {} = .ok [globals, sum] ∧
      (generate [globals, sum] Draft.sumDown.program.symbols).eval {} = .ok lines ∧
      (generate ([globals, sum].map (Linear.Fragment.rename (.registers spread)))
        (Draft.sumDown.program.symbols.rename spread)).eval {} = .ok lines ∧
      (generate ([globals, ⟨sum.label, sum.body ++ [.print ⟨99⟩]⟩].map
          (Linear.Fragment.rename (.registers spread)))
        (Draft.sumDown.program.symbols.rename spread)).eval {}
        = .error (.fault (.defect (.unlocated ⟨203⟩))) := by
  have hspread : Function.Injective spread := by
    intro r s h
    have hid : 2 * r.id + 5 = 2 * s.id + 5 := congrArg VReg.id h
    exact VReg.ext (by omega)
  refine ⟨hspread, _, _, _, rfl, rfl, ?_, ?_⟩
  · exact congrArg Run.result (generate_ignores_register_names hspread _ _ {})
  · exact congrArg Run.result (generate_ignores_register_names hspread _ _ {})

end Arm64

end Spillway
