import Spillway.Proofs.Arm64.Generation

/-!
# What code does beyond its frame

Most lines of a function's code move values between registers and slots. What a line does beyond that is
an *act*: it calls something, or it reads or writes a word at a displacement from a pointer. Each
instruction of linear code has at most one act, `Linear.Instr.act?`, and it is the only one in the lines
that are written for the instruction, whatever the generator was used for before.

* `Shows` — the acts in what a computation writes.
* `Context.shows_instr` — the acts of one instruction.
* `Cut`, `Generates.cut` — the block of a function, cut into the code of its instructions.
* `Cut.acts_eq` — what the block of a function does.
-/

namespace Spillway

open Linear (Fragment)

/-- The displacement of field `index`, in bytes: the number of the field is taken as a signed word. -/
def Linear.fieldOffset (index : Nat) : Int := (Int64.ofNat index).toInt * Word.bytes

/-- The displacement that an address names. -/
def Linear.Address.offset? : Linear.Address → Option Int
  | .displaced _ offset => some offset.toInt
  | _ => none

namespace Arm64

/-- What a line does beyond the frame of its function. -/
inductive Act where
  | call (s : Symbol)
  /-- Reads the word at a displacement from a pointer. -/
  | load (offset : Int)
  /-- Writes the word at a displacement from a pointer. -/
  | store (offset : Int)
  deriving DecidableEq, Repr

/-- The displacement of a word from a pointer; the frame pointer and the stack pointer are none. -/
def Mem.offset? : Mem → Option Int
  | .displaced base offset => if base = .fp ∨ base = .sp then none else some offset
  | _ => none

/-- The act of a line. -/
def Line.act? : Line → Option Act
  | .instr (.call s) => some (.call s)
  | .instr (.load _ m) => m.offset?.map .load
  | .instr (.store _ m) => m.offset?.map .store
  | _ => none

/-- The acts of lines, in order. -/
def acts (lines : List Line) : List Act := lines.filterMap Line.act?

@[simp] theorem acts_append (w w' : List Line) : acts (w ++ w') = acts w ++ acts w' := List.filterMap_append

end Arm64

open Arm64 (Act Format) in
/-- The act of an instruction. -/
def Linear.Instr.act? : Linear.Instr → Option Act
  | .load _ address => address.offset?.map .load
  | .store _ address => address.offset?.map .store
  | .loadField _ _ _ index => some (.load (Linear.fieldOffset index))
  | .storeField _ _ _ index => some (.store (Linear.fieldOffset index))
  | .alloc .. => some (.call (.name "malloc"))
  | .free _ => some (.call (.name "free"))
  | .call callee => some (.call (.name callee))
  | .print _ => some (.call (.name Format.print.routine))
  | .println _ => some (.call (.name Format.println.routine))
  | .read .. => some (.call (.name Format.read.routine))
  | _ => none

namespace Arm64

/-! ### Computations -/

/-- A successful run writes lines with these acts, and its value is as required. -/
def Shows {α : Type} (m : Emit α) (as : List Act) (Q : α → Prop) : Prop :=
  ∀ ⦃g g' : Generator⦄ ⦃a : α⦄ ⦃w : List Line⦄, m.run g = ⟨.ok a, g', w⟩ → acts w = as ∧ Q a

section Shows

variable {α β γ : Type} {m : Emit α} {f : α → Emit β} {Q : α → Prop} {R : β → Prop} {as : List Act}

theorem Shows.pure {a : α} (h : Q a) : Shows (pure a) [] Q := by
  intro g g' b w hrun
  obtain ⟨rfl, -, rfl⟩ := Journal.pure_ok.1 hrun
  exact ⟨rfl, h⟩

theorem Shows.fail (e : Failure) : Shows (Journal.fail e) as Q := by
  intro g g' b w hrun
  cases hrun

/-- A silent step before the rest. -/
theorem Shows.before (h : Shows m [] Q) (hf : ∀ a, Q a → Shows (f a) as R) : Shows (m >>= f) as R := by
  intro g g' b w hrun
  obtain ⟨a, t, v, v', hm, hrest, rfl⟩ := Journal.bind_eq_ok_iff.1 hrun
  obtain ⟨hv, hQ⟩ := h hm
  obtain ⟨hv', hR⟩ := hf a hQ hrest
  rw [acts_append, hv, hv']
  exact ⟨rfl, hR⟩

/-- A silent rest. -/
theorem Shows.after (h : Shows m as Q) (hf : ∀ a, Q a → Shows (f a) [] R) : Shows (m >>= f) as R := by
  intro g g' b w hrun
  obtain ⟨a, t, v, v', hm, hrest, rfl⟩ := Journal.bind_eq_ok_iff.1 hrun
  obtain ⟨hv, hQ⟩ := h hm
  obtain ⟨hv', hR⟩ := hf a hQ hrest
  rw [acts_append, hv, hv', List.append_nil]
  exact ⟨rfl, hR⟩

theorem Shows.get_bind {f : Generator → Emit β} (h : ∀ g, Shows (f g) as R) : Shows (get >>= f) as R :=
  fun g _ _ _ hrun => h g (Journal.get_bind_ok.1 hrun)

theorem Shows.forM {xs : List γ} {f : γ → Emit PUnit} (h : ∀ x ∈ xs, Shows (f x) [] fun _ => True) :
    Shows (xs.forM f) [] fun _ => True := by
  induction xs with
  | nil => exact .pure trivial
  | cons x xs ih =>
    exact (h x (List.mem_cons_self ..)).before fun _ _ => ih fun y hy => h y (List.mem_cons_of_mem _ hy)

theorem shows_modify (f : Generator → Generator) : Shows (modify f) [] fun _ => True := by
  intro g g' a w hrun
  cases hrun
  exact ⟨rfl, trivial⟩

/-- Lines without acts. -/
theorem shows_emitAll {is : List Instr} (h : acts (is.map .instr) = []) :
    Shows (emitAll is) [] fun _ => True := by
  intro g g' a w hrun
  cases hrun
  exact ⟨h, trivial⟩

theorem shows_emit (i : Instr) : Shows (emit i) (Line.instr i).act?.toList fun _ => True := by
  intro g g' a w hrun
  cases hrun
  refine ⟨?_, trivial⟩
  rw [acts, List.filterMap_cons]
  cases (Line.instr i).act? <;> rfl

end Shows

/-! ### Registers, slots and constants -/

/-- A register that can hold a pointer: not the frame pointer, and not the stack pointer. -/
def Reg.Holding (r : Reg) : Prop := r ≠ .fp ∧ r ≠ .sp

theorem Reg.Holding.offset? {r : Reg} (h : r.Holding) (offset : Int) :
    (Mem.displaced r offset).offset? = some offset := by
  rw [Mem.offset?, if_neg (not_or.2 h)]

theorem Argument.holding_reg (i : Argument) : i.reg.Holding := ⟨reg_ne_fp i, reg_ne_sp i⟩

theorem PoolReg.holding_reg (i : PoolReg) : i.reg.Holding := by
  refine ⟨fun h => ?_, fun h => ?_⟩
  · have hval : i.val = 29 := Reg.x.inj h
    exact absurd i.isLt (by rw [hval]; decide)
  · cases h

theorem acts_slotAccess {access : Mem → Instr} (h : ∀ m, m.offset? = none → (Line.instr (access m)).act? = none)
    (k : Nat) : acts ((slotAccess access k).map .instr) = [] := by
  have hnear : (Line.instr (access (.displaced .fp (slotOffset k)))).act? = none := h _ (by simp [Mem.offset?])
  have hfar : (Line.instr (access (.direct .far))).act? = none := h _ rfl
  unfold slotAccess
  split
  · simp [acts, hnear]
  · have hset : (Line.instr (.subImm .far .fp (slotDepth k))).act? = none := rfl
    simp [acts, hset, hfar]

theorem acts_slotLoad (d : Reg) (k : Nat) : acts ((slotAccess (.load d) k).map .instr) = [] :=
  acts_slotAccess (fun m hm => by simp [Line.act?, hm]) k

theorem acts_slotStore (s : Reg) (k : Nat) : acts ((slotAccess (.store s) k).map .instr) = [] :=
  acts_slotAccess (fun m hm => by simp [Line.act?, hm]) k

theorem acts_immediate (d : Reg) (value : Int64) : acts ((immediate d value).map .instr) = [] := by
  refine List.filterMap_eq_nil_iff.2 fun line hline => ?_
  obtain ⟨i, hi, rfl⟩ := List.mem_map.1 hline
  unfold immediate at hi
  split at hi
  · obtain rfl := List.mem_singleton.1 hi
    rfl
  · rcases List.mem_cons.1 hi with rfl | hi
    · rfl
    · obtain ⟨shift, -, rfl⟩ := List.mem_map.1 hi
      rfl

theorem shows_acquire : Shows acquire [] Reg.Holding := by
  refine .get_bind fun g => ?_
  split
  · next i pool _ =>
    intro t t' r w hrun
    replace hrun := Journal.set_bind_ok.1 hrun
    obtain ⟨rfl, -, rfl⟩ := Journal.pure_ok.1 hrun
    exact ⟨rfl, i.holding_reg⟩
  · exact .fail _

theorem shows_displacement (index : Nat) :
    Shows (displacement index) [] fun offset => offset.toInt = Linear.fieldOffset index := by
  intro g g' offset w hrun
  rw [displacement, Word.displacement] at hrun
  by_cases hfits : Word.Fits ((Int64.ofNat index).toInt * Word.bytes)
  · rw [if_pos hfits] at hrun
    cases hrun
    have hlt : (Int64.ofNat index).toInt * Word.bytes < 2 ^ 63 := Int.lt_of_le_of_lt hfits.2 (by decide)
    exact ⟨rfl, Int64.toInt_ofInt_of_le hfits.1 hlt⟩
  · rw [if_neg hfits] at hrun
    cases hrun

namespace Context

variable {ctx : Context} {as : List Act} {β : Type} {R : β → Prop} {r : VReg}

theorem shows_locate_bind {k : Location → Emit β} (h : ∀ l, Shows (k l) as R) :
    Shows ((liftM (ctx.frame.locate r) : Emit Location) >>= k) as R := by
  cases hl : ctx.frame.location? r with
  | some l =>
    rw [locate_bind hl]
    exact h l
  | none =>
    have hfail : ((liftM (ctx.frame.locate r) : Emit Location) >>= k)
        = Journal.fail (.fault (.defect (.unlocated r))) := by
      rw [Frame.locate, hl]
      rfl
    rw [hfail]
    exact .fail _

theorem shows_load : Shows (ctx.load r) [] Reg.Holding := by
  refine shows_locate_bind fun l => ?_
  cases l with
  | parameter i => exact .pure i.holding_reg
  | slot k =>
    refine shows_acquire.before fun d hd => ?_
    exact (shows_emitAll (acts_slotLoad d k)).before fun _ _ => .pure hd

theorem shows_loadInto (d : Reg) : Shows (ctx.loadInto r d) [] fun _ => True := by
  refine shows_locate_bind fun l => ?_
  cases l with
  | slot k => exact shows_emitAll (acts_slotLoad d k)
  | parameter i =>
    refine .get_bind fun g => ?_
    split
    · exact shows_emit (.load d (.displaced .sp i.saved))
    · split
      · exact shows_emit (.mov d i.reg)
      · exact .pure trivial

theorem shows_loadOperand (operand : Linear.Operand) : Shows (ctx.loadOperand operand) [] Reg.Holding := by
  cases operand with
  | reg r => exact shows_load
  | imm value =>
    exact shows_acquire.before fun d hd =>
      (shows_emitAll (acts_immediate d value)).before fun _ _ => .pure hd

theorem shows_destination : Shows (ctx.destination r) [] Reg.Holding := by
  rw [destination]
  split
  · next i _ =>
    refine .get_bind fun g => ?_
    split
    · exact shows_acquire
    · exact .pure i.holding_reg
  · exact shows_acquire

theorem shows_store (s : Reg) : Shows (ctx.store r s) [] fun _ => True := by
  refine shows_locate_bind fun l => ?_
  cases l with
  | slot k => exact shows_emitAll (acts_slotStore s k)
  | parameter i =>
    refine .get_bind fun g => ?_
    split
    · exact shows_emit (.store s (.displaced .sp i.saved))
    · split
      · exact shows_emit (.mov i.reg s)
      · exact .pure trivial

/-- An access through an address has the displacement that the address names. -/
theorem shows_memory (address : Linear.Address) :
    Shows (ctx.memory address) [] fun m => m.offset? = address.offset? := by
  cases address with
  | indexed base offset => exact shows_load.before fun b _ => shows_load.before fun o _ => .pure rfl
  | displaced base offset => exact shows_load.before fun b hb => .pure (hb.offset? _)
  | direct base => exact shows_load.before fun b _ => .pure rfl
  | global name => exact shows_acquire.before fun d _ => (shows_emitAll rfl).before fun _ _ => .pure rfl

theorem shows_homeAddress (d : Reg) : Shows (ctx.homeAddress r d) [] fun _ => True := by
  refine shows_locate_bind fun l => ?_
  cases l with
  | slot k => exact shows_emit (.subImm d .fp (slotDepth k))
  | parameter i => exact shows_emit (.addImm d .sp (Word.bytes * i))

theorem shows_formatAddress (f : Format) (d : Reg) : Shows (formatAddress f d) [] fun _ => True :=
  (shows_modify _).before fun _ _ => shows_emitAll rfl

/-! ### Around a call -/

theorem shows_saveParameters (words : Nat) : Shows (ctx.saveParameters words) [] fun _ => True := by
  rw [saveParameters]
  split
  · exact .pure trivial
  · refine (shows_emit (.subImm .sp .sp _)).before fun _ _ => (shows_emitAll ?_).before fun _ _ =>
      (shows_modify _).before fun _ _ => .pure trivial
    refine List.filterMap_eq_nil_iff.2 fun line hline => ?_
    simp only [List.mem_map] at hline
    obtain ⟨_, ⟨i, -, rfl⟩, rfl⟩ := hline
    rfl

theorem shows_restoreParameters (area : Nat) : Shows (ctx.restoreParameters area) [] fun _ => True := by
  rw [restoreParameters]
  split
  · refine (shows_emitAll ?_).before fun _ _ => (shows_emit (.addImm .sp .sp area)).before fun _ _ =>
      shows_modify _
    refine List.filterMap_eq_nil_iff.2 fun line hline => ?_
    simp only [List.mem_map] at hline
    obtain ⟨_, ⟨i, -, rfl⟩, rfl⟩ := hline
    rfl
  · exact .pure trivial

/-- A library routine is called once. -/
theorem shows_callRoutine (routine : String) {arguments results : Emit Unit}
    (harguments : Shows arguments [] fun _ => True) (hresults : Shows results [] fun _ => True) :
    Shows (ctx.callRoutine routine arguments results) [.call (.name routine)] fun _ => True :=
  (shows_saveParameters 0).before fun area _ => harguments.before fun _ _ =>
    (shows_emit (.call (.name routine))).after fun _ _ => hresults.before fun _ _ =>
      shows_restoreParameters area

theorem shows_print (source : VReg) (f : Format) :
    Shows (ctx.print source f) [.call (.name f.routine)] fun _ => True :=
  shows_callRoutine f.routine
    ((shows_loadInto (.x 1)).before fun _ _ => shows_formatAddress f .result) (.pure trivial)

theorem shows_push (arguments : List VReg) (callee : String) :
    Shows (ctx.push arguments callee) [] fun _ => True := by
  rw [push]
  split
  · exact .fail _
  · refine (shows_saveParameters _).before fun _ _ => .forM fun a _ => ?_
    exact (shows_loadInto a.1.reg).before fun _ _ => shows_modify _

theorem shows_pop (count : Nat) : Shows (ctx.pop count) [] fun _ => True :=
  (shows_restoreParameters _).before fun _ _ => shows_modify _

/-! ### Instructions -/

theorem shows_compare (left : VReg) (right : Linear.Operand) :
    Shows (ctx.compare left right) [] fun _ => True := by
  refine shows_load.before fun a _ => ?_
  have hcmp : Shows (do emit (.cmp a (← ctx.loadOperand right))) [] fun _ => True :=
    (shows_loadOperand right).before fun b _ => shows_emit (.cmp a b)
  cases right with
  | reg r => exact hcmp
  | imm value =>
    show Shows (if _ then _ else _) [] _
    split
    · exact shows_emit (.cmpImm a value.toInt)
    · exact hcmp

theorem shows_emitLabel (s : Symbol) : Shows (emitLabel s) [] fun _ => True := by
  intro g g' a w hrun
  cases hrun
  exact ⟨rfl, trivial⟩

theorem shows_nextSkip : Shows nextSkip [] fun _ => True := by
  intro g g' a w hrun
  cases hrun
  exact ⟨rfl, trivial⟩

theorem shows_move (target : VReg) (source : Linear.Operand) (guard : Linear.Guard) :
    Shows (ctx.move target source guard) [] fun _ => True := by
  cases guard with
  | always =>
    refine shows_destination.before fun d _ => ?_
    cases source with
    | reg r =>
      exact shows_load.before fun a _ => (shows_emit (.mov d a)).before fun _ _ => shows_store d
    | imm value => exact (shows_emitAll (acts_immediate d value)).before fun _ _ => shows_store d
  | on c =>
    exact shows_nextSkip.before fun skip _ => (shows_emit (.branchOn c.inverse skip)).before fun _ _ =>
      (shows_loadOperand source).before fun s _ => (shows_store s).before fun _ _ => shows_emitLabel skip

theorem shows_leave (value : Option Linear.Operand) : Shows (ctx.leave value) [] fun _ => True := by
  have hjump : Shows (emit (.branch (.exit ctx.name))) [] fun _ => True := shows_emit _
  have hnothing : Shows (pure () : Emit Unit) [] fun _ => True := .pure trivial
  rcases value with _ | r | value
  · exact hnothing.before fun _ _ => hjump
  · exact (shows_loadInto .result).before fun _ _ => hjump
  · exact (shows_emitAll (acts_immediate .result value)).before fun _ _ => hjump

/-- **Instructions.** The code of an instruction has the act of the instruction and no other. -/
theorem shows_instr (i : Linear.Instr) : Shows (ctx.instr i) i.act?.toList fun _ => True := by
  cases i with
  | binary op target left right =>
    exact shows_load.before fun a _ => (shows_loadOperand right).before fun b _ =>
      shows_destination.before fun d _ => (shows_emit (.alu op d a b)).before fun _ _ => shows_store d
  | not target operand =>
    exact shows_load.before fun a _ => shows_destination.before fun d _ =>
      (shows_emit (.eorImm d a 1)).before fun _ _ => shows_store d
  | cmp left right => exact shows_compare left right
  | branch guard l =>
    cases guard with
    | always => exact shows_emit (.branch (.block l))
    | on c => exact shows_emit (.branchOn c (.block l))
  | label l => exact shows_emitLabel (.block l)
  | load target address =>
    refine (shows_memory address).before fun m hm => shows_destination.before fun d _ => ?_
    have hload := shows_emit (.load d m)
    rw [Line.act?, hm] at hload
    exact hload.after fun _ _ => shows_store d
  | store value address =>
    refine shows_load.before fun s _ => (shows_memory address).before fun m hm => ?_
    have hstore := shows_emit (.store s m)
    rw [Line.act?, hm] at hstore
    exact hstore
  | loadField target base field index =>
    refine shows_load.before fun b hb => shows_destination.before fun d _ =>
      (shows_displacement index).before fun offset hoffset => ?_
    have hload := shows_emit (.load d (.displaced b offset.toInt))
    rw [Line.act?, hb.offset?, hoffset] at hload
    rw [hoffset]
    exact hload.after fun _ _ => shows_store d
  | storeField value base field index =>
    refine shows_load.before fun s _ => shows_load.before fun b hb =>
      (shows_displacement index).before fun offset hoffset => ?_
    have hstore := shows_emit (.store s (.displaced b offset.toInt))
    rw [Line.act?, hb.offset?, hoffset] at hstore
    rw [hoffset]
    exact hstore
  | alloc target struct fields =>
    exact shows_callRoutine "malloc" ((shows_displacement fields).before fun size _ =>
      shows_emitAll (acts_immediate .result size)) (shows_store .result)
  | free pointer => exact shows_callRoutine "free" (shows_loadInto .result) (.pure trivial)
  | push arguments callee => exact shows_push arguments callee
  | pop arguments callee => exact shows_pop arguments.length
  | mov target source guard => exact shows_move target source guard
  | result target => exact shows_store .result
  | ret value => exact shows_leave value
  | call callee => exact shows_emit (.call (.name callee))
  | print source => exact shows_print source .print
  | println source => exact shows_print source .println
  | read target name =>
    exact shows_callRoutine Format.read.routine ((shows_homeAddress (.x 1)).before fun _ _ =>
      shows_formatAddress .read .result) (.pure trivial)

/-- The code of an instruction: lines with the act of the instruction and no other. -/
def Renders (i : Linear.Instr) (piece : List Line) : Prop := acts piece = i.act?.toList

/-- A body is written instruction by instruction. -/
theorem pieces_of_body {code : List Linear.Instr} {g g' : Generator} {u : Unit} {w : List Line}
    (h : (ctx.body code).run g = ⟨.ok u, g', w⟩) :
    ∃ pieces, w = pieces.flatten ∧ List.Forall₂ Renders code pieces := by
  induction code generalizing g w with
  | nil =>
    obtain ⟨-, -, rfl⟩ := Journal.pure_ok.1 h
    exact ⟨[], rfl, .nil⟩
  | cons i code ih =>
    obtain ⟨_, t, piece, rest, hfirst, hrest, rfl⟩ := Journal.bind_eq_ok_iff.1 h
    have hstep : Shows (do ctx.instr i; releaseScratch) i.act?.toList fun _ => True :=
      (shows_instr i).after fun _ _ => shows_modify _
    obtain ⟨pieces, rfl, hpieces⟩ := ih hrest
    exact ⟨piece :: pieces, rfl, .cons (hstep hfirst).1 hpieces⟩

theorem acts_prologue (ctx : Context) : acts ctx.prologue = [] := rfl

theorem acts_epilogue (ctx : Context) (returns : Ty) : acts (ctx.epilogue returns) = [] := by
  have hstatus : acts ((ctx.status returns).map .instr) = [] := by
    rw [status]
    split
    · exact acts_immediate _ _
    · rfl
  have hclosing : acts (ctx.frame.closing.map .instr ++ [.directive (.functionSize ctx.name)]) = [] := rfl
  rw [epilogue, List.map_append, List.cons_append, List.append_assoc]
  show acts ((ctx.status returns).map .instr ++ _) = []
  rw [acts_append, hstatus, hclosing, List.append_nil]

end Context

/-! ### Functions and programs -/

open Context (Renders)

variable {symbols : SymbolTable} {g g' : Generator} {frag : Fragment} {block : List Line}

/-- The block of a function is the code of its instructions, between lines without acts. -/
def Cut (frag : Fragment) (block : List Line) : Prop :=
  ∃ before pieces after, block = before ++ pieces.flatten ++ after ∧ acts before = [] ∧ acts after = [] ∧
    List.Forall₂ Renders frag.body pieces

theorem Generates.cut (h : Generates symbols g frag block g') : Cut frag block := by
  obtain ⟨frame, returns, -, hrun⟩ := h.lays
  obtain ⟨_, _, _, _, hopening, hrest, rfl⟩ := Journal.bind_eq_ok_iff.1 hrun
  cases hopening
  obtain ⟨_, _, body, _, hbody, hclosing, rfl⟩ := Journal.bind_eq_ok_iff.1 hrest
  cases hclosing
  obtain ⟨pieces, rfl, hpieces⟩ := Context.pieces_of_body hbody
  exact ⟨_, pieces, _, (List.append_assoc ..).symm, Context.acts_prologue _, Context.acts_epilogue _ _, hpieces⟩

/-- **Blocks.** What the block of a function does is what its instructions do, in order. -/
theorem Cut.acts_eq (h : Cut frag block) : acts block = frag.body.filterMap Linear.Instr.act? := by
  obtain ⟨before, pieces, after, rfl, hbefore, hafter, hpieces⟩ := h
  have hbody : ∀ {code pieces}, List.Forall₂ Renders code pieces →
      acts pieces.flatten = code.filterMap Linear.Instr.act? := by
    intro code pieces hpieces
    induction hpieces with
    | nil => rfl
    | @cons i piece code pieces hpiece _ ih =>
      rw [List.flatten_cons, acts_append, hpiece, ih, List.filterMap_cons]
      cases i.act? <;> rfl
  rw [acts_append, acts_append, hbefore, hafter, hbody hpieces, List.nil_append, List.append_nil]

/-- The words that are counted in code that is generated have displacements that fit. -/
theorem Generates.fits (h : Generates symbols g frag block g') {i : Linear.Instr} (hi : i ∈ frag.body)
    {index : Nat} (hindex : i.word? = some index) : Word.Fits (Linear.fieldOffset index) := by
  obtain ⟨frame, returns, -, hrun⟩ := h.lays
  obtain ⟨hobstacles, -, -⟩ := (enter_outcome frag frame returns h.1).of_ok hrun
  by_contra hfits
  have herror : Word.displacement index = .error .multiplyOverflow := if_neg hfits
  have hobstacle : .fault (.trap .multiplyOverflow) ∈ Context.obstacles ⟨frag.label, frame⟩ i := by
    simp [Context.obstacles, hindex, Context.overflow, herror]
  have hnil := List.flatMap_eq_nil_iff.1 hobstacles i hi
  rw [hnil] at hobstacle
  cases hobstacle

end Arm64

end Spillway
