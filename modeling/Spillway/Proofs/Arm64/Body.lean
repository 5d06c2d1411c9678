import Spillway.Proofs.Arm64.CallSite
import Spillway.Proofs.Arm64.Writing

/-!
# The code of a function's body

The body of a function is written instruction by instruction. `Context.Writes` says what the lines are: straight
code for what control passes through, calls included, one line for a label or a branch, a jump to the end of
the function for a return, and for a conditional move a jump over it. Where writing succeeds it writes such
lines; where it fails it is for a cause that can be named beforehand: `Context.body_ends`.
-/

namespace Spillway

/-- What is wrong with an instruction that passes too many arguments. -/
def Linear.Instr.oversized? : Linear.Instr → Option Limit
  | .push arguments callee =>
    if Limit.maxArguments < arguments.length then some (.tooManyArguments callee arguments.length) else none
  | _ => none

/-- What is wrong with the first instruction that passes too many arguments. -/
def Linear.oversized? (code : List Linear.Instr) : Option Limit := code.findSome? Linear.Instr.oversized?

theorem Linear.oversized?_cons (i : Linear.Instr) (code : List Linear.Instr) :
    oversized? (i :: code) = i.oversized?.or (oversized? code) := by
  rw [oversized?, List.findSome?_cons]
  cases i.oversized? with
  | some l => rfl
  | none => rfl

theorem Linear.oversized?_callCode (arguments : List VReg) (callee : String) (target : Option VReg)
    (code : List Linear.Instr) :
    oversized? (callCode arguments callee target ++ code)
      = (Instr.push arguments callee).oversized?.or (oversized? code) := by
  cases target with
  | none => exact oversized?_cons _ _
  | some r => exact oversized?_cons _ _

namespace Arm64

open Linear (Bracketed callCode oversized? oversized?_cons oversized?_callCode)

namespace Context

/-- The lines of a body. The labels that are made for conditional moves have the numbers from the first one up
to the last. -/
inductive Writes (ctx : Context) : Nat → List Linear.Instr → List Line → Nat → Prop
  | nil {n : Nat} : Writes ctx n [] [] n
  | straight {n n' : Nat} {i : Linear.Instr} {code : List Linear.Instr} {w w' : List Line} :
      isStraight i = true → ctx.frame.Straight 0 w 0 → Writes ctx n code w' n' →
      Writes ctx n (i :: code) (w ++ w') n'
  | call {n n' : Nat} {arguments : List VReg} {callee : String} {target : Option VReg}
      {code : List Linear.Instr} {w w' : List Line} :
      arguments.length ≤ Limit.maxArguments → ctx.frame.Straight 0 w 0 → Writes ctx n code w' n' →
      Writes ctx n (callCode arguments callee target ++ code) (w ++ w') n'
  | skip {n n' : Nat} {target : VReg} {source : Linear.Operand} {c : Linear.Cond}
      {code : List Linear.Instr} {w w' : List Line} :
      ctx.frame.Straight 0 w 0 → Writes ctx (n + 1) code w' n' →
      Writes ctx n (.mov target source (.on c) :: code)
        (.instr (.branchOn c.inverse (.skip n)) :: w ++ .label (.skip n) :: w') n'
  | branch {n n' : Nat} {l : Label} {code : List Linear.Instr} {w' : List Line} :
      Writes ctx n code w' n' →
      Writes ctx n (.branch .always l :: code) (.instr (.branch (.block l)) :: w') n'
  | branchOn {n n' : Nat} {c : Linear.Cond} {l : Label} {code : List Linear.Instr} {w' : List Line} :
      Writes ctx n code w' n' →
      Writes ctx n (.branch (.on c) l :: code) (.instr (.branchOn c (.block l)) :: w') n'
  | label {n n' : Nat} {l : Label} {code : List Linear.Instr} {w' : List Line} :
      Writes ctx n code w' n' → Writes ctx n (.label l :: code) (.label (.block l) :: w') n'
  | leave {n n' : Nat} {value : Option Linear.Operand} {code : List Linear.Instr} {w w' : List Line} :
      ctx.frame.Straight 0 w 0 → Writes ctx n code w' n' →
      Writes ctx n (.ret value :: code) (w ++ .instr (.branch (.exit ctx.name)) :: w') n'

variable {ctx : Context} {E : Failure → Prop} {g : Generator} {code : List Linear.Instr}

/-! ### Between instructions -/

/-- Between instructions only the parameters are in use, and they are in their registers. -/
structure Idle (ctx : Context) (g : Generator) : Prop where
  saved : g.saved = false
  uses : g.Uses ctx.frame.parameters.length ctx.frame.parameters.length

/-- The scratch registers of an instruction are given back after it. -/
theorem step_ends {i : Linear.Instr} {base : Nat} {P : Generator → List Line → Prop}
    (h : (ctx.instr i).Ends g (fun _ g' w => (∃ n, g'.Uses base n) ∧ P g' w) E) :
    (do
      ctx.instr i
      releaseScratch : Emit Unit).Ends g (fun _ g'' w => ∃ g', P g' w ∧ g''.saved = g'.saved ∧
        g''.skips = g'.skips ∧ g''.Uses base base) E := by
  refine h.bind fun _ g' w ⟨⟨n, hg'⟩, hP⟩ => Journal.Yields.ends ⟨(), _, [], rfl, g', ?_, rfl, rfl, ?_⟩
  · rwa [List.append_nil]
  · exact Generator.uses_self hg'.release rfl

/-- The next instruction starts without scratch registers. -/
theorem body_cons_ends {i : Linear.Instr} {base : Nat} {P R : Generator → List Line → Prop}
    (h : (ctx.instr i).Ends g (fun _ g' w => (∃ n, g'.Uses base n) ∧ P g' w) E)
    (hrest : ∀ ⦃g' g'' w⦄, P g' w → g''.saved = g'.saved → g''.skips = g'.skips → g''.Uses base base →
      (ctx.body code).Ends g'' (fun _ g₁ w' => R g₁ (w ++ w')) E) :
    (ctx.body (i :: code)).Ends g (fun _ g' w => R g' w) E :=
  (step_ends h).bind fun _ _ _ ⟨_, hP, hsaved, hskips, huses⟩ => hrest hP hsaved hskips huses

/-! ### Single instructions -/

/-- The end of an instruction's code: the parameters are in their registers. -/
structure Ended (ctx : Context) (g : Generator) : Prop where
  saved : g.saved = false
  uses : ∃ n, g.Uses ctx.frame.parameters.length n

theorem Idle.ended (h : ctx.Idle g) : ctx.Ended g := ⟨h.saved, _, h.uses⟩

/-- The code of an instruction and of those after it. -/
theorem body_step_ends {i : Linear.Instr} {P : Nat → List Line → Prop} {R : Generator → List Line → Prop}
    (h : (ctx.instr i).Ends g (fun _ g' w => ctx.Ended g' ∧ P g'.skips w) E)
    (hrest : ∀ ⦃g' w⦄, P g'.skips w → ctx.Idle g' →
      (ctx.body code).Ends g' (fun _ g₁ w' => R g₁ (w ++ w')) E) :
    (ctx.body (i :: code)).Ends g (fun _ g' w => R g' w) E := by
  refine body_cons_ends (P := fun g' w => ctx.Ended g' ∧ P g'.skips w)
    (h.mono (fun _ g' w hg' => ⟨hg'.1.uses, hg'⟩) fun _ he => he) fun g' g'' w hP hsaved hskips huses => ?_
  exact hrest (hskips ▸ hP.2) ⟨hsaved.trans hP.1.saved, huses⟩

/-- A computation that writes straight code, between instructions. -/
theorem Confined.ends_idle {j : Nat} {m : Emit Unit} (h : ctx.Confined E false 0 j m fun _ => True)
    (hf : ctx.frame.Bounded) (hg : ctx.Idle g) (hj : j ≤ 8) :
    m.Ends g (fun _ g' w => ctx.Ended g' ∧ g'.skips = g.skips ∧ ctx.frame.Straight 0 w 0) E := by
  have hparams := hf.parameters_le
  refine (h hg.uses (by omega) hg.saved).mono (fun _ g' w ⟨_, hw, hcont⟩ => ⟨?_, hcont.skips, hw⟩) fun _ he => he
  obtain ⟨n, -, huses⟩ := hcont.uses
  exact ⟨hcont.saved.trans hg.saved, n, huses⟩

theorem leave_ends (hf : ctx.frame.Bounded) (hg : ctx.Idle g) {value : Option Linear.Operand}
    (hsources : ∀ r ∈ (Linear.Instr.ret value).sources, ctx.Homed E r) :
    (ctx.leave value).Ends g (fun _ g' w => ctx.Ended g' ∧ g'.skips = g.skips ∧
      ∃ w₁, ctx.frame.Straight 0 w₁ 0 ∧ w = w₁ ++ [.instr (.branch (.exit ctx.name))]) E := by
  have hreturn : ∀ {m : Emit Unit}, ctx.Confined E false 0 0 m (fun _ => True) →
      (do
        m
        emit (.branch (.exit ctx.name)) : Emit Unit).Ends g (fun _ g' w => ctx.Ended g' ∧ g'.skips = g.skips ∧
          ∃ w₁, ctx.frame.Straight 0 w₁ 0 ∧ w = w₁ ++ [.instr (.branch (.exit ctx.name))]) E := by
    intro m hm
    refine (hm.ends_idle hf hg (Nat.zero_le _)).bind fun _ g' w ⟨hended, hskips, hw⟩ => ?_
    exact Journal.Yields.ends ⟨(), g', _, rfl, hended, hskips, w, hw, rfl⟩
  cases value with
  | none => exact hreturn (m := pure ()) (.pure trivial)
  | some operand =>
    cases operand with
    | reg r =>
      have hnever : false = true → ctx.frame.Room 0 := nofun
      exact hreturn (confined_loadInto (hsources r (List.mem_singleton_self r)) hnever Reg.ordinary_result)
    | imm value => exact hreturn (confined_emitAll (.constant Reg.ordinary_result value))

theorem moveOn_ends (hf : ctx.frame.Bounded) (hg : ctx.Idle g) {target : VReg} {source : Linear.Operand}
    (htarget : ctx.Homed E target) (hsource : ∀ r ∈ source.registers, ctx.Homed E r) (c : Linear.Cond) :
    (ctx.move target source (.on c)).Ends g (fun _ g' w => ctx.Ended g' ∧ g'.skips = g.skips + 1 ∧
      ∃ w₁, ctx.frame.Straight 0 w₁ 0 ∧
        w = .instr (.branchOn c.inverse (.skip g.skips)) :: w₁ ++ [.label (.skip g.skips)]) E := by
  have hnever : false = true → ctx.frame.Room 0 := nofun
  have hmove : ctx.Confined E false 0 1 (do
      let s ← ctx.loadOperand source
      ctx.store target s) fun _ => True :=
    (confined_loadOperand hsource).bind fun s hs => confined_store htarget hnever hs
  have hassoc : ctx.move target source (.on c) = (do
      let skip ← nextSkip
      emit (.branchOn c.inverse skip)
      (do
        let s ← ctx.loadOperand source
        ctx.store target s)
      emitLabel skip) := by
    simp only [move, bind_assoc]
  -- The number is taken first, so the rest starts from a generator that has counted this move.
  have hcounted : ctx.Idle { g with skips := g.skips + 1 } :=
    ⟨hg.saved, hg.uses.pool, hg.uses.scratch, hg.uses.le⟩
  have hskip : nextSkip.Yields g fun skip g' w =>
      skip = .skip g.skips ∧ g' = { g with skips := g.skips + 1 } ∧ w = [] := ⟨_, _, _, rfl, rfl, rfl, rfl⟩
  rw [hassoc]
  refine hskip.ends.bind fun skip g₁ w₁ ⟨hskip, hg₁, hw₁⟩ => ?_
  subst hskip hg₁ hw₁
  refine (emit_yields _ _).ends.bind fun _ g₂ w₂ ⟨hg₂, hw₂⟩ => ?_
  subst hg₂ hw₂
  refine (hmove.ends_idle hf hcounted (by decide)).bind fun _ g₃ w₃ ⟨hended, hskips, hw₃⟩ => ?_
  exact Journal.Yields.ends ⟨(), g₃, [.label (.skip g.skips)], rfl, hended, hskips, w₃, hw₃, rfl⟩

/-- **Single instructions.** The lines of an instruction that is no part of a call, and those of what follows. -/
theorem instr_ends (hf : ctx.frame.Bounded) (hg : ctx.Idle g) {i : Linear.Instr} (hi : i.isCallPart = false)
    (hsources : ∀ r ∈ i.sources, ctx.Homed E r) (htarget : ∀ r, i.target? = some r → ctx.Homed E r)
    (hword : ∀ k, i.word? = some k → Reached E k) :
    (ctx.instr i).Ends g (fun _ g' w => ctx.Ended g' ∧ ∀ {code w' n}, ctx.Writes g'.skips code w' n →
      ctx.Writes g.skips (i :: code) (w ++ w') n) E := by
  by_cases hstraight : isStraight i = true
  · refine ((confined_instr hf hstraight hsources htarget hword).ends_idle hf hg (by decide)).mono
      (fun _ g' w ⟨hended, hskips, hw⟩ => ⟨hended, fun hrest => ?_⟩) fun _ he => he
    exact .straight hstraight hw (hskips ▸ hrest)
  · cases i with
    | branch guard l =>
      cases guard with
      | always => exact Journal.Yields.ends ⟨(), g, _, rfl, hg.ended, .branch⟩
      | on c => exact Journal.Yields.ends ⟨(), g, _, rfl, hg.ended, .branchOn⟩
    | label l => exact Journal.Yields.ends ⟨(), g, _, rfl, hg.ended, .label⟩
    | ret value =>
      refine (leave_ends hf hg hsources).mono (fun _ g' w ⟨hended, hskips, w₁, hw₁, hw⟩ => ?_) fun _ he => he
      refine ⟨hended, fun {code w' n} hrest => ?_⟩
      rw [hw, List.append_assoc]
      exact .leave hw₁ (hskips ▸ hrest)
    | mov target source guard =>
      cases guard with
      | always => exact absurd rfl hstraight
      | on c =>
        refine (moveOn_ends hf hg (htarget target rfl) hsources c).mono
          (fun _ g' w ⟨hended, hskips, w₁, hw₁, hw⟩ => ?_) fun _ he => he
        refine ⟨hended, fun {code w' n} hrest => ?_⟩
        rw [hw, List.append_assoc]
        exact .skip hw₁ (hskips ▸ hrest)
    | push | pop | call | result => cases hi
    | _ => exact absurd rfl hstraight

/-! ### Calls -/

section Calls

variable {arguments : List VReg} {callee : String}

/-- Passing arguments takes their registers into use. -/
theorem arguments_ends {area : Nat} (hroom : ctx.frame.Room area) {k : Nat}
    (hk : k + arguments.length ≤ Limit.maxArguments) (hhomed : ∀ r ∈ arguments, ctx.Homed E r)
    (hsaved : g.saved = ctx.parked) {p : Nat} (hp : p ≤ Limit.maxArguments)
    (huses : g.Uses (max p k) (max p k)) :
    (((Argument.all.drop k).zip arguments).forM fun a => do
      ctx.loadInto a.2 a.1.reg
      occupy a.1 : Emit Unit).Ends g (fun _ g' w => g'.saved = ctx.parked ∧ g'.skips = g.skips ∧
        g'.Uses (max p (k + arguments.length)) (max p (k + arguments.length)) ∧
        ctx.frame.Straight area w area) E := by
  induction arguments generalizing k g with
  | nil =>
    rw [List.zip_nil_right]
    exact Journal.Yields.ends ⟨(), g, [], rfl, hsaved, rfl, huses, .nil⟩
  | cons r arguments ih =>
    rw [List.length_cons] at hk
    have hlt : k < Limit.maxArguments := by omega
    have hdrop : Argument.all.drop k = ⟨k, hlt⟩ :: Argument.all.drop (k + 1) := by
      rw [List.drop_eq_getElem_cons (by simpa [Argument.all] using hlt)]
      simp [Argument.all]
    rw [hdrop, List.zip_cons_cons, List.length_cons]
    have hload : (do
        ctx.loadInto r (Argument.reg ⟨k, hlt⟩)
        occupy ⟨k, hlt⟩ : Emit Unit).Ends g (fun _ g' w => g'.saved = ctx.parked ∧ g'.skips = g.skips ∧
          g'.Uses (max p (k + 1)) (max p (k + 1)) ∧ ctx.frame.Straight area w area) E := by
      refine (confined_loadInto (hhomed r (List.mem_cons_self ..)) (fun _ => hroom)
        (Argument.ordinary_reg _) huses (by rw [Limit.maxArguments] at *; omega) hsaved).bind
        fun _ g₁ w₁ hloaded => ?_
      obtain ⟨-, hw₁, hcont⟩ := hloaded
      obtain ⟨n, hn, hg₁⟩ := hcont.uses
      obtain rfl : n = max p k := Nat.le_antisymm hn hg₁.le
      refine Journal.Yields.ends ⟨(), _, [], rfl, hcont.saved.trans hsaved, hcont.skips, ?_, ?_⟩
      · have hmax : max (max p k) (k + 1) = max p (k + 1) := by omega
        refine Generator.uses_self ?_ hg₁.scratch_eq_nil
        exact hmax ▸ hg₁.pool.occupy (i := Argument.pool ⟨k, hlt⟩) (Nat.le_max_right p k)
      · rwa [List.append_nil]
    refine hload.bind fun _ g₁ w₁ hfirst => ?_
    obtain ⟨hsaved₁, hskips₁, huses₁, hw₁⟩ := hfirst
    refine (ih (by omega) (fun r' hr' => hhomed r' (List.mem_cons_of_mem _ hr')) hsaved₁ huses₁).mono
      (fun _ g₂ w₂ hrest => ?_) fun _ he => he
    obtain ⟨hsaved₂, hskips₂, huses₂, hw₂⟩ := hrest
    have hlength : k + 1 + arguments.length = k + (arguments.length + 1) := by omega
    exact ⟨hsaved₂, hskips₂.trans hskips₁, hlength ▸ huses₂, hw₁.append hw₂⟩

/-- The generator between passing the arguments of a call and ending it. -/
structure Calling (ctx : Context) (count skips : Nat) (g : Generator) : Prop where
  saved : g.saved = ctx.parked
  skips : g.skips = skips
  uses : g.Uses (max ctx.frame.parameters.length count) (max ctx.frame.parameters.length count)

theorem push_ends (hf : ctx.frame.Bounded) (hg : ctx.Idle g) (hhomed : ∀ r ∈ arguments, ctx.Homed E r)
    (hlimit : ∀ l, (Linear.Instr.push arguments callee).oversized? = some l → E (.limit l)) :
    (ctx.push arguments callee).Ends g (fun _ g' w => arguments.length ≤ Limit.maxArguments ∧
      ctx.Calling arguments.length g.skips g' ∧ ctx.frame.Straight 0 w (ctx.callArea arguments)) E := by
  rw [push]
  split
  · next hlong => exact .fail (hlimit _ (if_pos hlong))
  · next hshort =>
    have hfits : arguments.length ≤ Limit.maxArguments := Nat.not_lt.1 hshort
    refine (saveParameters_ends hf hfits hg.saved).bind fun area g₁ w₁ hparked => ?_
    obtain ⟨harea, hg₁, hw₁⟩ := hparked
    rw [harea] at hw₁
    subst hg₁
    have huses : Generator.Uses { g with saved := ctx.parked } (max ctx.frame.parameters.length 0)
        (max ctx.frame.parameters.length 0) := by
      rw [Nat.max_zero]
      exact ⟨hg.uses.pool, hg.uses.scratch, hg.uses.le⟩
    refine (arguments_ends (k := 0) (Frame.room_areaBytes hf hfits) (by omega) hhomed rfl hf.parameters
      huses).mono (fun _ g₂ w₂ hpassed => ?_) fun _ he => he
    obtain ⟨hsaved, hskips, huses, hw₂⟩ := hpassed
    refine ⟨hfits, ⟨hsaved, hskips, ?_⟩, ?_⟩
    · rwa [Nat.zero_add] at huses
    · exact hw₁.append hw₂

theorem mem_drop_take {a : Argument} {first count : Nat} :
    a ∈ (Argument.all.take count).drop first ↔ first ≤ a.val ∧ a.val < count := by
  have hbound := a.isLt
  rw [List.mem_drop_iff_getElem]
  constructor
  · rintro ⟨n, hn, rfl⟩
    simp only [List.length_take, Argument.all, List.length_finRange] at hn
    simp only [Argument.all, List.getElem_take, List.getElem_finRange, Fin.val_cast]
    omega
  · rintro ⟨hfirst, hcount⟩
    refine ⟨a.val - first, ?_, ?_⟩
    · simp only [List.length_take, Argument.all, List.length_finRange]
      omega
    · have hval : first + (a.val - first) = a.val := by omega
      simp [Argument.all, hval]

/-- Ending a call gives back the registers of its arguments, except for those of parameters. -/
theorem pop_ends (hf : ctx.frame.Bounded) {k : Nat} (hg : ctx.Calling arguments.length k g)
    (hfits : arguments.length ≤ Limit.maxArguments) :
    (ctx.pop arguments.length).Ends g (fun _ g' w => ctx.Ended g' ∧ g'.skips = k ∧
      ctx.frame.Straight (ctx.callArea arguments) w 0) E := by
  rw [pop]
  refine (restoreParameters_ends (Frame.room_areaBytes hf hfits) hg.saved).bind fun _ g₁ w₁ hrestored => ?_
  obtain ⟨hg₁, hw₁⟩ := hrestored
  subst hg₁
  refine Journal.Yields.ends ⟨(), _, [], rfl, ⟨rfl, ctx.frame.parameters.length, ?_⟩, hg.skips, ?_⟩
  · refine Generator.uses_self (hg.uses.pool.release (fun i => ?_) (Nat.le_max_left ..))
      hg.uses.scratch_eq_nil
    rw [Frame.length_parameterRegs hf, List.mem_map]
    constructor
    · rintro ⟨a, ha, rfl⟩
      obtain ⟨hfirst, hcount⟩ := mem_drop_take.1 ha
      exact ⟨hfirst, Nat.lt_of_lt_of_le hcount (Nat.le_max_right ..)⟩
    · rintro ⟨hfirst, hlast⟩
      have hcount : i.val < arguments.length := by omega
      exact ⟨⟨i.val, Nat.lt_of_lt_of_le hcount hfits⟩, mem_drop_take.2 ⟨hfirst, hcount⟩, rfl⟩
  · rw [List.append_nil]
    exact hw₁

/-- An instruction between passing the arguments of a call and ending it. -/
theorem Confined.ends_calling {m : Emit Unit} {area count k : Nat}
    (h : ctx.Confined E ctx.parked area 0 m fun _ => True) (hf : ctx.frame.Bounded)
    (hcount : count ≤ Limit.maxArguments) (hg : ctx.Calling count k g) :
    m.Ends g (fun _ g' w => ctx.Calling count k g' ∧ ctx.frame.Straight area w area) E := by
  have hparams := hf.parameters
  refine (h hg.uses (by rw [Limit.maxArguments] at *; omega) hg.saved).mono
    (fun _ g' w ⟨_, hw, hcont⟩ => ⟨⟨hcont.saved.trans hg.saved, hcont.skips.trans hg.skips, ?_⟩, hw⟩)
    fun _ he => he
  obtain ⟨n, hn, huses⟩ := hcont.uses
  obtain rfl := Nat.le_antisymm hn huses.le
  exact huses

/-- The code of an instruction between passing the arguments of a call and ending it, and of those after it. -/
theorem body_calling_ends {i : Linear.Instr} {count k : Nat} {P : List Line → Prop}
    {R : Generator → List Line → Prop}
    (h : (ctx.instr i).Ends g (fun _ g' w => ctx.Calling count k g' ∧ P w) E)
    (hrest : ∀ ⦃g' w⦄, P w → ctx.Calling count k g' →
      (ctx.body code).Ends g' (fun _ g₁ w' => R g₁ (w ++ w')) E) :
    (ctx.body (i :: code)).Ends g (fun _ g' w => R g' w) E := by
  refine body_cons_ends (P := fun g' w => ctx.Calling count k g' ∧ P w)
    (h.mono (fun _ g' w hg' => ⟨⟨_, hg'.1.uses⟩, hg'⟩) fun _ he => he) fun g' g'' w hP hsaved hskips huses => ?_
  exact hrest hP.2 ⟨hsaved.trans hP.1.saved, hskips.trans hP.1.skips, huses⟩

/-- **Calls.** The instructions of a call write straight code, and after them the parameters are in their
registers. -/
theorem call_ends (hf : ctx.frame.Bounded) (hg : ctx.Idle g) {target : Option VReg}
    {R : Generator → List Line → Prop} (hhomed : ∀ r ∈ arguments, ctx.Homed E r)
    (htarget : ∀ r ∈ target, ctx.Homed E r)
    (hlimit : ∀ l, (Linear.Instr.push arguments callee).oversized? = some l → E (.limit l))
    (hrest : ∀ ⦃g' w⦄, arguments.length ≤ Limit.maxArguments → ctx.frame.Straight 0 w 0 → ctx.Idle g' →
      g'.skips = g.skips → (ctx.body code).Ends g' (fun _ g₁ w' => R g₁ (w ++ w')) E) :
    (ctx.body (callCode arguments callee target ++ code)).Ends g (fun _ g' w => R g' w) E := by
  have hpop : ∀ ⦃g' w⦄, arguments.length ≤ Limit.maxArguments →
      ctx.frame.Straight 0 w (ctx.callArea arguments) → ctx.Calling arguments.length g.skips g' →
      (ctx.body (.pop arguments callee :: code)).Ends g' (fun _ g₁ w' => R g₁ (w ++ w')) E := by
    intro g' w hfits hw hg'
    refine body_step_ends (R := fun g₁ w' => R g₁ (w ++ w'))
      (P := fun k w => k = g.skips ∧ ctx.frame.Straight (ctx.callArea arguments) w 0)
      (pop_ends hf hg' hfits) fun g₁ w₁ ⟨hskips, hw₁⟩ hg₁ => ?_
    simp only [← List.append_assoc]
    exact hrest hfits (hw.append hw₁) hg₁ hskips
  have hpush : (ctx.instr (.push arguments callee)).Ends g (fun _ g' w =>
      ctx.Calling arguments.length g.skips g' ∧ arguments.length ≤ Limit.maxArguments ∧
        ctx.frame.Straight 0 w (ctx.callArea arguments)) E :=
    (push_ends hf hg hhomed hlimit).mono (fun _ g' w ⟨hfits, hg', hw⟩ => ⟨hg', hfits, hw⟩) fun _ he => he
  refine body_calling_ends hpush fun g₁ w₁ ⟨hfits, hw₁⟩ hg₁ => ?_
  have hroom : ctx.frame.Room (ctx.callArea arguments) := Frame.room_areaBytes hf hfits
  have hcall : ctx.Confined E ctx.parked (ctx.callArea arguments) 0 (ctx.instr (.call callee)) fun _ => True :=
    confined_emit (.single .call rfl)
  refine body_calling_ends (R := fun g₂ w' => R g₂ (w₁ ++ w')) (hcall.ends_calling hf hfits hg₁)
    fun g₂ w₂ hw₂ hg₂ => ?_
  simp only [← List.append_assoc]
  cases target with
  | none => exact hpop hfits (hw₁.append hw₂) hg₂
  | some r =>
    have hresult : ctx.Confined E ctx.parked (ctx.callArea arguments) 0 (ctx.instr (.result r)) fun _ => True :=
      confined_store (htarget r rfl) (fun _ => hroom) Reg.ordinary_result
    refine body_calling_ends (R := fun g₃ w' => R g₃ (w₁ ++ w₂ ++ w')) (hresult.ends_calling hf hfits hg₂)
      fun g₃ w₃ hw₃ hg₃ => ?_
    simp only [← List.append_assoc]
    exact hpop hfits ((hw₁.append hw₂).append hw₃) hg₃

end Calls

/-! ### Bodies -/

/-- **Bodies.** If the writing of a body succeeds, it has written such lines. It fails only if a register has no
home, a displacement does not fit or a call passes too many arguments, and among such calls for the first. -/
theorem body_ends (hf : ctx.frame.Bounded) (hcode : Bracketed (Reached E) code)
    (hhomed : ∀ i ∈ code, ∀ r ∈ i.sources ++ i.target?.toList, ctx.Homed E r)
    (hlimit : ∀ l, oversized? code = some l → E (.limit l)) (hg : ctx.Idle g) :
    (ctx.body code).Ends g (fun _ g' w => ctx.Idle g' ∧ ctx.Writes g.skips code w g'.skips) E := by
  induction hcode generalizing g with
  | nil => exact Journal.Yields.ends ⟨(), g, [], rfl, hg, .nil⟩
  | @cons i code hi hword _ ih =>
    have hsources : ∀ r ∈ i.sources, ctx.Homed E r := fun r hr =>
      hhomed i (List.mem_cons_self ..) r (List.mem_append_left _ hr)
    have htarget : ∀ r, i.target? = some r → ctx.Homed E r := fun r hr =>
      hhomed i (List.mem_cons_self ..) r (List.mem_append_right _ (Option.mem_toList.2 hr))
    have hnone : i.oversized? = none := by
      cases i with
      | push arguments callee => cases hi
      | _ => rfl
    -- What is known of the code after the instruction.
    have hafter : ∀ ⦃g'⦄, ctx.Idle g' →
        (ctx.body code).Ends g' (fun _ g₁ w => ctx.Idle g₁ ∧ ctx.Writes g'.skips code w g₁.skips) E := by
      refine fun g' hg' => ih (fun j hj => hhomed j (List.mem_cons_of_mem _ hj)) (fun l hl => ?_) hg'
      refine hlimit l ?_
      rw [oversized?_cons, hnone, hl]
      rfl
    refine body_step_ends (P := fun k w => ∀ {code w' n}, ctx.Writes k code w' n →
      ctx.Writes g.skips (i :: code) (w ++ w') n) (instr_ends hf hg hi hsources htarget hword)
      fun g' w hw hg' => ?_
    exact (hafter hg').mono (fun _ g₁ w' ⟨hg₁, hrest⟩ => ⟨hg₁, hw hrest⟩) fun _ he => he
  | @call arguments callee target code _ ih =>
    have hmem : ∀ j ∈ callCode arguments callee target, j ∈ callCode arguments callee target ++ code :=
      fun j hj => List.mem_append_left _ hj
    refine call_ends hf hg (fun r hr => ?_) (fun r hr => ?_) (fun l hl => ?_) fun g' w hfits hw hg' hskips => ?_
    · exact hhomed (.push arguments callee) (hmem _ (List.mem_cons_self ..)) r (List.mem_append_left _ hr)
    · obtain rfl : target = some r := hr
      exact hhomed (.result r) (hmem _ (by simp [callCode])) r (by simp [Linear.Instr.target?])
    · refine hlimit l ?_
      rw [oversized?_callCode, hl]
      rfl
    · have hnone : (Linear.Instr.push arguments callee).oversized? = none := if_neg (Nat.not_lt.2 hfits)
      refine (ih (fun j hj => hhomed j (List.mem_append_right _ hj)) (fun l hl => ?_) hg').mono
        (fun _ g₁ w' ⟨hg₁, hrest⟩ => ⟨hg₁, .call hfits hw (hskips ▸ hrest)⟩) fun _ he => he
      refine hlimit l ?_
      rw [oversized?_callCode, hnone, hl]
      rfl

end Context

end Arm64

end Spillway
