import Spillway.Proofs.Arm64.Generation
import Spillway.Proofs.Arm64.Limits

/-!
# The generator between instructions

A function passes the arguments of a call in registers, and from there until the call is ended these registers are in
use and the parameters of the function itself are saved. Otherwise only the registers of the parameters are in use. No
scratch register outlives its instruction, so what has been written before shows in the generator only by the call
that is under way.

* `Linear.underway` — the arguments of the call that is under way after some code.
* `Generator.Between` — the generator between two instructions.
* `Context.step_between`, `Context.body_between` — it is so after one more instruction, and after any number.
* `Draft.Built.generator_between` — it is so throughout the code of a lowered program.
-/

namespace Spillway

/-! ### Calls under way -/

namespace Linear

/-- The arguments of the call that is under way after an instruction. -/
def Instr.underway (call : Option (List VReg)) : Instr → Option (List VReg)
  | .push arguments _ => some arguments
  | .pop .. => none
  | _ => call

/-- The arguments of the call that is under way after some code. -/
def underway (call : Option (List VReg)) (code : List Instr) : Option (List VReg) :=
  code.foldl Instr.underway call

/-- An instruction where it has its place: calls do not overlap, only the call itself and taking its result come
between passing its arguments and ending it, and it is ended with the arguments that were passed. -/
inductive Instr.Placed : Option (List VReg) → Instr → Prop
  | plain {i : Instr} : i.isCallPart = false → Placed none i
  | push {arguments : List VReg} {callee : String} : Placed none (.push arguments callee)
  | call {arguments : List VReg} {callee : String} : Placed (some arguments) (.call callee)
  | result {arguments : List VReg} {target : VReg} : Placed (some arguments) (.result target)
  | pop {arguments : List VReg} {callee : String} : Placed (some arguments) (.pop arguments callee)

/-- Code in which every instruction has its place. -/
def Orderly (call : Option (List VReg)) : List Instr → Prop
  | [] => True
  | i :: code => i.Placed call ∧ Orderly (i.underway call) code

theorem Instr.underway_of_isCallPart {i : Instr} (hi : i.isCallPart = false) (call : Option (List VReg)) :
    i.underway call = call := by
  cases i with
  | push | pop => cases hi
  | _ => rfl

theorem Orderly.of_append {call : Option (List VReg)} {before after : List Instr}
    (h : Orderly call (before ++ after)) : Orderly call before := by
  induction before generalizing call with
  | nil => trivial
  | cons i before ih => exact ⟨h.1, ih h.2⟩

variable {fits : Nat → Prop} {code : List Instr}

/-- No call is under way where the instructions of a call begin, and none where they end. -/
theorem Bracketed.orderly (h : Bracketed fits code) : Orderly none code := by
  induction h with
  | nil => trivial
  | cons hi _ _ ih => exact ⟨.plain hi, (Instr.underway_of_isCallPart hi none).symm ▸ ih⟩
  | call target _ ih =>
    cases target with
    | none => exact ⟨.push, .call, .pop, ih⟩
    | some r => exact ⟨.push, .call, .result, .pop, ih⟩

theorem Bracketed.words (h : Bracketed fits code) : ∀ i ∈ code, ∀ k, i.word? = some k → fits k := by
  induction h with
  | nil => exact List.forall_mem_nil _
  | cons _ hword _ ih => exact List.forall_mem_cons.2 ⟨hword, ih⟩
  | @call arguments callee target code _ ih =>
    refine List.forall_mem_append.2 ⟨fun i hi k hk => ?_, ih⟩
    have hnone : i.word? = none := by
      cases target <;> simp [callCode] at hi <;> rcases hi with rfl | rfl | rfl | rfl <;> rfl
    rw [hnone] at hk
    cases hk

end Linear

namespace Arm64

open Linear (Fragment Bracketed Orderly underway)

/-! ### Registers in use -/

/-- The generator between two instructions of a function with this many parameters, while this call is under way.
Besides the reserved registers those of the parameters are in use and those of the arguments, and the parameters are
saved during calls. -/
structure Generator.Between (parameters : Nat) (call : Option (List VReg)) (g : Generator) : Prop where
  scratch : g.scratch = []
  busy (k : PoolReg) : g.pool.isBusy k = true ↔
    k.val ∈ [16, 17, 18] ∨ k.val < parameters ∨ ∃ arguments ∈ call, k.val < arguments.length
  saved : g.saved = true ↔ 0 < parameters ∧ call.isSome

theorem PoolReg.isReserved_iff {k : PoolReg} : k.isReserved = true ↔ k.val ∈ [16, 17, 18] := by
  simp only [isReserved, Bool.and_eq_true, decide_eq_true_eq, List.mem_cons, List.not_mem_nil, or_false]
  omega

theorem Pool.filled_iff {p : Pool} {n : Nat} :
    p.Filled n ↔ ∀ k : PoolReg, p.isBusy k = true ↔ k.val ∈ [16, 17, 18] ∨ k.val < n := by
  refine forall_congr' fun k => ?_
  rw [Bool.eq_iff_iff, Bool.or_eq_true, PoolReg.isReserved_iff, decide_eq_true_eq]

namespace Context

variable {ctx : Context} {E : Failure → Prop} {g : Generator} {call : Option (List VReg)} {arguments : List VReg}
  {i : Linear.Instr} {code : List Linear.Instr}

/-- The parameters are saved during calls if there are any. -/
theorem parked_iff (hf : ctx.frame.Bounded) : ctx.parked = true ↔ 0 < ctx.frame.parameters.length := by
  rw [parked, ← Frame.length_parameterRegs hf, Bool.not_eq_true', List.isEmpty_eq_false_iff, List.length_pos_iff]

/-- No call is under way. -/
theorem between_none_iff : g.Between ctx.frame.parameters.length none ↔ ctx.Idle g := by
  constructor
  · intro h
    refine ⟨?_, Generator.uses_self (Pool.filled_iff.2 fun k => ?_) h.scratch⟩
    · simpa using h.saved
    · simpa using h.busy k
  · intro h
    refine ⟨h.uses.scratch_eq_nil, fun k => ?_, ?_⟩
    · simpa using Pool.filled_iff.1 h.uses.pool k
    · simp [h.saved]

/-- A call is under way. -/
theorem between_some_iff (hf : ctx.frame.Bounded) :
    g.Between ctx.frame.parameters.length (some arguments) ↔ ctx.Calling arguments.length g.skips g := by
  have hmax : ∀ k : PoolReg, k.val < max ctx.frame.parameters.length arguments.length ↔
      k.val < ctx.frame.parameters.length ∨ ∃ rs ∈ some arguments, k.val < rs.length := by
    simp
  constructor
  · intro h
    refine ⟨?_, rfl, Generator.uses_self (Pool.filled_iff.2 fun k => ?_) h.scratch⟩
    · rw [Bool.eq_iff_iff, parked_iff hf, h.saved]
      simp
    · rw [hmax]
      exact h.busy k
  · intro h
    refine ⟨h.uses.scratch_eq_nil, fun k => ?_, ?_⟩
    · rw [← hmax]
      exact Pool.filled_iff.1 h.uses.pool k
    · rw [h.saved, parked_iff hf]
      simp

/-! ### One instruction, and all of them -/

/-- An instruction after which no call is under way. -/
theorem step_between_none {Q : Unit → Generator → List Line → Prop} (h : (ctx.instr i).Ends g Q E)
    (hQ : ∀ u g' w, Q u g' w → ctx.Ended g') :
    (do
      ctx.instr i
      releaseScratch : Emit Unit).Ends g (fun _ g' _ => g'.Between ctx.frame.parameters.length none) E := by
  have hended : (ctx.instr i).Ends g (fun _ g' _ =>
      (∃ n, g'.Uses ctx.frame.parameters.length n) ∧ ctx.Ended g') E :=
    h.mono (fun u g' w hg' => ⟨(hQ u g' w hg').uses, hQ u g' w hg'⟩) fun _ he => he
  refine (step_ends (P := fun g' _ => ctx.Ended g') hended).mono (fun _ g'' _ hstep => ?_) fun _ he => he
  obtain ⟨g', hg', hsaved, -, huses⟩ := hstep
  exact between_none_iff.2 ⟨hsaved.trans hg'.saved, huses⟩

/-- An instruction after which a call is under way. -/
theorem step_between_some (hf : ctx.frame.Bounded) {k : Nat} {Q : Unit → Generator → List Line → Prop}
    (h : (ctx.instr i).Ends g Q E) (hQ : ∀ u g' w, Q u g' w → ctx.Calling arguments.length k g') :
    (do
      ctx.instr i
      releaseScratch : Emit Unit).Ends g
        (fun _ g' _ => g'.Between ctx.frame.parameters.length (some arguments)) E := by
  have hcalling : (ctx.instr i).Ends g (fun _ g' _ => (∃ n, g'.Uses
      (max ctx.frame.parameters.length arguments.length) n) ∧ ctx.Calling arguments.length k g') E :=
    h.mono (fun u g' w hg' => ⟨⟨_, (hQ u g' w hg').uses⟩, hQ u g' w hg'⟩) fun _ he => he
  refine (step_ends (P := fun g' _ => ctx.Calling arguments.length k g') hcalling).mono
    (fun _ g'' _ hstep => ?_) fun _ he => he
  obtain ⟨g', hg', hsaved, -, huses⟩ := hstep
  exact (between_some_iff hf).2 ⟨hsaved.trans hg'.saved, rfl, huses⟩

/-- An instruction during a call. -/
theorem step_during (hf : ctx.frame.Bounded) (hfits : arguments.length ≤ Limit.maxArguments)
    (h : ctx.Confined E ctx.parked (ctx.callArea arguments) 0 (ctx.instr i) fun _ => True)
    (hg : g.Between ctx.frame.parameters.length (some arguments)) :
    (do
      ctx.instr i
      releaseScratch : Emit Unit).Ends g
        (fun _ g' _ => g'.Between ctx.frame.parameters.length (some arguments)) E :=
  step_between_some hf (h.ends_calling hf hfits ((between_some_iff hf).1 hg)) fun _ _ _ hg' => hg'.1

/-- **One instruction.** Its scratch registers are given back, and it begins or ends a call or leaves the one that is
under way as it is. -/
theorem step_between (hf : ctx.frame.Bounded) (hi : i.Placed call)
    (hhomed : ∀ r ∈ i.sources ++ i.target?.toList, ctx.Homed E r) (hword : ∀ k, i.word? = some k → Reached E k)
    (hpush : ∀ {rs callee}, i = .push rs callee → rs.length ≤ Limit.maxArguments)
    (hcall : ∀ arguments ∈ call, arguments.length ≤ Limit.maxArguments)
    (hg : g.Between ctx.frame.parameters.length call) :
    (do
      ctx.instr i
      releaseScratch : Emit Unit).Ends g
        (fun _ g' _ => g'.Between ctx.frame.parameters.length (i.underway call)) E := by
  have hsources : ∀ r ∈ i.sources, ctx.Homed E r := fun r hr => hhomed r (List.mem_append_left _ hr)
  have htarget : ∀ r, i.target? = some r → ctx.Homed E r := fun r hr =>
    hhomed r (List.mem_append_right _ (Option.mem_toList.2 hr))
  cases hi with
  | plain hi =>
    rw [Linear.Instr.underway_of_isCallPart hi]
    exact step_between_none (instr_ends hf (between_none_iff.1 hg) hi hsources htarget hword)
      fun _ _ _ hg' => hg'.1
  | @push arguments callee =>
    have hlimit : ∀ l, (Linear.Instr.push arguments callee).oversized? = some l → E (.limit l) := by
      intro l hl
      rw [Linear.Instr.oversized?, if_neg (Nat.not_lt.2 (hpush rfl))] at hl
      cases hl
    exact step_between_some hf (push_ends hf (between_none_iff.1 hg) hsources hlimit) fun _ _ _ hg' => hg'.2.1
  | call => exact step_during hf (hcall _ rfl) (confined_emit (.single .call rfl)) hg
  | @result arguments target =>
    have hroom : ctx.frame.Room (ctx.callArea arguments) := Frame.room_areaBytes hf (hcall _ rfl)
    exact step_during hf (hcall _ rfl)
      (confined_store (htarget target rfl) (fun _ => hroom) Reg.ordinary_result) hg
  | pop =>
    exact step_between_none (pop_ends hf ((between_some_iff hf).1 hg) (hcall _ rfl)) fun _ _ _ hg' => hg'.1

/-- The call that is under way after an instruction is within the limits. -/
theorem underway_le (hpush : ∀ {rs callee}, i = .push rs callee → rs.length ≤ Limit.maxArguments)
    (hcall : ∀ arguments ∈ call, arguments.length ≤ Limit.maxArguments) :
    ∀ arguments ∈ i.underway call, arguments.length ≤ Limit.maxArguments := by
  cases i with
  | push arguments callee =>
    intro rs hrs
    obtain rfl := Option.some.inj hrs
    exact hpush rfl
  | pop =>
    intro rs hrs
    cases hrs
  | _ => exact hcall

/-- **Any number of instructions.** After them the generator shows the call that is under way and nothing else. -/
theorem body_between (hf : ctx.frame.Bounded) (hcode : Orderly call code)
    (hhomed : ∀ i ∈ code, ∀ r ∈ i.sources ++ i.target?.toList, ctx.Homed E r)
    (hword : ∀ i ∈ code, ∀ k, i.word? = some k → Reached E k)
    (hpush : ∀ {rs callee}, .push rs callee ∈ code → rs.length ≤ Limit.maxArguments)
    (hcall : ∀ arguments ∈ call, arguments.length ≤ Limit.maxArguments)
    (hg : g.Between ctx.frame.parameters.length call) :
    (ctx.body code).Ends g (fun _ g' _ => g'.Between ctx.frame.parameters.length (underway call code)) E := by
  -- The call that is under way goes along with the generator, and so does that its arguments are within the limits.
  induction code generalizing g call with
  | nil => exact Journal.Yields.ends ⟨(), g, [], rfl, hg⟩
  | cons i code ih =>
    obtain ⟨hplaced, hrest⟩ := hcode
    obtain ⟨hhomed, hhomed'⟩ := List.forall_mem_cons.1 hhomed
    obtain ⟨hword, hword'⟩ := List.forall_mem_cons.1 hword
    have hfirst : ∀ {rs callee}, i = .push rs callee → rs.length ≤ Limit.maxArguments := by
      rintro rs callee rfl
      exact hpush (List.mem_cons_self ..)
    exact (step_between hf hplaced hhomed hword hfirst hcall hg).bind fun _ g' _ hg' =>
      ih hrest hhomed' hword' (fun hmem => hpush (List.mem_cons_of_mem _ hmem)) (underway_le hfirst hcall) hg'

end Context

/-! ### Programs -/

/-- Where generating a program comes to a function, the functions before it have left no call under way. -/
theorem Comes.rested {symbols : SymbolTable} {fragments : List Fragment} {frag : Fragment} {g : Generator}
    (h : Comes symbols fragments frag g)
    (hcode : ∀ frag ∈ fragments.tail, Bracketed (Context.Reached fun _ => True) frag.body) : g.Rested := by
  obtain ⟨globals, before, after, blocks, w, -, rfl, hrun⟩ := h
  have hchain := Journal.chain_of_mapM follows_of_generateFunction hrun
  exact (assembles_of_chain hchain ⟨rfl, rfl⟩ fun frag hfrag => hcode frag (List.mem_append_left _ hfrag)).1

/-- **One function.** Between the instructions of a function that is within the limits. -/
theorem function_between {p : Program} {f : FunctionDecl} {k : FunctionId} {frag : Fragment} {c c' : Counters}
    {E : Failure → Prop} {parameters : List Variable} {frame : Frame} {g : Generator} {before after : List Linear.Instr}
    (h : p.InStep) (hf : p.functions.get? k = some f) (hfrag : p.Translates c f frag c')
    (hparameters : List.Forall₂ (fun x v => p.symbols.bound? f.scope x = some (.var v)) (p.parameterNames f)
      parameters)
    (hframe : Frame.layout frag.label frag.body (parameters.map (·.register)) = .ok frame)
    (hpush : ∀ {rs callee}, .push rs callee ∈ frag.body → rs.length ≤ 8)
    (hfits : (p.env f.scope).Fits (Context.Reached E)) (hg : g.Rested) (hbody : frag.body = before ++ after) :
    (Context.body ⟨frag.label, frame⟩ before).Ends (g.enter frame)
      (fun _ g' _ => g'.Between parameters.length (underway none before)) E := by
  obtain ⟨hspill, hbounded⟩ := Frame.bounded_of_layout hframe
  have hcount : frame.parameters.length = parameters.length := by
    rw [hspill]
    exact List.length_map _
  have hbracketed := hfrag.bracketed hfits
  have hmem : ∀ i ∈ before, i ∈ frag.body := fun i hi => hbody ▸ List.mem_append_left _ hi
  rw [← hcount]
  have hctx : (Context.mk frag.label frame).frame.Bounded := hbounded
  refine Context.body_between hctx ?_
    (fun i hi => homed_of_layout h hf hfrag hparameters hframe i (hmem i hi))
    (fun i hi => hbracketed.words i (hmem i hi)) (fun hi => hpush (hmem _ hi)) (fun _ hnone => by cases hnone)
    (Context.between_none_iff.2 (Context.idle_enter hctx hg))
  have horderly := hbracketed.orderly
  rw [hbody] at horderly
  exact horderly.of_append

end Arm64

open Linear (Fragment)

/-- **Between instructions.** Take a built program whose lowering succeeds, a function of it whose frame is within the
limits and which passes at most eight arguments to a call. Write its code from where generating the program comes to
it, or from any generator that is between functions. After any number of instructions no scratch register is held,
the registers in use are the reserved ones, those of the parameters and those of the arguments of the call that is
under way, and the parameters are saved if there are any and a call is under way. Writing gets there unless a struct
has too many fields to count their words. -/
theorem Draft.Built.generator_between {drift : Counters → Counters → Prop} {d : Draft} (h : d.Built drift)
    {fragments : List Fragment} {c c' : Counters} {w : List Lowering.Notice}
    (hlower : d.program.lower.run c = ⟨.ok fragments, c', w⟩) {frag : Fragment} (hfrag : frag ∈ fragments.tail) :
    (∀ g, Arm64.Comes d.program.symbols fragments frag g → g.Rested) ∧
    ∃ signature parameters, d.program.symbols.function? frag.label = .ok (some signature) ∧
      d.program.symbols.parameters signature.scope = .ok parameters ∧
      ∀ frame, Arm64.Frame.layout frag.label frag.body (parameters.map (·.register)) = .ok frame →
        (∀ {rs callee}, .push rs callee ∈ frag.body → rs.length ≤ 8) →
        ∀ g : Arm64.Generator, g.Rested → ∀ before after, frag.body = before ++ after →
          (∀ g' w', (Arm64.Context.body ⟨frag.label, frame⟩ before).run (g.enter frame) = ⟨.ok (), g', w'⟩ →
            g'.Between parameters.length (Linear.underway none before)) ∧
          (d.program.FewFields → ∃ g' w',
            (Arm64.Context.body ⟨frag.label, frame⟩ before).run (g.enter frame) = ⟨.ok (), g', w'⟩) := by
  obtain ⟨globals, functions, rfl, -, -, hchain⟩ := Program.translates_of_lower hlower
  refine ⟨fun g hg => hg.rested (Arm64.bracketed_of_chain hchain), ?_⟩
  obtain ⟨f, hmem, c₁, c₂, htranslates⟩ := hchain.exists_of_mem_right frag hfrag
  obtain ⟨k, hf⟩ := List.mem_iff_getElem?.1 hmem
  rw [← Arena.get?_eq] at hf
  obtain ⟨returns, hfunction⟩ := h.inStep.function?_eq hf
  obtain ⟨parameters, hparameters, hvariables⟩ := h.inStep.parameters_ok hf
  rw [← htranslates.1] at hfunction
  -- Whatever failures are allowed, a success is as required; where none is allowed there is a success.
  refine ⟨_, parameters, hfunction, hparameters, fun frame hframe hpush g hg before after hbody => ⟨?_, ?_⟩⟩
  · have hany : (d.program.env f.scope).Fits (Arm64.Context.Reached fun _ => True) :=
      ⟨fun _ _ _ => trivial, fun _ _ _ => trivial⟩
    exact (Arm64.function_between h.inStep hf htranslates hvariables hframe hpush hany hg hbody).1 ()
  · intro hfew
    have hfits : (d.program.env f.scope).Fits (Arm64.Context.Reached fun _ => False) :=
      hfew.fits (fun _ => Arm64.Context.reached_of_lt) f.scope
    obtain ⟨_, g', w', hrun, -⟩ | ⟨_, _, _, _, hfalse⟩ :=
      (Arm64.function_between h.inStep hf htranslates hvariables hframe hpush hfits hg hbody).cases
    · exact ⟨g', w', hrun⟩
    · exact hfalse.elim

namespace Draft

/-- The nodes of a function that returns the first of its parameters, and of one that passes its parameter twice to
that function. -/
def doubleNodes : Nodes where
  exprs := ⟨#[.name "a", .call "pair" [0, 0]]⟩
  stmts := ⟨#[.ret (some 0), .ret (some 1)]⟩

/-- The program with these two functions. -/
def doubling : Draft :=
  ((do
    let k ← declareFunction "pair" [("a", .int), ("b", .int)] .int
    pushStatement k 0
    let m ← declareFunction "double" [("a", .int)] .int
    pushStatement m 1 : Extend Unit).run ⟨{ nodes := doubleNodes }, {}⟩).state

theorem built_doubling (drift : Counters → Counters → Prop) : doubling.Built drift := by
  have hnodes := Built.ofNodes drift doubleNodes {}
  have hpair := hnodes.add (.declareFunction
    (show (declareFunction "pair" [("a", .int), ("b", .int)] .int).run _ = _ from rfl)) ⟨rfl, by decide⟩
  have hfirst := hpair.add (.pushStatement (show (pushStatement 0 0).run _ = _ from rfl)) trivial
  have hdouble := hfirst.add (.declareFunction
    (show (declareFunction "double" [("a", .int)] .int).run _ = _ from rfl)) ⟨rfl, by decide⟩
  exact hdouble.add (.pushStatement (show (pushStatement 1 1).run _ = _ from rfl)) trivial

/-- The code of the second function up to the call, and the rest. -/
def doubleCode : List Linear.Instr × List Linear.Instr :=
  ([.push [⟨2⟩, ⟨2⟩] "pair", .call "pair"], [.result ⟨3⟩, .pop [⟨2⟩, ⟨2⟩] "pair", .ret (some (.reg ⟨3⟩))])

/-- During the call in `Draft.doubling` the registers of both arguments are in use, of which one is that of the
parameter, and the parameter is saved. -/
theorem generator_between_doubling :
    doubling.Built (fun c _ => c.Modest) ∧ doubling.program.FewFields ∧ ∃ fragments c w frag frame g,
      doubling.program.lower.run doubling.counters = ⟨.ok fragments, c, w⟩ ∧ frag ∈ fragments.tail ∧
      frag.body = doubleCode.1 ++ doubleCode.2 ∧ Arm64.Comes doubling.program.symbols fragments frag g ∧
      g.Rested ∧ ∃ g' w',
        (Arm64.Context.body ⟨frag.label, frame⟩ doubleCode.1).run (g.enter frame) = ⟨.ok (), g', w'⟩ ∧
        g'.Between 1 (some [⟨2⟩, ⟨2⟩]) ∧ g'.saved = true ∧
        g'.pool.busyRegs.map Fin.val = [0, 1, 16, 17, 18] := by
  have hfew : doubling.program.FewFields := (built_doubling fun c _ => c.Modest).fewFields (by decide)
  obtain ⟨fragments, c, w, hlower, hfragments⟩ : ∃ fragments c w,
      doubling.program.lower.run doubling.counters = ⟨.ok fragments, c, w⟩ ∧
      fragments = [⟨Fragment.globalsLabel, []⟩, ⟨"pair", [.ret (some (.reg ⟨0⟩))]⟩,
        ⟨"double", doubleCode.1 ++ doubleCode.2⟩] := ⟨_, _, _, rfl, rfl⟩
  subst hfragments
  have hmem : (⟨"double", doubleCode.1 ++ doubleCode.2⟩ : Fragment) ∈
      [⟨"pair", [.ret (some (.reg ⟨0⟩))]⟩, ⟨"double", doubleCode.1 ++ doubleCode.2⟩] := by simp
  obtain ⟨g, hcomes⟩ : ∃ g, Arm64.Comes doubling.program.symbols _ ⟨"double", doubleCode.1 ++ doubleCode.2⟩ g :=
    ⟨_, ⟨Fragment.globalsLabel, []⟩, [⟨"pair", [.ret (some (.reg ⟨0⟩))]⟩], [], _, _, rfl, rfl, rfl⟩
  obtain ⟨hrested, signature, parameters, hfunction, hparameters, hbetween⟩ :=
    Built.generator_between (built_doubling fun c _ => c.Modest) hlower hmem
  obtain rfl : signature = ⟨.int, 2⟩ := Option.some.inj (Except.ok.inj (hfunction.symm.trans rfl))
  obtain rfl : parameters = [{ ty := .int, register := ⟨2⟩ }] := Except.ok.inj (hparameters.symm.trans rfl)
  have hpush : ∀ {rs callee}, .push rs callee ∈ doubleCode.1 ++ doubleCode.2 → rs.length ≤ 8 := by
    simp [doubleCode]
  obtain ⟨hafter, hsuccess⟩ :=
    hbetween ⟨[⟨2⟩], [⟨3⟩]⟩ rfl hpush g (hrested g hcomes) doubleCode.1 doubleCode.2 rfl
  obtain ⟨g', w', hrun⟩ := hsuccess hfew
  have hg' : g'.Between 1 (some [⟨2⟩, ⟨2⟩]) := hafter g' w' hrun
  have hbusy : g'.pool.busyRegs = Arm64.PoolReg.all.filter fun k => k.val ∈ [16, 17, 18] ∨ k.val < 2 := by
    refine List.filter_congr fun k _ => ?_
    have hlt : k.val < 1 ∨ k.val < 2 ↔ k.val < 2 := by omega
    rw [Bool.eq_iff_iff, hg'.busy, decide_eq_true_iff]
    simp only [Option.mem_some_iff, exists_eq_left', List.length_cons, List.length_nil, Nat.zero_add,
      Nat.reduceAdd, hlt]
  refine ⟨built_doubling _, hfew, _, c, w, _, _, g, hlower, hmem, rfl, hcomes, hrested g hcomes, g', w', hrun, hg',
    hg'.saved.2 ⟨Nat.one_pos, rfl⟩, ?_⟩
  rw [hbusy]
  decide

end Draft

end Spillway
