import Spillway.Proofs.Arm64.Blocks
import Spillway.Proofs.Arm64.Skips
import Spillway.Proofs.Distinct
import Spillway.Proofs.Lowering.Globals
import Spillway.Proofs.Lowering.Written
import Spillway.Proofs.Program.Fields

/-!
# Limits of the target

Code generation of a lowered program fails for three reasons only: a function has too many parameters, its frame is
too large, or it passes too many arguments to a call. The frame is as large as the code of the function writes
registers, each counted once and those of the parameters not at all.

* `Program.WithinLimits` — a function that is within the limits.
* `Program.Exceeds` — the limit that is reported for a function that is not.
* `Draft.Built.generate_limits` — code generation fails exactly for the first such function.
-/

namespace Spillway

open Linear (Fragment)

/-! ### Functions beyond the limits -/

namespace Program

/-- The registers of a function's parameters. -/
def parameterRegisters (p : Program) (f : FunctionDecl) : List VReg :=
  (p.parameterNames f).filterMap fun x => (p.symbols.bound? f.scope x).bind Entry.register?

/-- The registers that the code of a function writes, those of its parameters left out. -/
def spilled (p : Program) (f : FunctionDecl) (frag : Fragment) : Finset VReg :=
  ((Fragment.targets frag.body).filter (· ∉ p.parameterRegisters f)).toFinset

/-- A function whose code is within the limits of the target. -/
structure WithinLimits (p : Program) (f : FunctionDecl) (frag : Fragment) : Prop where
  parameters : (p.parameterNames f).length ≤ 8
  registers : (p.spilled f frag).card ≤ 510
  arguments : ∀ {rs callee}, .push rs callee ∈ frag.body → rs.length ≤ 8

/-- The limit that is reported for a function: its parameters come first, then its frame, then the first call with
too many arguments. -/
inductive Exceeds (p : Program) (f : FunctionDecl) (frag : Fragment) : Limit → Prop
  | parameters :
      8 < (p.parameterNames f).length →
      Exceeds p f frag (.tooManyParameters f.name (p.parameterNames f).length)
  /-- The frame has one word for each register, and its size is rounded up to a multiple of 16. -/
  | frame :
      (p.parameterNames f).length ≤ 8 → 510 < (p.spilled f frag).card →
      Exceeds p f frag (.frameTooLarge f.name ((8 * (p.spilled f frag).card + 15) / 16 * 16))
  | arguments {before after : List Linear.Instr} {rs : List VReg} {callee : String} :
      (p.parameterNames f).length ≤ 8 → (p.spilled f frag).card ≤ 510 →
      frag.body = before ++ .push rs callee :: after →
      (∀ {rs' callee'}, .push rs' callee' ∈ before → rs'.length ≤ 8) → 8 < rs.length →
      Exceeds p f frag (.tooManyArguments callee rs.length)

/-- The limit that is reported for the first of several functions that is not within the limits. -/
inductive FirstExceeds (p : Program) : List FunctionDecl → List Fragment → Limit → Prop
  | here {f : FunctionDecl} {frag : Fragment} {fs : List FunctionDecl} {frags : List Fragment} {l : Limit} :
      p.Exceeds f frag l → FirstExceeds p (f :: fs) (frag :: frags) l
  | there {f : FunctionDecl} {frag : Fragment} {fs : List FunctionDecl} {frags : List Fragment} {l : Limit} :
      p.WithinLimits f frag → FirstExceeds p fs frags l → FirstExceeds p (f :: fs) (frag :: frags) l

variable {p : Program} {f : FunctionDecl} {frag : Fragment} {l : Limit}

theorem Exceeds.not_within (h : p.Exceeds f frag l) : ¬ p.WithinLimits f frag := by
  intro hwithin
  cases h with
  | parameters hlt => exact Nat.not_lt.2 hwithin.parameters hlt
  | frame _ hlt => exact Nat.not_lt.2 hwithin.registers hlt
  | @arguments before after rs callee _ _ hbody _ hlt =>
    have hmem : .push rs callee ∈ frag.body := by
      rw [hbody]
      exact List.mem_append_right _ (List.mem_cons_self ..)
    exact Nat.not_lt.2 (hwithin.arguments hmem) hlt

theorem FirstExceeds.not_within {fs : List FunctionDecl} {frags : List Fragment} (h : p.FirstExceeds fs frags l) :
    ¬ List.Forall₂ p.WithinLimits fs frags := by
  induction h with
  | here hexceeds => exact fun hall => hexceeds.not_within (List.forall₂_cons.1 hall).1
  | there _ _ ih => exact fun hall => ih (List.forall₂_cons.1 hall).2

end Program

namespace Linear

/-- The first instruction that passes too many arguments. -/
theorem exists_of_oversized? {code : List Instr} {l : Limit} (h : oversized? code = some l) :
    ∃ before after rs callee, code = before ++ .push rs callee :: after ∧
      (∀ {rs' callee'}, .push rs' callee' ∈ before → rs'.length ≤ 8) ∧ 8 < rs.length ∧
      l = .tooManyArguments callee rs.length := by
  obtain ⟨before, i, after, rfl, hi, hbefore⟩ := List.findSome?_eq_some_iff.1 h
  cases i with
  | push rs callee =>
    rw [Instr.oversized?] at hi
    split at hi
    · cases hi
      refine ⟨before, after, rs, callee, rfl, fun {rs' callee'} hpush => ?_, ‹_›, rfl⟩
      have hnone := hbefore _ hpush
      rw [Instr.oversized?] at hnone
      split at hnone
      · cases hnone
      · exact Nat.not_lt.1 ‹_›
    · cases hi
  | _ => cases hi

end Linear

/-! ### Frames -/

namespace Arm64

/-- The slots of a frame are the registers that the code writes, each once. -/
theorem Frame.length_slots_spill (body : List Linear.Instr) (parameters : List VReg) :
    (Frame.spill body parameters).slots.length
      = ((Fragment.targets body).filter (· ∉ parameters)).toFinset.card := by
  rw [slots_spill, length_eraseDups]

variable {p : Program} {f : FunctionDecl} {frag : Fragment}

theorem within_of_layout {frame : Frame}
    (hlength : (p.parameterRegisters f).length = (p.parameterNames f).length)
    (h : Frame.layout f.name frag.body (p.parameterRegisters f) = .ok frame) :
    (p.parameterNames f).length ≤ 8 ∧ (p.spilled f frag).card ≤ 510 := by
  obtain ⟨rfl, hbounded⟩ := Frame.bounded_of_layout h
  refine ⟨?_, ?_⟩
  · rw [← hlength]
    exact hbounded.parameters
  · rw [Program.spilled, ← Frame.length_slots_spill]
    exact hbounded.slots

theorem exceeds_of_layout {l : Limit}
    (hlength : (p.parameterRegisters f).length = (p.parameterNames f).length)
    (h : Frame.layout f.name frag.body (p.parameterRegisters f) = .error l) : p.Exceeds f frag l := by
  have hslots : (Frame.spill frag.body (p.parameterRegisters f)).slots.length = (p.spilled f frag).card :=
    Frame.length_slots_spill ..
  have hparameters : (Frame.spill frag.body (p.parameterRegisters f)).parameters.length
      = (p.parameterNames f).length := hlength
  rw [Frame.layout, Frame.checked, hparameters, Frame.bytes, hslots, Word.areaBytes, Word.alignment] at h
  split at h
  · cases h
    exact .parameters ‹_›
  · rename_i hle
    split at h
    · rename_i hlt
      rw [Limit.maxFrameBytes] at hlt
      have hsize : ((p.spilled f frag).card + 1) / 2 * 16 = (8 * (p.spilled f frag).card + 15) / 16 * 16 := by
        omega
      cases h
      rw [hsize]
      exact .frame (Nat.not_lt.1 hle) (by omega)
    · cases h

/-! ### Functions -/

/-- The words of a struct whose fields can be told apart are all within reach. -/
theorem Context.reached_of_lt {E : Failure → Prop} {k : Nat} (hk : k < Counters.capacity) : Reached E k := by
  intro t ht
  have hmax : Int64.maxValue.toInt = 9223372036854775807 := by decide
  have hfits : (Word.bytes * k : Int) ≤ Int64.maxValue.toInt := by
    rw [Counters.capacity] at hk
    rw [hmax, Word.bytes]
    omega
  obtain ⟨offset, -, hok⟩ := displacement_eq_ok hfits
  rw [hok] at ht
  cases ht

theorem Context.Writes.arguments_le {ctx : Context} {n n' : Nat} {code : List Linear.Instr} {w : List Line}
    (h : ctx.Writes n code w n') : ∀ {rs callee}, .push rs callee ∈ code → rs.length ≤ 8 := by
  intro rs callee hmem
  induction h with
  | nil => cases hmem
  | @straight n n' i code w w' hi _ _ ih =>
    rcases List.mem_cons.1 hmem with rfl | hmem
    · cases hi
    · exact ih hmem
  | @call n n' arguments name target code w w' hle _ _ ih =>
    rcases List.mem_append.1 hmem with hmem | hmem
    · cases target <;> simp [Linear.callCode] at hmem <;> exact hmem.1 ▸ hle
    · exact ih hmem
  | skip _ _ ih | branch _ ih | branchOn _ ih | label _ ih | leave _ _ ih =>
    rcases List.mem_cons.1 hmem with hmem | hmem
    · cases hmem
    · exact ih hmem

/-- The registers of a function's parameters, from its variables. -/
theorem parameterRegisters_eq {vs : List Variable}
    (hvs : List.Forall₂ (fun x v => p.symbols.bound? f.scope x = some (.var v)) (p.parameterNames f) vs) :
    p.parameterRegisters f = vs.map (·.register) := by
  rw [Program.parameterRegisters]
  generalize p.parameterNames f = names at hvs
  induction hvs with
  | nil => rfl
  | cons hv _ ih =>
    rw [List.filterMap_cons, hv, List.map_cons, ← ih]
    rfl

/-- Every register that the code of a function names has a home. -/
theorem homed_of_layout {E : Failure → Prop} {k : FunctionId} {c c' : Counters} {vs : List Variable}
    {name : String} {frame : Frame} (h : p.InStep) (hf : p.functions.get? k = some f)
    (hfrag : p.Translates c f frag c')
    (hvs : List.Forall₂ (fun x v => p.symbols.bound? f.scope x = some (.var v)) (p.parameterNames f) vs)
    (hframe : Frame.layout name frag.body (vs.map (·.register)) = .ok frame) :
    ∀ i ∈ frag.body, ∀ r ∈ i.sources ++ i.target?.toList, Context.Homed ⟨name, frame⟩ E r := by
  obtain ⟨hspill, hbounded⟩ := Frame.bounded_of_layout hframe
  have htargets : ∀ i ∈ frag.body, ∀ r, i.target? = some r → r ∈ { r | ∃ l, frame.location? r = some l } :=
    fun i hi r hr => Frame.located_of_layout hframe hi hr
  have hsources := (hfrag.lowers (Nat.le_refl _)).sources_within h hf hvs (fun v hv => ?_) htargets
  · intro i hi r hr hnone
    obtain ⟨l, hl⟩ : ∃ l, frame.location? r = some l := by
      rcases List.mem_append.1 hr with hr | hr
      · exact hsources i hi r hr
      · exact htargets i hi r (Option.mem_toList.1 hr)
    rw [hl] at hnone
    cases hnone
  · have hmem : v.register ∈ frame.parameters := by
      rw [hspill]
      exact List.mem_map_of_mem hv
    obtain ⟨i, hi⟩ := Frame.exists_parameter? hbounded hmem
    exact ⟨.parameter i, by rw [Frame.location?, hi]⟩

/-- **One function.** Generating its block succeeds if it is within the limits, and reports the limit that it is
beyond otherwise. -/
theorem function_ends {k : FunctionId} {c c' : Counters} {g : Generator} (h : p.InStep) (hfields : p.FewFields)
    (hf : p.functions.get? k = some f) (hfrag : p.Translates c f frag c') (hg : g.Rested) :
    (generateFunction p.symbols frag).Ends g (fun _ g' _ => g'.Rested ∧ p.WithinLimits f frag)
      fun e => ∃ l, e = .limit l ∧ p.Exceeds f frag l := by
  obtain ⟨returns, hfunction⟩ := h.function?_eq hf
  obtain ⟨vs, hparameters, hvs⟩ := h.parameters_ok hf
  have hregisters := parameterRegisters_eq hvs
  have hlength : (p.parameterRegisters f).length = (p.parameterNames f).length := by
    rw [hregisters, List.length_map, hvs.length_eq]
  have hlabel := hfrag.1
  have hwithin : ∀ {frame}, Frame.layout frag.label frag.body (vs.map (·.register)) = .ok frame →
      (p.parameterNames f).length ≤ 8 ∧ (p.spilled f frag).card ≤ 510 := by
    intro frame hframe
    rw [hlabel, ← hregisters] at hframe
    exact within_of_layout hlength hframe
  rw [← hlabel] at hfunction
  refine (generateFunction_ends hfunction hparameters hg
    (hfrag.bracketed (hfields.fits (fun _ => Context.reached_of_lt) f.scope)) ?_
    (fun frame => homed_of_layout h hf hfrag hvs) ?_).mono
      (fun block g' _ ⟨hg', hblock⟩ => ⟨hg', ?_⟩) fun _ he => he
  · intro l hl
    rw [hlabel, ← hregisters] at hl
    exact ⟨l, rfl, exceeds_of_layout hlength hl⟩
  · intro frame hframe l hl
    obtain ⟨before, after, rs, callee, hbody, hbefore, hlt, rfl⟩ := Linear.exists_of_oversized? hl
    exact ⟨_, rfl, .arguments (hwithin hframe).1 (hwithin hframe).2 hbody hbefore hlt⟩
  · obtain ⟨signature, parameters, frame, hfunction', hparameters', hframe, body, hwrites, -⟩ := hblock
    obtain rfl := Option.some.inj (Except.ok.inj (hfunction.symm.trans hfunction'))
    obtain rfl := Except.ok.inj (hparameters.symm.trans hparameters')
    exact ⟨(hwithin hframe).1, (hwithin hframe).2, hwrites.arguments_le⟩

/-- **One function after the other.** The first one that is beyond the limits is reported. -/
theorem functions_end {c c' : Counters} {fs : List FunctionDecl} {frags : List Fragment} {g : Generator}
    (h : p.InStep) (hfields : p.FewFields) (hfs : ∀ f ∈ fs, ∃ k, p.functions.get? k = some f)
    (hfrags : Journal.Chain p.Translates c fs frags c') (hg : g.Rested) :
    (frags.mapM (generateFunction p.symbols)).Ends g (fun _ _ _ => List.Forall₂ p.WithinLimits fs frags)
      fun e => ∃ l, e = .limit l ∧ p.FirstExceeds fs frags l := by
  induction hfrags generalizing g with
  | nil => exact Journal.Yields.ends ⟨[], g, [], rfl, .nil⟩
  | cons hfrag _ ih =>
    obtain ⟨⟨k, hk⟩, hfs⟩ := List.forall_mem_cons.1 hfs
    rw [List.mapM_cons]
    refine ((function_ends h hfields hk hfrag hg).mono (fun _ _ _ hQ => hQ)
      fun e ⟨l, he, hl⟩ => ⟨l, he, .here hl⟩).bind fun block g₁ _ ⟨hg₁, hwithin⟩ => ?_
    refine ((ih hfs hg₁).mono (fun _ _ _ hQ => hQ)
      fun e ⟨l, he, hl⟩ => ⟨l, he, .there hwithin hl⟩).bind fun blocks g₂ _ hrest => ?_
    exact Journal.Yields.ends ⟨_, g₂, [], rfl, .cons hwithin hrest⟩

/-- **Programs.** The fragment of the globals is not laid out, so it may write any number of registers. -/
theorem generate_ends {c c' : Counters} {globals : Fragment} {functions : List Fragment} (h : p.InStep)
    (hfields : p.FewFields) (hglobals : globals.label = Fragment.globalsLabel)
    (hfunctions : Journal.Chain p.Translates c p.functions.toList functions c') (g : Generator) :
    (generate (globals :: functions) p.symbols).Ends g
      (fun _ _ _ => List.Forall₂ p.WithinLimits p.functions.toList functions)
      fun e => ∃ l, e = .limit l ∧ p.FirstExceeds p.functions.toList functions l := by
  have hfs : ∀ f ∈ p.functions.toList, ∃ k, p.functions.get? k = some f := by
    intro f hf
    obtain ⟨k, hk, rfl⟩ := List.getElem_of_mem hf
    exact ⟨k, by rw [Arena.get?_eq, List.getElem?_eq_getElem hk]⟩
  have hset : (set ({} : Generator) : Generate PUnit).Yields g fun _ g' _ => g' = {} := ⟨⟨⟩, _, [], rfl, rfl⟩
  rw [generate]
  refine hset.ends.bind fun _ g₁ _ hg₁ => ?_
  subst hg₁
  have hfirst : globals.isGlobals = true := decide_eq_true hglobals
  rw [if_pos hfirst]
  refine (functions_end h hfields hfs hfunctions ⟨rfl, rfl⟩).bind fun blocks g₂ _ hwithin => ?_
  exact Journal.Yields.ends ⟨_, g₂, [], rfl, hwithin⟩

end Arm64

/-! ### Programs -/

namespace Draft

/-- **Limits.** Take a built program whose registers could always be told apart and whose lowering succeeds.
Generating code for its fragments succeeds exactly if every function is within the limits of the target. It fails
otherwise with the limit of the first function that is not, and it never fails in another way. The numbers of
conditional moves do not run out before those of registers. -/
theorem Built.generate_limits {d : Draft} (h : d.Built fun c _ => c.Modest) (hd : d.counters.Modest)
    {fragments : List Fragment} {c c' : Counters} {w : List Lowering.Notice}
    (hlower : d.program.lower.run c = ⟨.ok fragments, c', w⟩) (g : Arm64.Generator) :
    ∃ globals functions, fragments = globals :: functions ∧
      List.Forall₂ (fun f frag => frag.label = f.name) d.program.functions.toList functions ∧
      ((∃ lines, ((Arm64.generate fragments d.program.symbols).run g).result = .ok lines) ↔
        List.Forall₂ d.program.WithinLimits d.program.functions.toList functions) ∧
      (¬ List.Forall₂ d.program.WithinLimits d.program.functions.toList functions →
        ∃ l, d.program.FirstExceeds d.program.functions.toList functions l ∧
          ((Arm64.generate fragments d.program.symbols).run g).result = .error (.limit l)) ∧
      (∀ name bytes, (Limit.frameTooLarge name bytes).message
        = s!"stack frame of `{name}` needs {bytes} bytes, at most {4080} are encodable") ∧
      (c'.Modest → (Arm64.generateCounted fragments d.program.symbols).run g
        = (Arm64.generate fragments d.program.symbols).run g) := by
  have hnumbers (hc : c'.Modest) := Program.generateCounted_run hlower hc d.program.symbols g
  obtain ⟨globals, functions, rfl, hglobals, -, hchain⟩ := Program.translates_of_lower hlower
  have hnames : List.Forall₂ (fun f frag => frag.label = f.name) d.program.functions.toList functions :=
    hchain.forall₂ fun hfrag => hfrag.1
  refine ⟨globals, functions, rfl, hnames, ?_⟩
  rw [← and_assoc]
  refine ⟨?_, fun _ _ => rfl, hnumbers⟩
  rcases (Arm64.generate_ends h.inStep (h.fewFields hd) hglobals hchain g).cases with
    ⟨lines, g', w', hrun, hwithin⟩ | ⟨_, g', w', hrun, l, rfl, hl⟩
  · rw [hrun]
    exact ⟨⟨fun _ => hwithin, fun _ => ⟨lines, rfl⟩⟩, fun hnot => absurd hwithin hnot⟩
  · rw [hrun]
    exact ⟨⟨nofun, fun hwithin => absurd hwithin hl.not_within⟩, fun _ => ⟨l, hl, rfl⟩⟩

/-- Nine parameters. -/
def nineParameters : List (String × Ty) := ["a", "b", "c", "d", "e", "f", "g", "h", "i"].map (·, .int)

/-- `Draft.sumDown` and a second function, with nine parameters. -/
def sumWide : Draft := ((declareFunction "wide" nineParameters .void).run sumDown).state

theorem built_sumWide (drift : Counters → Counters → Prop) : sumWide.Built drift :=
  (built_sumDown drift).add (.declareFunction
    (show (declareFunction "wide" nineParameters .void).run sumDown = _ from rfl)) ⟨rfl, by decide⟩

/-- The second function of `Draft.sumWide` is beyond the limits, and the first is not. -/
theorem generate_limits_sumWide :
    sumWide.Built (fun c _ => c.Modest) ∧ sumWide.counters.Modest ∧ ∃ fragments c w,
      sumWide.program.lower.run sumWide.counters = ⟨.ok fragments, c, w⟩ ∧
      ((Arm64.generate fragments sumWide.program.symbols).run {}).result
        = .error (.limit (.tooManyParameters "wide" 9)) ∧
      ∃ functions, sumWide.program.FirstExceeds sumWide.program.functions.toList functions
        (.tooManyParameters "wide" 9) := by
  have hmodest : sumWide.counters.Modest := by decide
  obtain ⟨fragments, c, w, hlower, hresult⟩ : ∃ fragments c w,
      sumWide.program.lower.run sumWide.counters = ⟨.ok fragments, c, w⟩ ∧
      ((Arm64.generate fragments sumWide.program.symbols).run {}).result
        = .error (.limit (.tooManyParameters "wide" 9)) := ⟨_, _, _, rfl, rfl⟩
  obtain ⟨globals, functions, -, -, hiff, hlimit, -⟩ :=
    Built.generate_limits (built_sumWide fun c _ => c.Modest) hmodest hlower {}
  have hnot : ¬ List.Forall₂ sumWide.program.WithinLimits sumWide.program.functions.toList functions := by
    intro hwithin
    obtain ⟨lines, hlines⟩ := hiff.2 hwithin
    rw [hresult] at hlines
    cases hlines
  obtain ⟨l, hl, herror⟩ := hlimit hnot
  rw [hresult] at herror
  cases herror
  exact ⟨built_sumWide _, hmodest, fragments, c, w, hlower, hresult, functions, hl⟩

end Draft

/-! ### Globals -/

/-- **Globals are not limited.** A program without functions compiles, however many globals it has. -/
theorem Draft.globals_unlimited {names : List String} (hdup : names.Nodup)
    (hfew : names.length < Counters.capacity) :
    ∃ (d : Draft) (frag : Fragment) (w : List Lowering.Notice), d.Built (fun c _ => c.Modest) ∧ d.counters.Modest ∧
      d.program.functions.toList = [] ∧ d.program.lower.run d.counters = ⟨.ok [frag], d.counters, w⟩ ∧
      (Fragment.targets frag.body).toFinset.card = names.length ∧
      ∃ lines, ((Arm64.generate [frag] d.program.symbols).run {}).result = .ok lines := by
  obtain ⟨d, hbuilt, rfl, hfunctions, hregisters, hbound⟩ := exists_globals (fun c _ => c.Modest) hdup
  have hreg : ∀ x ∈ d.program.globals,
      (d.program.env SymbolTable.global).registerOf x = .ok ⟨d.program.globals.idxOf x⟩ := by
    intro x hx
    exact hbuilt.inStep.wellScoped.registerOf_global ((hbound x).trans (if_pos hx))
  obtain ⟨w, hlower⟩ := Program.lower_globals hfunctions hreg d.counters
  refine ⟨d, _, w, hbuilt, ?_, ?_, hlower, ?_, _, rfl⟩
  · rw [Counters.Modest, hregisters]
    exact hfew
  · rw [hfunctions]
    rfl
  · rw [Fragment.targets_clearing, List.toFinset_card_of_nodup, List.length_map]
    refine hdup.map_on fun x hx y _ hxy => ?_
    exact (List.idxOf_inj hx).1 (VReg.mk.inj hxy)

/-- The fragment of the globals may write 511 registers, although no function may. -/
theorem Draft.generate_many_globals :
    ∃ (d : Draft) (frag : Fragment) (w : List Lowering.Notice), d.Built (fun c _ => c.Modest) ∧ d.counters.Modest ∧
      d.program.functions.toList = [] ∧ d.program.lower.run d.counters = ⟨.ok [frag], d.counters, w⟩ ∧
      (Fragment.targets frag.body).toFinset.card = 511 ∧
      ∃ lines, ((Arm64.generate [frag] d.program.symbols).run {}).result = .ok lines := by
  have hdup : ((List.range 511).map fun k => "g" ++ k.repr).Nodup := by
    refine List.nodup_range.map fun k l h => ?_
    have hdigits : Nat.toDigits 10 k = Nat.toDigits 10 l := by
      rw [← Nat.toList_repr, ← Nat.toList_repr, (String.append_right_inj _).1 h]
    simpa using congrArg (fun ds => Nat.ofDigitChars 10 ds 0) hdigits
  have hlength : ((List.range 511).map fun k => "g" ++ k.repr).length = 511 := by
    rw [List.length_map, List.length_range]
  obtain ⟨d, frag, w, hbuilt, hmodest, hfunctions, hlower, hcard, hlines⟩ :=
    globals_unlimited hdup (by rw [hlength]; decide)
  exact ⟨d, frag, w, hbuilt, hmodest, hfunctions, hlower, hcard.trans hlength, hlines⟩

end Spillway
