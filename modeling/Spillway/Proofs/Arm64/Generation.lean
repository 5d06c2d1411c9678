import Spillway.Proofs.Arm64.Outcome

/-!
# Generating functions one after the other

A function is generated in the state that the functions before it left. Whatever they were, no scratch register is
held between functions, so the outcome of every instruction is known in the place where it stands.

* `Comes`, `Visits` — generating a program comes to a function, and to an instruction of it.
* `generate_spares_registers` — the registers that are taken and those that are given values.
-/

namespace Spillway.Arm64

open Linear (Fragment)

variable {g g' : Generator} {symbols : SymbolTable} {fragments : List Fragment} {frag : Fragment} {frame : Frame}
  {returns : Ty} {block : List Line}

/-! ### One function -/

/-- The function of a fragment is declared, and its frame is laid out. -/
def Lays (symbols : SymbolTable) (frag : Fragment) (frame : Frame) (returns : Ty) : Prop :=
  ∃ signature parameters, symbols.function? frag.label = .ok (some signature) ∧
    symbols.parameters signature.scope = .ok parameters ∧
    Frame.layout frag.label frag.body (parameters.map (·.register)) = .ok frame ∧ signature.returns = returns

theorem layout_run {parameters : List VReg} (h : Frame.layout frag.label frag.body parameters = .ok frame)
    (g : Generator) : ∃ w, (layout frag parameters).run g = ⟨.ok frame, g, w⟩ := by
  have hends : (layout frag parameters).Ends g (fun frame' g' _ => g' = g ∧
      Frame.layout frag.label frag.body parameters = .ok frame') fun _ => False :=
    layout_ends fun l hl => by rw [h] at hl; cases hl
  obtain ⟨frame', g', w, hrun, rfl, hframe⟩ | ⟨_, _, _, _, hfalse⟩ := hends.cases
  · rw [h] at hframe
    cases hframe
    exact ⟨w, hrun⟩
  · exact hfalse.elim

/-- Generating the block of a function that is declared with these parameters. -/
theorem generateFunction_eq_layout {signature : Signature} {parameters : List Variable}
    (hfunction : symbols.function? frag.label = .ok (some signature))
    (hparameters : symbols.parameters signature.scope = .ok parameters) :
    generateFunction symbols frag = (layout frag (parameters.map (·.register)) >>= fun frame => (do
      modify fun g => g.enter frame
      narrate (Context.block ⟨frag.label, frame⟩ frag.body signature.returns))) := by
  rw [generateFunction_eq hfunction, hparameters]
  rfl

/-- The run of a function is that of its block. -/
theorem Lays.run (h : Lays symbols frag frame returns) (g : Generator) :
    ∃ w, (generateFunction symbols frag).run g
      = ⟨((Context.block ⟨frag.label, frame⟩ frag.body returns).run (g.enter frame)).result.map fun _ =>
          ((Context.block ⟨frag.label, frame⟩ frag.body returns).run (g.enter frame)).entries,
        ((Context.block ⟨frag.label, frame⟩ frag.body returns).run (g.enter frame)).state, w⟩ := by
  obtain ⟨signature, parameters, hfunction, hparameters, hframe, rfl⟩ := h
  obtain ⟨w, hlayout⟩ := layout_run hframe g
  rw [generateFunction_eq_layout hfunction hparameters, Journal.bind_run, hlayout]
  exact ⟨_, rfl⟩

/-- The outcome of a block's code where the function begins. -/
theorem enter_outcome (frag : Fragment) (frame : Frame) (returns : Ty) (hg : g.scratch = []) :
    Context.Outcome ⟨frag.label, frame⟩ (Context.block ⟨frag.label, frame⟩ frag.body returns) (g.enter frame)
      (fun _ t => t.scratch = []) (frag.body.flatMap (Context.obstacles ⟨frag.label, frame⟩))
      (frag.body.filterMap Linear.Instr.format?) :=
  Context.block_outcome ⟨frag.label, frame⟩ (.enter hg frame) hg frag.body returns

/-- **Functions.** Where no scratch register is held, a function that is laid out fails with the first obstacle in
the way of its body's code. -/
theorem Lays.eval_error_iff (h : Lays symbols frag frame returns) (hg : g.scratch = []) {e : Failure} :
    (generateFunction symbols frag).eval g = .error e ↔
      (frag.body.flatMap (Context.obstacles ⟨frag.label, frame⟩)).head? = some e := by
  obtain ⟨w, hrun⟩ := h.run g
  rw [Journal.eval, hrun]
  have houtcome := enter_outcome frag frame returns hg
  generalize frag.body.flatMap (Context.obstacles ⟨frag.label, frame⟩) = es at houtcome ⊢
  cases houtcome with
  | done hblock _ _ _ _ _ =>
    rw [hblock]
    constructor
    · intro herror
      cases herror
    · intro hhead
      cases hhead
  | failed hblock _ _ _ =>
    rw [hblock]
    constructor
    · intro herror
      cases herror
      rfl
    · intro hhead
      cases hhead
      rfl

/-! ### What is not the fault of the pool -/

section Queries

variable {ε α β : Type} {e : ε} {x : Except ε α} {k : α → Except ε β}

theorem bind_ne_error (hx : x ≠ .error e) (hk : ∀ a, k a ≠ .error e) : x >>= k ≠ .error e := by
  cases x with
  | error e' =>
    intro h
    cases h
    exact hx rfl
  | ok a => exact hk a

theorem mapM_ne_error (hk : ∀ a, k a ≠ .error e) (as : List α) : as.mapM k ≠ .error e := by
  induction as with
  | nil =>
    intro h
    cases h
  | cons a as ih =>
    rw [List.mapM_cons]
    refine bind_ne_error (hk a) fun _ => bind_ne_error ih fun _ h => ?_
    cases h

end Queries

theorem scope_ne_poolExhausted (t : SymbolTable) (i : ScopeId) : t.scope i ≠ .error .poolExhausted := by
  intro h
  rw [SymbolTable.scope, Arena.fetch] at h
  split at h <;> cases h

theorem function?_ne_poolExhausted (t : SymbolTable) (x : String) : t.function? x ≠ .error .poolExhausted := by
  have hentry : t.entry? SymbolTable.global x ≠ .error .poolExhausted := by
    refine bind_ne_error (scope_ne_poolExhausted t _) fun s h => ?_
    cases h
  refine bind_ne_error hentry fun entry h => ?_
  rcases entry with _ | _ | _ | _ <;> cases h

theorem parameters_ne_poolExhausted (t : SymbolTable) (i : ScopeId) :
    t.parameters i ≠ .error .poolExhausted := by
  refine bind_ne_error (scope_ne_poolExhausted t i) fun s => mapM_ne_error (fun x h => ?_) s.parameterNames
  rw [SymbolTable.parameter] at h
  split at h <;> cases h

theorem poolExhausted_not_mem_obstacles (ctx : Context) (i : Linear.Instr) :
    .fault (.defect .poolExhausted) ∉ ctx.obstacles i := by
  have hunlocated : ∀ r, .fault (.defect .poolExhausted) ∉ ctx.unlocated r := by
    intro r h
    rw [Context.unlocated] at h
    split at h <;> simp at h
  have hoverflow : ∀ k, .fault (.defect .poolExhausted) ∉ Context.overflow k := by
    intro k h
    rw [Context.overflow] at h
    split at h <;> simp at h
  simp [Context.obstacles, hunlocated, hoverflow]

/-- Either the frame of a function is laid out, or its generation fails before any code is written. -/
theorem lays_or_error (symbols : SymbolTable) (frag : Fragment) (g : Generator) :
    (∃ frame returns, Lays symbols frag frame returns) ∨
      ∃ e t w, (generateFunction symbols frag).run g = ⟨.error e, t, w⟩ ∧ e ≠ .fault (.defect .poolExhausted) := by
  cases hfunction : symbols.function? frag.label with
  | error d =>
    refine .inr ⟨.fault (.defect d), g, [], ?_, fun h => ?_⟩
    · rw [generateFunction, hfunction]
      rfl
    · cases h
      exact function?_ne_poolExhausted symbols _ hfunction
  | ok found =>
    cases found with
    | none =>
      refine .inr ⟨.fault (.defect (.undeclaredFunction frag.label)), g, [], ?_, fun h => ?_⟩
      · rw [generateFunction, hfunction]
        rfl
      · cases h
    | some signature =>
      cases hparameters : symbols.parameters signature.scope with
      | error d =>
        refine .inr ⟨.fault (.defect d), g, [], ?_, fun h => ?_⟩
        · rw [generateFunction_eq hfunction, hparameters]
          rfl
        · cases h
          exact parameters_ne_poolExhausted symbols _ hparameters
      | ok parameters =>
        cases hframe : Frame.layout frag.label frag.body (parameters.map (·.register)) with
        | error l =>
          have hends : (layout frag (parameters.map (·.register))).Ends g (fun frame _ _ =>
              Frame.layout frag.label frag.body (parameters.map (·.register)) = .ok frame) (· = .limit l) :=
            (layout_ends fun l' hl' => by rw [hframe] at hl'; cases hl'; rfl).mono (fun _ _ _ h => h.2)
              fun _ he => he
          obtain ⟨frame, _, _, _, hok⟩ | ⟨e, t, w, hrun, rfl⟩ := hends.cases
          · rw [hframe] at hok
            cases hok
          · refine .inr ⟨.limit l, t, w, ?_, fun h => by cases h⟩
            rw [generateFunction_eq_layout hfunction hparameters]
            exact Journal.bind_eq_error_iff.2 (.inl hrun)
        | ok frame =>
          exact .inl ⟨frame, signature.returns, signature, parameters, hfunction, hparameters, hframe, rfl⟩

/-! ### One function after the other -/

/-- Generating a program comes to a function: those before it have their blocks. -/
def Comes (symbols : SymbolTable) (fragments : List Fragment) (frag : Fragment) (g : Generator) : Prop :=
  ∃ globals before after blocks w, globals.isGlobals = true ∧ fragments = globals :: (before ++ frag :: after) ∧
    (before.mapM (generateFunction symbols)).run {} = ⟨.ok blocks, g, w⟩

/-- Generating a program comes to an instruction: those before it in its function are written. -/
def Visits (symbols : SymbolTable) (fragments : List Fragment) (ctx : Context) (i : Linear.Instr) (g : Generator) :
    Prop :=
  ∃ frag returns g₁ before after w, Comes symbols fragments frag g₁ ∧ Lays symbols frag ctx.frame returns ∧
    ctx.name = frag.label ∧ frag.body = before ++ i :: after ∧
    (ctx.body before).run (g₁.enter ctx.frame) = ⟨.ok (), g, w⟩

/-- The block of a function is generated, from a state in which no scratch register is held. -/
def Generates (symbols : SymbolTable) (g : Generator) (frag : Fragment) (block : List Line) (g' : Generator) : Prop :=
  g.scratch = [] ∧ ∃ w, (generateFunction symbols frag).run g = ⟨.ok block, g', w⟩

namespace Generates

/-- What is generated is written from the state in which the function begins. -/
theorem lays (h : Generates symbols g frag block g') :
    ∃ frame returns, Lays symbols frag frame returns ∧
      (Context.block ⟨frag.label, frame⟩ frag.body returns).run (g.enter frame) = ⟨.ok (), g', block⟩ := by
  obtain ⟨-, w, hrun⟩ := h
  obtain ⟨frame, returns, hlays⟩ | ⟨e, t, w', herror, -⟩ := lays_or_error symbols frag g
  · refine ⟨frame, returns, hlays, ?_⟩
    obtain ⟨w', hrun'⟩ := hlays.run g
    rw [hrun'] at hrun
    rcases hblock : (Context.block ⟨frag.label, frame⟩ frag.body returns).run (g.enter frame) with ⟨e | u, t, v⟩
    · rw [hblock] at hrun
      cases hrun
    · rw [hblock] at hrun
      cases hrun
      rfl
  · rw [herror] at hrun
    cases hrun

/-- No scratch register is held after the function either, and the format strings that it refers to are in use. -/
theorem leaves (h : Generates symbols g frag block g') :
    g'.scratch = [] ∧ g'.formats = (frag.body.filterMap Linear.Instr.format?).foldl Formats.mark g.formats := by
  obtain ⟨frame, returns, -, hrun⟩ := h.lays
  obtain ⟨-, hformats, hscratch⟩ := (enter_outcome frag frame returns h.1).of_ok hrun
  exact ⟨hscratch, hformats⟩

theorem tidy (h : Generates symbols g frag block g') :
    ∃ frame returns, Lays symbols frag frame returns ∧ frame.Tidy block := by
  obtain ⟨frame, returns, hlays, hrun⟩ := h.lays
  have htidy := (enter_outcome frag frame returns h.1).tidy
  rw [hrun] at htidy
  exact ⟨frame, returns, hlays, htidy⟩

end Generates

theorem chain_of_generateFunction {functions : List Fragment} {blocks : List (List Line)} {w : List Notice}
    (h : (functions.mapM (generateFunction symbols)).run g = ⟨.ok blocks, g', w⟩) (hg : g.scratch = []) :
    g'.scratch = [] ∧ Journal.Chain (Generates symbols) g functions blocks g' := by
  have hchain : Journal.Chain (fun g frag block g' => ∃ w, (generateFunction symbols frag).run g = ⟨.ok block, g', w⟩)
      g functions blocks g' := Journal.chain_of_mapM (fun hrun => ⟨_, hrun⟩) h
  refine hchain.keep (I := fun g => g.scratch = []) hg fun hscratch hrun => ?_
  exact ⟨(Generates.leaves ⟨hscratch, hrun⟩).1, hscratch, hrun⟩

theorem Comes.scratch (h : Comes symbols fragments frag g) : g.scratch = [] := by
  obtain ⟨_, _, _, _, _, -, -, hrun⟩ := h
  exact (chain_of_generateFunction hrun rfl).1

theorem Visits.guarded {ctx : Context} {i : Linear.Instr} (h : Visits symbols fragments ctx i g) :
    g.Guarded ctx.frame ∧ g.scratch = [] := by
  obtain ⟨frag, returns, g₁, before, after, w, hcomes, -, -, -, hrun⟩ := h
  have houtcome := ctx.body_outcome (.enter hcomes.scratch ctx.frame) hcomes.scratch before
  have hguarded := houtcome.guarded
  rw [hrun] at hguarded
  exact ⟨hguarded, (houtcome.of_ok hrun).2.2⟩

/-! ### Programs -/

/-- **Programs.** Assembly is generated if the first fragment is that of the globals and every function gets its
block, and it consists of a header, the blocks in order and the format strings in use. -/
theorem generate_ok_iff {lines : List Line} :
    (∃ w, (generate fragments symbols).run g = ⟨.ok lines, g', w⟩) ↔
      ∃ globals functions blocks, fragments = globals :: functions ∧ globals.isGlobals = true ∧
        Journal.Chain (Generates symbols) {} functions blocks g' ∧
        lines = header globals ++ blocks.flatten ++ g'.formats.lines := by
  constructor
  · rintro ⟨w, h⟩
    cases fragments with
    | nil => cases h
    | cons globals functions =>
      rw [generate] at h
      replace h := Journal.set_bind_ok.1 h
      split at h
      · next hglobals =>
        obtain ⟨blocks, g₁, _, _, hmap, hrest, -⟩ := Journal.bind_eq_ok_iff.1 h
        replace hrest := Journal.get_bind_ok.1 hrest
        obtain ⟨rfl, rfl, -⟩ := Journal.pure_ok.1 hrest
        exact ⟨globals, functions, blocks, rfl, hglobals, (chain_of_generateFunction hmap rfl).2, rfl⟩
      · cases h
  · rintro ⟨globals, functions, blocks, rfl, hglobals, hchain, rfl⟩
    obtain ⟨w, hmap⟩ := Journal.mapM_of_chain (m := generateFunction symbols) (fun h => h.2) hchain
    refine ⟨w ++ [], ?_⟩
    rw [generate]
    refine Journal.set_bind_ok.2 ?_
    rw [if_pos hglobals]
    exact Journal.bind_eq_ok_iff.2 ⟨_, _, _, _, hmap, rfl, rfl⟩

/-- Generating a program fails where it comes to a function that fails, unless it fails at once. -/
theorem comes_of_generate {e : Failure} {w : List Notice}
    (h : (generate fragments symbols).run g = ⟨.error e, g', w⟩) :
    e = .fault (.defect .noFragments) ∨ (∃ label, e = .fault (.defect (.missingGlobals label))) ∨
      ∃ frag g₁ w', Comes symbols fragments frag g₁ ∧
        (generateFunction symbols frag).run g₁ = ⟨.error e, g', w'⟩ := by
  cases fragments with
  | nil =>
    cases h
    exact .inl rfl
  | cons globals functions =>
    rw [generate] at h
    obtain hset | ⟨_, _, _, _, hset, hrest, -⟩ := Journal.bind_eq_error_iff.1 h
    · cases hset
    · cases hset
      split at hrest
      · next hglobals =>
        obtain hmap | ⟨_, _, _, _, _, hpure, -⟩ := Journal.bind_eq_error_iff.1 hrest
        · obtain ⟨before, frag, after, blocks, g₁, v, v', rfl, hbefore, hfrag⟩ := Journal.mapM_eq_error hmap
          exact .inr (.inr ⟨frag, g₁, v', ⟨globals, before, after, blocks, v, hglobals, rfl, hbefore⟩, hfrag⟩)
        · cases hpure
      · cases hrest
        exact .inr (.inl ⟨globals.label, rfl⟩)

/-- No function fails for want of scratch registers. -/
theorem Comes.eval_ne_poolExhausted (h : Comes symbols fragments frag g) :
    (generateFunction symbols frag).eval g ≠ .error (.fault (.defect .poolExhausted)) := by
  intro herror
  obtain ⟨frame, returns, hlays⟩ | ⟨e, t, w, hrun, hne⟩ := lays_or_error symbols frag g
  · obtain ⟨i, -, hi⟩ := List.mem_flatMap.1 (List.mem_of_mem_head? ((hlays.eval_error_iff h.scratch).1 herror))
    exact poolExhausted_not_mem_obstacles _ i hi
  · rw [Journal.eval, hrun] at herror
    cases herror
    exact hne rfl

/-- The scratch registers that are taken for the code of an instruction, in order. They are held until the code is
written, or until that fails. -/
def Context.taken (ctx : Context) (i : Linear.Instr) (g : Generator) : List PoolReg :=
  ((ctx.instr i).run g).state.scratch

theorem Visits.taken {ctx : Context} {i : Linear.Instr} (h : Visits symbols fragments ctx i g) :
    (ctx.taken i g).Nodup ∧
      ∀ k ∈ ctx.taken i g, k.val ≤ 10 ∧ ∀ a ∈ ctx.frame.parameterRegs, k.reg ≠ a.reg := by
  obtain ⟨hguarded, hscratch⟩ := h.guarded
  have hstate : (((ctx.instr i).run g).state).Guarded ctx.frame :=
    (Context.takes_instr i hguarded (by rw [hscratch]; decide)).guarded
  refine ⟨hstate.nodup, fun k hk => ⟨hstate.le_ten hk, fun a ha heq => ?_⟩⟩
  exact hstate.apart k hk a ha (Fin.ext (Reg.x.inj heq))

theorem generate_ne_poolExhausted (fragments : List Fragment) (symbols : SymbolTable) (g : Generator) :
    (generate fragments symbols).eval g ≠ .error (.fault (.defect .poolExhausted)) := by
  intro h
  obtain ⟨g', w, hrun⟩ := Journal.eval_eq_error_iff.1 h
  obtain hnone | ⟨_, hmissing⟩ | ⟨frag, g₁, w', hcomes, hfrag⟩ := comes_of_generate hrun
  · cases hnone
  · cases hmissing
  · exact hcomes.eval_ne_poolExhausted (Journal.eval_eq_error_iff.2 ⟨_, _, hfrag⟩)

/-- Platform and callee-saved registers are not working registers, and neither is that of far addresses. -/
theorem Reg.Working.spared {n : Nat} (h : (Reg.x n).Working) : n ≤ 10 ∨ n = 29 ∨ n = 30 := by
  rcases h with h | h | h | ⟨k, hk, h⟩
  · cases h
  · exact .inr (.inl (Reg.x.inj h))
  · exact .inr (.inr (Reg.x.inj h))
  · have hn := Reg.x.inj h
    omega

theorem not_instr_mem_header {globals : Fragment} {i : Instr} : .instr i ∉ header globals := by
  simp [header]

theorem not_instr_mem_formats {fs : Formats} {i : Instr} : .instr i ∉ Formats.lines fs := by
  rw [Formats.lines]
  split <;> simp [Format.lines]

/-- The lines of a program give values to working registers and to that of far addresses only. -/
theorem destination_of_blocks {blocks : List (List Line)} {globals : Fragment} {formats : Formats}
    (h : ∀ block ∈ blocks, ∃ frame : Frame, frame.Tidy block) {i : Instr}
    (hi : .instr i ∈ header globals ++ blocks.flatten ++ Formats.lines formats) {r : Reg}
    (hr : r ∈ i.destinations) : r.Working ∨ r = .far := by
  rcases List.mem_append.1 hi with hi | hi
  · rcases List.mem_append.1 hi with hi | hi
    · exact absurd hi not_instr_mem_header
    · obtain ⟨block, hblock, hmem⟩ := List.mem_flatten.1 hi
      obtain ⟨before, after, hsplit⟩ := List.append_of_mem hmem
      obtain ⟨frame, htidy⟩ := h block hblock
      exact (htidy.destination hsplit hr).imp_right And.left
  · exact absurd hi not_instr_mem_formats

/-- **Scratch registers are safe.** Whatever the fragments are, the scratch registers that are taken for an
instruction are among the first eleven, differ from each other and from those of the parameters, and there are
always enough. No line gives a value to the platform register or to one that belongs to the caller, and the
register of far addresses is given one only to access a far slot in the next line. -/
theorem generate_spares_registers (fragments : List Fragment) (symbols : SymbolTable) (g₀ : Generator) :
    (∀ ctx i g, Visits symbols fragments ctx i g → g.scratch = [] ∧ (ctx.taken i g).Nodup ∧
      ∀ k ∈ ctx.taken i g, k.val ≤ 10 ∧ ∀ a ∈ ctx.frame.parameterRegs, k.reg ≠ a.reg) ∧
    (generate fragments symbols).eval g₀ ≠ .error (.fault (.defect .poolExhausted)) ∧
    ∀ lines, (generate fragments symbols).eval g₀ = .ok lines →
      (∀ i, .instr i ∈ lines → ∀ n, 17 ≤ n → n ≤ 28 →
        .x n ∉ i.destinations ∧ ∀ place m, (i.effect place m).1.regs (.x n) = m.regs (.x n)) ∧
      ∃ globals functions blocks formats, fragments = globals :: functions ∧
        lines = header globals ++ blocks.flatten ++ Formats.lines formats ∧
        List.Forall₂ (fun frag block => ∃ frame returns, Lays symbols frag frame returns ∧
          ∀ before i after, block = before ++ .instr i :: after → .far ∈ i.destinations →
            frame.FarAccess i after) functions blocks := by
  refine ⟨fun ctx i g h => ⟨h.guarded.2, h.taken⟩, generate_ne_poolExhausted fragments symbols g₀,
    fun lines hlines => ?_⟩
  obtain ⟨g', w, hrun⟩ := Journal.eval_eq_ok_iff.1 hlines
  obtain ⟨globals, functions, blocks, rfl, -, hchain, rfl⟩ := generate_ok_iff.1 ⟨w, hrun⟩
  have htidy : ∀ block ∈ blocks, ∃ frame : Frame, frame.Tidy block := by
    refine hchain.forall_mem fun h => ?_
    obtain ⟨frame, _, -, htidy⟩ := h.tidy
    exact ⟨frame, htidy⟩
  refine ⟨fun i hi n hlow hhigh => ?_, globals, functions, blocks, g'.formats, rfl, rfl, ?_⟩
  · have hspared : .x n ∉ i.destinations := by
      intro hn
      rcases destination_of_blocks htidy hi hn with hworking | hfar
      · have hcases := hworking.spared
        omega
      · have hsixteen : n = 16 := Reg.x.inj hfar
        omega
    exact ⟨hspared, fun place m => Instr.effect_regs place m hspared⟩
  · refine hchain.forall₂ fun h => ?_
    obtain ⟨frame, returns, hlays, htidy⟩ := h.tidy
    refine ⟨frame, returns, hlays, fun before i after hsplit hfar => ?_⟩
    rcases htidy.destination hsplit hfar with hworking | ⟨-, haccess⟩
    · have hcases := Reg.Working.spared (n := 16) hworking
      omega
    · exact haccess

/-- Code that begins two calls and ends none. -/
def begunCalls : List Linear.Instr :=
  [.mov ⟨5⟩ (.imm 1) .always, .push (List.replicate 8 ⟨5⟩) "f", .push [⟨0⟩, ⟨5⟩] "f"]

/-- The function of `Draft.sumDown` with a body that adds something up while the two calls are begun. -/
def sumOfBegun : List Fragment :=
  [⟨Fragment.globalsLabel, []⟩, ⟨"sum", begunCalls ++ [.binary .add ⟨5⟩ ⟨5⟩ (.reg ⟨5⟩)]⟩]

/-- The function and its frame. -/
def sumContext : Context := ⟨"sum", ⟨[⟨0⟩], [⟨5⟩]⟩⟩

/-- The generator where it comes to the sum. -/
def sumGenerator : Generator := ((sumContext.body begunCalls).run (Generator.enter {} sumContext.frame)).state

/-- The sum takes three registers, and they are the last ones that can be taken. -/
theorem generate_spares_registers_sumOfBegun :
    Visits Draft.sumDown.program.symbols sumOfBegun sumContext (.binary .add ⟨5⟩ ⟨5⟩ (.reg ⟨5⟩)) sumGenerator ∧
      sumContext.frame.parameterRegs.map Argument.reg = [.x 0] ∧
      (sumContext.taken (.binary .add ⟨5⟩ ⟨5⟩ (.reg ⟨5⟩)) sumGenerator).map PoolReg.reg = [.x 8, .x 9, .x 10] ∧
      (sumContext.taken (.binary .add ⟨5⟩ ⟨5⟩ (.reg ⟨5⟩)) sumGenerator).Nodup ∧
      (generate sumOfBegun Draft.sumDown.program.symbols).eval {} ≠ .error (.fault (.defect .poolExhausted)) := by
  have hvisits : Visits Draft.sumDown.program.symbols sumOfBegun sumContext (.binary .add ⟨5⟩ ⟨5⟩ (.reg ⟨5⟩))
      sumGenerator := by
    refine ⟨⟨"sum", _⟩, .int, {}, begunCalls, [], _, ?_, ?_, rfl, rfl, Run.ext rfl rfl rfl⟩
    · exact ⟨_, [], [], [], [], rfl, rfl, rfl⟩
    · exact ⟨_, _, rfl, rfl, rfl, rfl⟩
  obtain ⟨hacquired, hpool, -⟩ := generate_spares_registers sumOfBegun Draft.sumDown.program.symbols {}
  exact ⟨hvisits, by decide, by decide +kernel, (hacquired _ _ _ hvisits).2.1, hpool⟩

end Spillway.Arm64
