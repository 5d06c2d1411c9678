import Spillway.Proofs.Arm64.Body

/-!
# The blocks of a program

The code of a function is its prologue, the lines of its body and its epilogue. One block follows the other in
the order of the functions, and the numbers of the labels that are made for conditional moves go on from block
to block: `blocks_of_generate`.
-/

namespace Spillway.Arm64

open Linear (Fragment Bracketed oversized?)

variable {E : Failure → Prop} {g g' : Generator} {symbols : SymbolTable} {frag : Fragment}

/-! ### One block -/

/-- Between functions no register is in use as scratch, and no parameters are saved. -/
structure Generator.Rested (g : Generator) : Prop where
  saved : g.saved = false
  scratch : g.scratch = []

theorem Pool.isBusy_foldl_occupy (p : Pool) (is : List PoolReg) (k : PoolReg) :
    (is.foldl Pool.occupy p).isBusy k = (p.isBusy k || is.contains k) := by
  induction is generalizing p with
  | nil => simp
  | cons i is ih =>
    rw [List.foldl_cons, ih, isBusy_occupy]
    by_cases hk : k = i <;> simp [hk]

/-- Only the parameters are in use where a function begins. -/
theorem Frame.Bounded.filled_enter {f : Frame} (hf : f.Bounded) :
    ((f.parameterRegs.map Argument.pool).foldl Pool.occupy .fresh).Filled f.parameters.length := by
  intro k
  have hparams := hf.parameters
  have hmem : k ∈ f.parameterRegs.map Argument.pool ↔ k.val < f.parameters.length := by
    rw [List.mem_map]
    constructor
    · rintro ⟨i, hi, rfl⟩
      exact mem_parameterRegs.1 hi
    · intro hk
      exact ⟨⟨k.val, Nat.lt_of_lt_of_le hk hparams⟩, mem_parameterRegs.2 hk, rfl⟩
  rw [Pool.isBusy_foldl_occupy, Pool.isBusy_fresh]
  simp [hmem]

theorem Context.idle_enter {ctx : Context} (hf : ctx.frame.Bounded) (hg : g.Rested) :
    ctx.Idle (g.enter ctx.frame) :=
  ⟨hg.saved, Generator.uses_self hf.filled_enter hg.scratch⟩

theorem Context.status_cases (ctx : Context) (returns : Ty) :
    ctx.status returns = [] ∨ ctx.status returns = [.movImm .result 0] := by
  rw [status]
  split
  · exact .inr (by decide)
  · exact .inl rfl

/-- A block: the prologue, the lines of the body and the epilogue. -/
def Context.IsBlock (ctx : Context) (returns : Ty) (n : Nat) (code : List Linear.Instr) (block : List Line)
    (n' : Nat) : Prop :=
  ∃ body, ctx.Writes n code body n' ∧ block = ctx.prologue ++ body ++ ctx.epilogue returns

theorem Context.block_ends {ctx : Context} (hf : ctx.frame.Bounded) {code : List Linear.Instr}
    (hcode : Bracketed (Reached E) code)
    (hhomed : ∀ i ∈ code, ∀ r ∈ i.sources ++ i.target?.toList, ctx.Homed E r)
    (hlimit : ∀ l, oversized? code = some l → E (.limit l)) (hg : ctx.Idle g) (returns : Ty) :
    (ctx.block code returns).Ends g (fun _ g' w => ctx.Idle g' ∧
      ctx.IsBlock returns g.skips code w g'.skips) E := by
  have hprologue : (Journal.recordAll ctx.prologue : Emit Unit).Yields g fun _ g' w =>
      g' = g ∧ w = ctx.prologue := ⟨(), g, _, rfl, rfl, rfl⟩
  refine hprologue.ends.bind fun _ g₁ w₁ ⟨hg₁, hw₁⟩ => ?_
  subst hg₁ hw₁
  refine (body_ends hf hcode hhomed hlimit hg).bind fun _ g₂ w₂ ⟨hg₂, hw₂⟩ => ?_
  refine Journal.Yields.ends ⟨(), g₂, _, rfl, hg₂, w₂, hw₂, ?_⟩
  rw [List.append_assoc]

/-- What is handed to the caller is what was written. -/
theorem narrate_ends {m : Emit Unit} {Q : Generator → List Line → Prop}
    (h : m.Ends g (fun _ g' w => Q g' w) E) : (narrate m).Ends g (fun lines g' _ => Q g' lines) E := by
  have hrun : (narrate m).run g = ⟨(m.run g).result.map fun _ => (m.run g).entries, (m.run g).state,
      ((m.run g).state.formats.drop g.formats.length).map .format⟩ := rfl
  obtain ⟨u, t, w, hm, hQ⟩ | ⟨e, t, w, hm, he⟩ := h.cases
  · rw [hm] at hrun
    exact Journal.Yields.ends ⟨w, t, _, hrun, hQ⟩
  · rw [hm] at hrun
    exact .of_error hrun he

theorem layout_ends {parameters : List VReg}
    (hlimit : ∀ l, Frame.layout frag.label frag.body parameters = .error l → E (.limit l)) :
    (layout frag parameters).Ends g (fun frame g' _ => g' = g ∧
      Frame.layout frag.label frag.body parameters = .ok frame) E := by
  have hrest : (do
      let frame ← liftM ((Frame.spill frag.body parameters).checked frag.label)
      Journal.record (.frame frag.label frame.slots.length frame.size)
      return frame : Generate Frame).Ends g (fun frame g' _ => g' = g ∧
        Frame.layout frag.label frag.body parameters = .ok frame) E := by
    cases hchecked : (Frame.spill frag.body parameters).checked frag.label with
    | error l => exact .of_error rfl (hlimit l hchecked)
    | ok frame => exact Journal.Yields.ends ⟨frame, g, _, rfl, rfl, hchecked⟩
  rw [layout]
  split
  · have hslots : (Journal.recordAll ((Frame.spill frag.body parameters).slots.mapIdx fun k r =>
        .slot frag.label r (slotOffset k)) : Generate Unit).Yields g fun _ g' _ => g' = g :=
      ⟨(), g, _, rfl, rfl⟩
    refine hslots.ends.bind fun _ g₁ w hg₁ => ?_
    subst hg₁
    exact hrest
  · exact hrest

/-- A block is the code of a fragment: the fragment's function is declared, its frame is within the limits, and
its lines are those of the body between prologue and epilogue. -/
def Assembles (symbols : SymbolTable) (n : Nat) (frag : Fragment) (block : List Line) (n' : Nat) : Prop :=
  ∃ signature parameters frame, symbols.function? frag.label = .ok (some signature) ∧
    symbols.parameters signature.scope = .ok parameters ∧
    Frame.layout frag.label frag.body (parameters.map (·.register)) = .ok frame ∧
    Context.IsBlock ⟨frag.label, frame⟩ signature.returns n frag.body block n'

/-- Generating the block of a function that is declared. -/
theorem generateFunction_eq {signature : Signature}
    (hfunction : symbols.function? frag.label = .ok (some signature)) :
    generateFunction symbols frag = (do
      let parameters ← liftM (symbols.parameters signature.scope)
      let frame ← layout frag (parameters.map (·.register))
      modify fun g => g.enter frame
      narrate (Context.block ⟨frag.label, frame⟩ frag.body signature.returns)) := by
  rw [generateFunction, hfunction]
  rfl

/-- **Functions.** How generating the block of a function that is declared ends. -/
theorem generateFunction_ends {signature : Signature} {parameters : List Variable}
    (hfunction : symbols.function? frag.label = .ok (some signature))
    (hparameters : symbols.parameters signature.scope = .ok parameters) (hg : g.Rested)
    (hcode : Bracketed (Context.Reached E) frag.body)
    (hlimit : ∀ l, Frame.layout frag.label frag.body (parameters.map (·.register)) = .error l → E (.limit l))
    (hhomed : ∀ frame, Frame.layout frag.label frag.body (parameters.map (·.register)) = .ok frame →
      ∀ i ∈ frag.body, ∀ r ∈ i.sources ++ i.target?.toList, Context.Homed ⟨frag.label, frame⟩ E r)
    (hpush : ∀ frame, Frame.layout frag.label frag.body (parameters.map (·.register)) = .ok frame →
      ∀ l, oversized? frag.body = some l → E (.limit l)) :
    (generateFunction symbols frag).Ends g (fun block g' _ => g'.Rested ∧
      Assembles symbols g.skips frag block g'.skips) E := by
  rw [generateFunction_eq hfunction, hparameters]
  refine (layout_ends hlimit).bind fun frame g₁ _ ⟨hg₁, hframe⟩ => ?_
  subst hg₁
  have hf := (Frame.bounded_of_layout hframe).2
  have henter : (modify fun g => g.enter frame : Generate PUnit).Yields g₁ fun _ g' _ =>
      g' = g₁.enter frame := ⟨⟨⟩, _, [], rfl, rfl⟩
  refine henter.ends.bind fun _ g₂ _ hg₂ => ?_
  subst hg₂
  refine (narrate_ends (Context.block_ends hf hcode (hhomed frame hframe) (hpush frame hframe)
    (Context.idle_enter hf hg) signature.returns)).mono (fun block g₃ _ ⟨hg₃, hblock⟩ => ?_) fun _ he => he
  exact ⟨⟨hg₃.saved, hg₃.uses.scratch_eq_nil⟩, signature, parameters, frame, hfunction, hparameters, hframe,
    hblock⟩

/-! ### One block after the other -/

/-- Code generation that succeeds, from a generator that is not in the middle of something. -/
def Follows (symbols : SymbolTable) (g : Generator) (frag : Fragment) (block : List Line) (g' : Generator) :
    Prop :=
  g.Rested → Bracketed (Context.Reached fun _ => True) frag.body →
    g'.Rested ∧ Assembles symbols g.skips frag block g'.skips

theorem follows_of_generateFunction {block : List Line} {w : List Notice}
    (h : (generateFunction symbols frag).run g = ⟨.ok block, g', w⟩) : Follows symbols g frag block g' := by
  intro hg hcode
  cases hfunction : symbols.function? frag.label with
  | error e =>
    rw [generateFunction, hfunction] at h
    cases h
  | ok found =>
    cases found with
    | none =>
      rw [generateFunction, hfunction] at h
      cases h
    | some signature =>
      cases hparameters : symbols.parameters signature.scope with
      | error e =>
        rw [generateFunction_eq hfunction, hparameters] at h
        cases h
      | ok parameters =>
        exact (generateFunction_ends (E := fun _ => True) hfunction hparameters hg hcode (fun _ _ => trivial)
          (fun _ _ _ _ _ _ _ => trivial) fun _ _ _ _ => trivial).1 block g' w h

theorem assembles_of_chain {functions : List Fragment} {blocks : List (List Line)}
    (h : Journal.Chain (Follows symbols) g functions blocks g') (hg : g.Rested)
    (hcode : ∀ frag ∈ functions, Bracketed (Context.Reached fun _ => True) frag.body) :
    g'.Rested ∧ Journal.Chain (Assembles symbols) g.skips functions blocks g'.skips := by
  induction h with
  | nil => exact ⟨hg, .nil⟩
  | cons hblock _ ih =>
    obtain ⟨hg₁, hassembles⟩ := hblock hg (hcode _ (List.mem_cons_self ..))
    obtain ⟨hg₂, hrest⟩ := ih hg₁ fun frag hfrag => hcode frag (List.mem_cons_of_mem _ hfrag)
    exact ⟨hg₂, .cons hassembles hrest⟩

/-- **Programs.** Assembly that is generated consists of a header, the blocks of the functions in order, and
the format strings. -/
theorem blocks_of_generate {fragments : List Fragment} {lines : List Line} {w : List Notice}
    (h : (generate fragments symbols).run g = ⟨.ok lines, g', w⟩)
    (hcode : ∀ frag ∈ fragments.tail, Bracketed (Context.Reached fun _ => True) frag.body) :
    ∃ globals functions blocks n, fragments = globals :: functions ∧
      lines = header globals ++ blocks.flatten ++ g'.formats.lines ∧
      Journal.Chain (Assembles symbols) 0 functions blocks n := by
  cases fragments with
  | nil => cases h
  | cons globals functions =>
    rw [generate] at h
    replace h := Journal.set_bind_ok.1 h
    split at h
    · obtain ⟨blocks, g₁, _, _, hmap, hrest, -⟩ := Journal.bind_eq_ok_iff.1 h
      replace hrest := Journal.get_bind_ok.1 hrest
      obtain ⟨rfl, rfl, -⟩ := Journal.pure_ok.1 hrest
      have hchain := Journal.chain_of_mapM follows_of_generateFunction hmap
      exact ⟨globals, functions, blocks, _, rfl, rfl, (assembles_of_chain hchain ⟨rfl, rfl⟩ hcode).2⟩
    · cases h

/-- The code of functions, whatever the words are that it counts. -/
theorem bracketed_of_chain {p : Program} {c c' : Counters} {fs : List FunctionDecl} {frags : List Fragment}
    (h : Journal.Chain p.Translates c fs frags c') :
    ∀ frag ∈ frags, Bracketed (Context.Reached fun _ => True) frag.body :=
  h.forall_mem fun hf => hf.bracketed ⟨fun _ _ _ => trivial, fun _ _ _ => trivial⟩

end Spillway.Arm64
