import Spillway.Proofs.Arm64.Independence
import Spillway.Proofs.Arm64.Limits
import Spillway.Proofs.Lowering.CallSites

/-!
# Assembly is closed

What the code of a program refers to is defined in its assembly, once: a global in the heading, a function that is
called among the blocks, and a format string in the section after them. The three kinds of definitions come from
different parts of the program, and the references from the statements in its functions.

* `Program.InStep.function_of_call` — what is called is a function of the program.
* `IsBlock.name?_eq`, `IsBlock.format?_eq` — a block defines its function, and no format strings.
* `Session.assembly_closed` — the assembly of a program that compiles.
-/

namespace Spillway

open Linear (Fragment)

/-! ### Functions that are called -/

theorem Lowering.Env.Serves.lookup_of_call {env : Lowering.Env} {before code : List Linear.Instr}
    {sites : List Lowering.CallSite} (h : env.Serves before sites code) {callee : String}
    (hcall : .call callee ∈ code) : ∃ f, env.symbols.lookup env.scope callee = .ok (some (.function f)) := by
  induction h with
  | nil => cases hcall
  | plain hi _ ih =>
    rcases List.mem_cons.1 hcall with rfl | hcall
    · cases hi
    · exact ih hcall
  | @call _ _ _ site _ f rs target _ _ hlookup _ _ _ _ ih =>
    rcases List.mem_append.1 hcall with hcall | hcall
    · have hcallee : callee = site.callee := by
        cases target <;> simpa [Linear.callCode] using hcall
      exact ⟨f, hcallee ▸ hlookup⟩
    · exact ih hcall

/-- The function that a fragment was lowered from. -/
theorem Program.source_of_chain {p : Program} {c c' : Counters} {frags : List Fragment}
    (h : Journal.Chain p.Translates c p.functions.toList frags c') :
    ∀ frag ∈ frags, ∃ k f c₁ c₂, p.functions.get? k = some f ∧ p.Translates c₁ f frag c₂ := by
  intro frag hfrag
  obtain ⟨f, hf, c₁, c₂, htranslates⟩ := h.exists_of_mem_right frag hfrag
  obtain ⟨k, hk⟩ := List.mem_iff_getElem?.1 hf
  exact ⟨k, f, c₁, c₂, (Arena.get?_eq ..).trans hk, htranslates⟩

namespace Program.InStep

variable {p : Program} {k : FunctionId} {f : FunctionDecl} {frag : Fragment} {c c' : Counters}

/-- No name is that of two functions. -/
theorem nodup_names (h : p.InStep) : (p.functions.toList.map (·.name)).Nodup := by
  rw [List.Nodup, List.pairwise_map, List.pairwise_iff_getElem]
  intro i j hi hj hij hname
  have hget : ∀ {l : Nat} (hl : l < p.functions.toList.length),
      p.functions.get? l = some p.functions.toList[l] := by
    intro l hl
    rw [Arena.get?_eq, List.getElem?_eq_getElem hl]
  exact Nat.ne_of_lt hij (h.name_injective (hget hj) (hget hi) hname)

/-- **Calls.** What is called in the code of a function is a function of the program: a variable of the function would
hide it. -/
theorem function_of_call (h : p.InStep) (hf : p.functions.get? k = some f) (hfrag : p.Translates c f frag c')
    {callee : String} (hcall : .call callee ∈ frag.body) : callee ∈ p.functions.toList.map (·.name) := by
  obtain ⟨signature, hlookup⟩ := hfrag.serves.lookup_of_call hcall
  have hentry : p.entry? f callee = some (.function signature) :=
    Except.ok.inj ((h.wellScoped.lookup_eq hf callee).symm.trans hlookup)
  rw [Program.entry?] at hentry
  cases hown : p.symbols.bound? f.scope callee with
  | some e =>
    obtain ⟨v, rfl⟩ := h.wellScoped.eq_var hf hown
    rw [hown] at hentry
    cases hentry
  | none =>
    rw [hown] at hentry
    obtain ⟨l, f', hf', hname, -⟩ := h.declared hentry
    rw [Arena.get?_eq] at hf'
    exact List.mem_map.2 ⟨f', List.mem_of_getElem? hf', hname⟩

end Program.InStep

namespace Arm64

/-! ### What blocks define -/

/-- The name that a symbol is, as written in the program. -/
def Symbol.name? : Symbol → Option String
  | .name text => some text
  | _ => none

/-- The format string that a symbol stands for. -/
def Symbol.format? : Symbol → Option Format
  | .format f => some f
  | _ => none

theorem Symbol.name?_eq_none {s : Symbol} (h : s.isGenerated = true) : s.name? = none := by
  cases s with
  | name text | format f => cases h
  | _ => rfl

theorem Symbol.format?_eq_none {s : Symbol} (h : s.isGenerated = true) : s.format? = none := by
  cases s with
  | name text | format f => cases h
  | _ => rfl

namespace Context

variable {ctx : Context} {n n' : Nat} {code : List Linear.Instr} {w block : List Line} {returns : Ty}

/-- The lines of a body define only labels that the compiler makes. -/
theorem Writes.isGenerated (h : ctx.Writes n code w n') : ∀ s ∈ definitions w, s.isGenerated = true := by
  induction h with
  | nil => exact List.forall_mem_nil _
  | straight _ hw _ ih | call _ hw _ ih | leave hw _ ih =>
    rw [hw.definitions_append]
    exact ih
  | skip hw _ ih =>
    rw [definitions_skip hw]
    exact List.forall_mem_cons.2 ⟨rfl, ih⟩
  | branch _ ih | branchOn _ ih => exact ih
  | label _ ih => exact List.forall_mem_cons.2 ⟨rfl, ih⟩

/-- Of the symbols that a block defines, only that of its function is not one that the compiler makes. -/
theorem IsBlock.filterMap_definitions {α : Type} {view : Symbol → Option α}
    (hview : ∀ s, s.isGenerated = true → view s = none) (h : ctx.IsBlock returns n code block n') :
    (definitions block).filterMap view = (view (.name ctx.name)).toList := by
  obtain ⟨body, hbody, rfl⟩ := h
  have hlabels : (definitions body).filterMap view = [] :=
    List.filterMap_eq_nil_iff.2 fun s hs => hview s (hbody.isGenerated s hs)
  have hexit : view (.exit ctx.name) = none := hview _ rfl
  rw [definitions_block, List.filterMap_append, List.filterMap_cons_none hexit, List.filterMap_nil, List.append_nil]
  cases hname : view (.name ctx.name) with
  | none => rw [List.filterMap_cons_none hname, hlabels, Option.toList_none]
  | some a => rw [List.filterMap_cons_some hname, hlabels, Option.toList_some]

/-- A block defines its function. -/
theorem IsBlock.name?_eq (h : ctx.IsBlock returns n code block n') :
    (definitions block).filterMap Symbol.name? = [ctx.name] :=
  h.filterMap_definitions fun _ => Symbol.name?_eq_none

/-- A block defines no format string. -/
theorem IsBlock.format?_eq (h : ctx.IsBlock returns n code block n') :
    (definitions block).filterMap Symbol.format? = [] :=
  h.filterMap_definitions fun _ => Symbol.format?_eq_none

/-- A body has no directives. -/
theorem Writes.directive_not_mem (h : ctx.Writes n code w n') (directive : Directive) :
    .directive directive ∉ w := by
  intro hmem
  obtain ⟨before, after, rfl⟩ := List.append_of_mem hmem
  obtain ⟨_, _, -, hstep⟩ := h.steps.at_line
  cases hstep

/-- No section begins in a block. -/
theorem IsBlock.readOnlyData_not_mem (h : ctx.IsBlock returns n code block n') :
    .directive .readOnlyData ∉ block := by
  obtain ⟨body, hbody, rfl⟩ := h
  simp [prologue, epilogue, hbody.directive_not_mem]

end Context

/-- Blocks one after the other define their functions in order and nothing else by name. -/
theorem defined_of_chain {symbols : SymbolTable} {n n' : Nat} {functions : List Fragment}
    {blocks : List (List Line)} (h : Journal.Chain (Assembles symbols) n functions blocks n') :
    (definitions blocks.flatten).filterMap Symbol.name? = functions.map (·.label) ∧
      (definitions blocks.flatten).filterMap Symbol.format? = [] ∧
      .directive .readOnlyData ∉ blocks.flatten := by
  induction h with
  | nil => exact ⟨rfl, rfl, List.not_mem_nil⟩
  | cons hblock _ ih =>
    obtain ⟨signature, parameters, frame, -, -, -, hlines⟩ := hblock
    obtain ⟨hnames, hformats, hsection⟩ := ih
    rw [List.flatten_cons, definitions_append, List.filterMap_append, List.filterMap_append, hlines.name?_eq,
      hlines.format?_eq, hnames, hformats, List.mem_append]
    exact ⟨rfl, rfl, fun hmem => hmem.elim hlines.readOnlyData_not_mem hsection⟩

/-! ### What the heading and the section of format strings define -/

theorem definitions_heading (names : List String) : definitions (heading names) = [] := by
  refine List.filterMap_eq_nil_iff.2 fun line hline => ?_
  simp only [heading, List.mem_append, List.mem_cons, List.mem_map, List.not_mem_nil, or_false] at hline
  rcases hline with (rfl | ⟨x, -, rfl⟩) | rfl <;> rfl

theorem readOnlyData_not_mem_heading (names : List String) : .directive .readOnlyData ∉ heading names := by
  simp [heading]

theorem Formats.definitions_lines (fs : Formats) : definitions fs.lines = fs.map .format := by
  have hsection : ∀ fs : Formats, definitions (fs.flatMap Format.lines) = fs.map .format := by
    intro fs
    induction fs with
    | nil => rfl
    | cons f fs ih =>
      rw [List.flatMap_cons, definitions_append, ih]
      rfl
  rw [Formats.lines]
  split
  · next hempty =>
    rw [List.isEmpty_iff.1 hempty]
    rfl
  · exact hsection fs

/-- What a program defines besides the symbols of its blocks. -/
theorem definitions_program (names : List String) (blocks : List (List Line)) (fs : Formats) :
    definitions (heading names ++ blocks.flatten ++ fs.lines) = definitions blocks.flatten ++ fs.map .format := by
  rw [definitions_append, definitions_append, definitions_heading, fs.definitions_lines, List.nil_append]

theorem Formats.readOnlyData_mem_lines (fs : Formats) : .directive .readOnlyData ∈ fs.lines ↔ fs ≠ [] := by
  rw [Formats.lines]
  cases fs with
  | nil => simp
  | cons f fs => simp

/-- Code refers to format strings where it prints or reads. -/
theorem Formats.ofCode_ne_nil_iff (fragments : List Fragment) :
    Formats.ofCode (fragments.flatMap (·.body)) ≠ [] ↔
      ∃ frag ∈ fragments, ∃ i ∈ frag.body, i.format?.isSome = true := by
  constructor
  · intro h
    obtain ⟨f, hf⟩ := List.exists_mem_of_ne_nil _ h
    obtain ⟨i, hi, hformat⟩ := List.mem_filterMap.1 (List.mem_eraseDups.1 hf)
    obtain ⟨frag, hfrag, hi⟩ := List.mem_flatMap.1 hi
    exact ⟨frag, hfrag, i, hi, by rw [hformat]; rfl⟩
  · rintro ⟨frag, hfrag, i, hi, hformat⟩
    obtain ⟨f, hf⟩ := Option.isSome_iff_exists.1 hformat
    have hcode : i ∈ fragments.flatMap (·.body) := List.mem_flatMap.2 ⟨frag, hfrag, hi⟩
    exact List.ne_nil_of_mem (List.mem_eraseDups.2 (List.mem_filterMap.2 ⟨i, hcode, hf⟩))

theorem Formats.nodup_ofCode (code : List Linear.Instr) : (Formats.ofCode code).Nodup := nodup_eraseDups _

end Arm64

theorem Lowering.Env.Resets.format?_eq {env : Lowering.Env} {names : List String} {code : List Linear.Instr}
    (h : env.Resets names code) : code.filterMap Linear.Instr.format? = [] := by
  induction h with
  | nil => rfl
  | cons _ _ ih => exact ih

namespace Session

open Arm64 (Line Formats Symbol definitions heading)

/-- **Nothing is missing.** In the assembly of a built program that compiles, every global is reserved once, in the
order of declaration, and the code of functions refers to no others. Each function is defined once, and only functions
of the program are called. Format strings are defined exactly if some fragment prints or reads: those that are referred
to, each once, in the order of first reference. -/
theorem assembly_closed {drift : Counters → Counters → Prop} {d : Draft} (hbuilt : d.Built drift)
    {s s' : Session} {lines : List Line} {effects : List Effect}
    (h : (compile d.program).run s = ⟨.ok lines, s', effects⟩) :
    ∃ globals functions c w, ∃ blocks : List (List Line),
      d.program.lower.run s.counters = ⟨.ok (globals :: functions), c, w⟩ ∧
      lines = heading d.program.globals ++ blocks.flatten ++
        Formats.lines (.ofCode ((globals :: functions).flatMap (·.body))) ∧
      d.program.globals.Nodup ∧
      (∀ frag ∈ functions, ∀ i ∈ frag.body, ∀ x, i.global? = some x → x ∈ d.program.globals) ∧
      (definitions lines).filterMap Symbol.name? = functions.map (·.label) ∧
      (∀ frag ∈ functions, ∀ callee, .call callee ∈ frag.body → (functions.map (·.label)).count callee = 1) ∧
      (.directive .readOnlyData ∈ lines ↔
        ∃ frag ∈ globals :: functions, ∃ i ∈ frag.body, i.format?.isSome = true) ∧
      (definitions lines).filterMap Symbol.format? = Formats.ofCode ((globals :: functions).flatMap (·.body)) ∧
      (Formats.ofCode ((globals :: functions).flatMap (·.body))).Nodup := by
  obtain ⟨globals, functions, blocks, c, w, g, hlower, -, hresets, htranslates, hchain, hlines⟩ :=
    compile_generates h
  have hlists := hbuilt.listsGlobals
  have hstep := hbuilt.inStep
  have hcode : Formats.ofCode ((globals :: functions).flatMap (·.body))
      = .ofCode (functions.flatMap (·.body)) := by
    rw [Formats.ofCode, List.flatMap_cons, List.filterMap_append, hresets.format?_eq, List.nil_append]
    rfl
  rw [Arm64.header_of_resets hresets hlists.nodup, ← hcode] at hlines
  have hassembles := Arm64.assembles_of_generates hchain ⟨rfl, rfl⟩ (Arm64.bracketed_of_chain htranslates)
  obtain ⟨hnames, hformats, hsection⟩ := Arm64.defined_of_chain hassembles
  refine ⟨globals, functions, c, w, blocks, hlower, hlines, hlists.nodup, ?_, ?_, ?_, ?_, ?_,
    Formats.nodup_ofCode _⟩
  · intro frag hfrag i hi x hx
    obtain ⟨k, f, c₁, c₂, hf, hfunction⟩ := Program.source_of_chain htranslates frag hfrag
    exact hfunction.global_mem hstep.wellScoped hlists hf hi hx
  · rw [hlines, Arm64.definitions_program, List.filterMap_append, hnames, List.filterMap_map]
    simp [Function.comp_def, Symbol.name?]
  · intro frag hfrag callee hcall
    obtain ⟨k, f, c₁, c₂, hf, hfunction⟩ := Program.source_of_chain htranslates frag hfrag
    rw [Program.names_of_chain htranslates]
    exact List.count_eq_one_of_mem hstep.nodup_names (hstep.function_of_call hf hfunction hcall)
  · rw [hlines, List.mem_append, List.mem_append, Formats.readOnlyData_mem_lines, Formats.ofCode_ne_nil_iff]
    constructor
    · rintro ((hmem | hmem) | hmem)
      · exact absurd hmem (Arm64.readOnlyData_not_mem_heading _)
      · exact absurd hmem hsection
      · exact hmem
    · exact .inr
  · rw [hlines, Arm64.definitions_program, List.filterMap_append, hformats, List.filterMap_map]
    simp [Function.comp_def, Symbol.format?]

/-- `Draft.tally` refers to a global, calls a function, and reads before it prints. -/
theorem assembly_closed_tally : Draft.tally.Built Draft.Onward ∧ ∃ lines s effects,
    (compile Draft.tally.program).run {} = ⟨.ok lines, s, effects⟩ ∧
    lines.take 4 = heading ["total", "spare"] ∧ .instr (.call (.name "positive")) ∈ lines ∧
    (definitions lines).filterMap Symbol.format? = [.read, .println] ∧
    ∃ globals functions c w,
      Draft.tally.program.lower.run ({} : Session).counters = ⟨.ok (globals :: functions), c, w⟩ ∧
      (∀ frag ∈ functions, ∀ i ∈ frag.body, ∀ x, i.global? = some x → x ∈ Draft.tally.program.globals) ∧
      (definitions lines).filterMap Symbol.name? = functions.map (·.label) ∧
      ∀ frag ∈ functions, ∀ callee, .call callee ∈ frag.body → (functions.map (·.label)).count callee = 1 := by
  have hbuilt := Draft.built_tally Draft.Onward
  have hview : ((compile Draft.tally.program).eval {}).toOption.map (fun lines =>
      (lines.take 4, decide (.instr (.call (.name "positive")) ∈ lines),
        (definitions lines).filterMap Symbol.format?))
      = some (heading ["total", "spare"], true, [.read, .println]) := by decide +kernel
  obtain ⟨lines, s, effects, hcompile, hlines⟩ := Journal.run_ok_of_view hview
  obtain ⟨hheading, hcall, hformats⟩ : lines.take 4 = heading ["total", "spare"] ∧
      .instr (.call (.name "positive")) ∈ lines ∧
      (definitions lines).filterMap Symbol.format? = [.read, .println] := by
    simpa using hlines
  obtain ⟨globals, functions, c, w, blocks, hlower, -, -, hreferences, hnames, hcalls, -⟩ :=
    assembly_closed hbuilt hcompile
  exact ⟨hbuilt, lines, s, effects, hcompile, hheading, hcall, hformats, globals, functions, c, w, hlower,
    hreferences, hnames, hcalls⟩

end Session

end Spillway
