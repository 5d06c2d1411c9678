import Spillway.Proofs.Arm64.Acts
import Spillway.Proofs.Arm64.Closed

/-!
# Names and made symbols

Functions and globals keep their names in assembly, where they stand beside the symbols that the compiler makes: labels
and format strings. No two names are the same, and no two made symbols are written alike. So a symbol is defined twice
exactly if a name is written like a made symbol. Made symbols have few forms, and a program whose names have other forms
is safe. Library routines are called by name too, and one that a function or a global has the name of is hidden by it.

* `MadeForm` — how made symbols are written.
* `Symbol.text_ne_symbol`, `nodup_made` — made symbols are written differently.
* `Session.defined_twice_iff` — which symbols of a program are defined twice.
-/

namespace Spillway

open Linear (Fragment)

/-- The names that a program puts into its assembly. -/
def Program.names (p : Program) : List String := p.globals ++ p.functions.toList.map (·.name)

/-- No name is that of two globals, of two functions, or of a global and a function. -/
theorem Program.nodup_names {p : Program} (hstep : p.InStep) (hlists : p.ListsGlobals) : p.names.Nodup := by
  refine List.nodup_append.2 ⟨hlists.nodup, hstep.nodup_names, ?_⟩
  rintro x hx _ hname rfl
  obtain ⟨f, hf, rfl⟩ := List.mem_map.1 hname
  obtain ⟨k, hk⟩ := List.mem_iff_getElem?.1 hf
  obtain ⟨v, hv⟩ := (hlists.mem_iff f.name).1 hx
  obtain ⟨returns, hbound⟩ := hstep.bound ((Arena.get?_eq ..).trans hk)
  rw [hbound] at hv
  cases hv

namespace Arm64

/-! ### What lines define -/

/-- The global that a line reserves a word for. -/
def Line.common? : Line → Option String
  | .directive (.common x) => some x
  | _ => none

/-- The globals that lines reserve words for, in order. -/
def commons (lines : List Line) : List String := lines.filterMap Line.common?

/-- What lines define, as it is written: the globals that they reserve words for, and their labels. -/
def defined (lines : List Line) : List String := commons lines ++ (definitions lines).map Symbol.text

/-- Whether a symbol is made by the compiler, as opposed to a name of the program. -/
def Symbol.isMade : Symbol → Bool
  | .name _ => false
  | _ => true

/-- The made symbols that lines define, as they are written. -/
def made (lines : List Line) : List String := ((definitions lines).filter Symbol.isMade).map Symbol.text

@[simp] theorem commons_append (w w' : List Line) : commons (w ++ w') = commons w ++ commons w' :=
  List.filterMap_append

theorem mem_commons {w : List Line} {x : String} : x ∈ commons w ↔ .directive (.common x) ∈ w := by
  constructor
  · intro hx
    obtain ⟨line, hline, hcommon⟩ := List.mem_filterMap.1 hx
    unfold Line.common? at hcommon
    split at hcommon
    · cases hcommon
      exact hline
    · cases hcommon
  · exact fun hx => List.mem_filterMap.2 ⟨_, hx, rfl⟩

theorem commons_eq_nil {w : List Line} (h : ∀ x, .directive (.common x) ∉ w) : commons w = [] :=
  List.eq_nil_iff_forall_not_mem.2 fun x hx => h x (mem_commons.1 hx)

theorem commons_heading (names : List String) : commons (heading names) = names := by
  have hnames : commons (names.map fun x => .directive (.common x)) = names := by
    rw [commons, List.filterMap_map]
    exact List.filterMap_some
  rw [heading, List.cons_append]
  show commons (names.map (fun x => .directive (.common x)) ++ [.directive .code]) = names
  rw [commons_append, hnames]
  exact List.append_nil names

/-- No global is reserved in a block. -/
theorem Context.IsBlock.common_not_mem {ctx : Context} {returns : Ty} {n n' : Nat} {code : List Linear.Instr}
    {block : List Line} (h : ctx.IsBlock returns n code block n') (x : String) :
    .directive (.common x) ∉ block := by
  obtain ⟨body, hbody, rfl⟩ := h
  simp [prologue, epilogue, hbody.directive_not_mem]

theorem commons_of_chain {symbols : SymbolTable} {n n' : Nat} {functions : List Fragment}
    {blocks : List (List Line)} (h : Journal.Chain (Assembles symbols) n functions blocks n') :
    commons blocks.flatten = [] := by
  induction h with
  | nil => rfl
  | cons hblock _ ih =>
    obtain ⟨signature, parameters, frame, -, -, -, hlines⟩ := hblock
    rw [List.flatten_cons, commons_append, commons_eq_nil hlines.common_not_mem, ih, List.append_nil]

theorem Formats.commons_lines (fs : Formats) : commons fs.lines = [] := by
  refine commons_eq_nil fun x hx => ?_
  rw [Formats.lines] at hx
  split at hx
  · cases hx
  · simp [Format.lines] at hx

/-- Symbols are names of the program or made. -/
theorem perm_texts (ss : List Symbol) :
    (ss.map Symbol.text).Perm (ss.filterMap Symbol.name? ++ (ss.filter Symbol.isMade).map Symbol.text) := by
  induction ss with
  | nil => exact .refl _
  | cons s ss ih =>
    cases s with
    | name x => exact ih.cons x
    | block l | skip n | exit f | format f => exact (ih.cons _).trans List.perm_middle.symm

/-- A program defines its globals, its functions, and made symbols. -/
theorem perm_defined {symbols : SymbolTable} {n n' : Nat} {functions : List Fragment} {blocks : List (List Line)}
    (h : Journal.Chain (Assembles symbols) n functions blocks n') (names : List String) (fs : Formats) :
    (defined (heading names ++ blocks.flatten ++ fs.lines)).Perm
      (names ++ functions.map (·.label) ++ made (heading names ++ blocks.flatten ++ fs.lines)) := by
  have hcommons : commons (heading names ++ blocks.flatten ++ fs.lines) = names := by
    rw [commons_append, commons_append, commons_heading, commons_of_chain h, fs.commons_lines, List.append_nil,
      List.append_nil]
  have hnames : (definitions (heading names ++ blocks.flatten ++ fs.lines)).filterMap Symbol.name?
      = functions.map (·.label) := by
    rw [definitions_program, List.filterMap_append, (defined_of_chain h).1, List.filterMap_map]
    simp [Function.comp_def, Symbol.name?]
  rw [defined, hcommons, ← hnames, List.append_assoc names]
  exact (perm_texts _).append_left names

/-! ### Made symbols -/

/-- How the symbols that the compiler makes for a program with these functions are written. -/
inductive MadeForm (functions : List String) : String → Prop
  | block {stem : String} (n : Nat) : stem ∈ Label.stems → MadeForm functions s!"{stem}_L{n}"
  | skip (n : Nat) : MadeForm functions s!".Lskip_{n}"
  | exit {f : String} : f ∈ functions → MadeForm functions s!".Lreturn_{f}"
  | format (f : Format) : MadeForm functions f.symbol

/-- What is written like a made symbol has an underscore or a dot in it. -/
theorem MadeForm.marked {functions : List String} {x : String} (h : MadeForm functions x) :
    '_' ∈ x.toList ∨ '.' ∈ x.toList := by
  cases h with
  | @block stem n _ =>
    left
    show '_' ∈ (Label.numbered stem n).text.toList
    simp [Label.toList_text_numbered]
  | skip n =>
    right
    show '.' ∈ (Symbol.skip n).text.toList
    simp [Symbol.toList_text_skip]
  | @exit f _ =>
    right
    show '.' ∈ (Symbol.exit f).text.toList
    simp [Symbol.toList_text_exit]
  | format f =>
    right
    cases f <;> decide

/-- A label is not written like a format string. -/
theorem Symbol.text_ne_symbol {s : Symbol} (hs : s.isGenerated = true)
    (hdrawn : ∀ l, s = .block l → l.isDrawn = true) (f : Format) : s.text ≠ f.symbol := by
  intro h
  have hlist : s.text.toList = f.symbol.toList := congrArg String.toList h
  cases s with
  | name text | format f => cases hs
  | block l =>
    -- A format string begins with a dot.
    refine head?_text_of_isDrawn (hdrawn l rfl) ?_
    show (Symbol.block l).text.toList.head? = some '.'
    rw [hlist]
    cases f <;> decide
  | skip n =>
    rw [toList_text_skip] at hlist
    cases f <;> simp [Format.symbol] at hlist
  | exit function =>
    rw [toList_text_exit] at hlist
    cases f <;> simp [Format.symbol] at hlist

theorem Format.symbol_inj {f g : Format} : f.symbol = g.symbol ↔ f = g := by
  cases f <;> cases g <;> decide

section Program

variable {names : List String} {blocks : List (List Line)} {fs : Formats}

/-- The made symbols of a program are the labels of its blocks and its format strings. -/
theorem made_program (hformats : (definitions blocks.flatten).filterMap Symbol.format? = []) :
    made (heading names ++ blocks.flatten ++ fs.lines)
      = ((definitions blocks.flatten).filter Symbol.isGenerated).map Symbol.text ++ fs.map Format.symbol := by
  have hblocks : (definitions blocks.flatten).filter Symbol.isMade
      = (definitions blocks.flatten).filter Symbol.isGenerated := by
    refine List.filter_congr fun s hs => ?_
    cases s with
    | format f => cases List.filterMap_eq_nil_iff.1 hformats _ hs
    | _ => rfl
  have hstrings : (fs.map Symbol.format).filter Symbol.isMade = fs.map .format := by
    refine List.filter_eq_self.2 fun s hs => ?_
    obtain ⟨f, -, rfl⟩ := List.mem_map.1 hs
    rfl
  rw [made, definitions_program, List.filter_append, hblocks, hstrings, List.map_append, List.map_map]
  rfl

variable {n n' : Nat} {code : List Linear.Instr} {functions : List String}

theorem drawn_of_marks (hmarks : Context.Marks n code functions (definitions blocks.flatten) n')
    (hcode : Linear.Resolved code) {s : Symbol} (hs : s ∈ definitions blocks.flatten) {l : Label}
    (hl : s = .block l) : l.isDrawn = true := by
  refine hcode.drawn l ?_
  rw [← hmarks.blocks]
  exact List.mem_filterMap.2 ⟨s, hs, by rw [hl]; rfl⟩

/-- **Made symbols differ.** No two of a program are written alike if no two labels of its code are and its functions
have different names. -/
theorem nodup_made (hmarks : Context.Marks n code functions (definitions blocks.flatten) n')
    (hcode : Linear.Resolved code) (hunique : Linear.UniqueLabels code) (hfunctions : functions.Nodup)
    (hformats : (definitions blocks.flatten).filterMap Symbol.format? = []) (hfs : fs.Nodup) :
    (made (heading names ++ blocks.flatten ++ fs.lines)).Nodup := by
  rw [made_program hformats]
  refine List.nodup_append.2 ⟨nodup_text_generated hmarks hcode hunique hfunctions,
    hfs.map fun _ _ => Format.symbol_inj.1, ?_⟩
  intro x hx y hy hxy
  obtain ⟨s, hs, rfl⟩ := List.mem_map.1 hx
  obtain ⟨f, -, rfl⟩ := List.mem_map.1 hy
  obtain ⟨hs, hgenerated⟩ := List.mem_filter.1 hs
  exact Symbol.text_ne_symbol hgenerated (fun l => drawn_of_marks hmarks hcode hs) f hxy

/-- Made symbols have their forms: the labels of linear code because lowering draws them. -/
theorem madeForm_of_mem (hmarks : Context.Marks n code functions (definitions blocks.flatten) n')
    (hcode : Linear.Resolved code) (hformats : (definitions blocks.flatten).filterMap Symbol.format? = []) {x : String}
    (hx : x ∈ made (heading names ++ blocks.flatten ++ fs.lines)) : MadeForm functions x := by
  rw [made_program hformats] at hx
  rcases List.mem_append.1 hx with hx | hx
  · obtain ⟨s, hs, rfl⟩ := List.mem_map.1 hx
    obtain ⟨hs, hgenerated⟩ := List.mem_filter.1 hs
    cases s with
    | name text | format f => cases hgenerated
    | block l =>
      have hdrawn := drawn_of_marks hmarks hcode hs rfl
      cases l with
      | named text => cases hdrawn
      | numbered stem k => exact .block k (of_decide_eq_true hdrawn)
    | skip k => exact .skip k
    | exit f =>
      refine .exit ?_
      rw [← hmarks.exits]
      exact List.mem_filterMap.2 ⟨_, hs, rfl⟩
  · obtain ⟨f, -, rfl⟩ := List.mem_map.1 hx
    exact .format f

end Program

end Arm64

/-! ### Library routines -/

/-- The library routine that carries an instruction out. -/
def Linear.Instr.routine? : Linear.Instr → Option String
  | .alloc .. => some "malloc"
  | .free _ => some "free"
  | .print _ | .println _ => some "printf"
  | .read .. => some "scanf"
  | _ => none

theorem Linear.act?_of_routine? {i : Linear.Instr} {routine : String} (h : i.routine? = some routine) :
    i.act? = some (.call (.name routine)) := by
  cases i with
  | alloc target struct fields | free pointer | print source | println source | read target x =>
    cases h
    rfl
  | _ => cases h

/-- No routine is written like a made symbol. -/
theorem Linear.not_madeForm_routine {i : Linear.Instr} {routine : String} (h : i.routine? = some routine)
    (functions : List String) : ¬ Arm64.MadeForm functions routine := by
  intro hform
  have hmarked := hform.marked
  cases i with
  | alloc target struct fields | free pointer | print source | println source | read target x =>
    cases h
    exact absurd hmarked (by decide)
  | _ => cases h

namespace Arm64

theorem mem_acts_call {w : List Line} {s : Symbol} (h : .call s ∈ acts w) : .instr (.call s) ∈ w := by
  obtain ⟨line, hline, hact⟩ := List.mem_filterMap.1 h
  unfold Line.act? at hact
  split at hact
  · cases hact
    exact hline
  · obtain ⟨_, -, hact⟩ := Option.map_eq_some_iff.1 hact
    cases hact
  · obtain ⟨_, -, hact⟩ := Option.map_eq_some_iff.1 hact
    cases hact
  · cases hact

/-- An instruction that a routine carries out is written as a call of the routine. -/
theorem call_mem_of_routine? {symbols : SymbolTable} {g g' : Generator} {functions : List Fragment}
    {blocks : List (List Line)} (h : Journal.Chain (Generates symbols) g functions blocks g') {frag : Fragment}
    (hfrag : frag ∈ functions) {i : Linear.Instr} (hi : i ∈ frag.body) {routine : String}
    (hroutine : i.routine? = some routine) : .instr (.call (.name routine)) ∈ blocks.flatten := by
  induction h with
  | nil => cases hfrag
  | cons hblock _ ih =>
    rw [List.flatten_cons, List.mem_append]
    rcases List.mem_cons.1 hfrag with rfl | hfrag
    · refine .inl (mem_acts_call ?_)
      rw [hblock.cut.acts_eq]
      exact List.mem_filterMap.2 ⟨i, hi, Linear.act?_of_routine? hroutine⟩
    · exact .inr (ih hfrag)

end Arm64

namespace Session

open Arm64 (Line Formats defined made MadeForm)

/-- **Names and made symbols.** The assembly of a built program that compiles defines the names of its globals and
functions, which differ, and made symbols, which are written differently. So a symbol is defined twice exactly if it is
a name that is written like a made symbol of the assembly, and none is if no name has the form of one. An instruction
that a library routine carries out is written as a call of it, and the routine is defined exactly if the program has its
name. -/
theorem defined_twice_iff {drift : Counters → Counters → Prop} {d : Draft} (hbuilt : d.Built drift)
    {s s' : Session} {lines : List Line} {effects : List Effect}
    (h : (compile d.program).run s = ⟨.ok lines, s', effects⟩) :
    (defined lines).Perm (d.program.names ++ made lines) ∧ d.program.names.Nodup ∧ (made lines).Nodup ∧
      (∀ x, 1 < (defined lines).count x ↔ x ∈ d.program.names ∧ x ∈ made lines) ∧
      (∀ x ∈ made lines, MadeForm (d.program.functions.toList.map (·.name)) x) ∧
      ((∀ x ∈ d.program.names, ¬ MadeForm (d.program.functions.toList.map (·.name)) x) → (defined lines).Nodup) ∧
      ∃ globals functions c w, d.program.lower.run s.counters = ⟨.ok (globals :: functions), c, w⟩ ∧
        ∀ frag ∈ functions, ∀ i ∈ frag.body, ∀ routine, i.routine? = some routine →
          .instr (.call (.name routine)) ∈ lines ∧ (routine ∈ defined lines ↔ routine ∈ d.program.names) := by
  obtain ⟨globals, functions, blocks, c, w, g, hlower, -, hresets, htranslates, hchain, hlines⟩ :=
    compile_generates h
  have hlists := hbuilt.listsGlobals
  have hstep := hbuilt.inStep
  rw [Arm64.header_of_resets hresets hlists.nodup] at hlines
  have hassembles := Arm64.assembles_of_generates hchain ⟨rfl, rfl⟩ (Arm64.bracketed_of_chain htranslates)
  obtain ⟨-, hformats, -⟩ := Arm64.defined_of_chain hassembles
  obtain ⟨-, ⟨ns, hns, hdraws⟩, hresolved⟩ := Program.labels_of_lower hlower
  have hlabels : Linear.labels ((globals :: functions).flatMap (·.body))
      = Linear.labels (functions.flatMap (·.body)) := by
    rw [List.flatMap_cons, Linear.labels_append, hresets.unlabelled.labels_eq, List.nil_append]
  have hmarks := Arm64.marks_of_chain hassembles
  rw [Program.names_of_chain htranslates] at hmarks
  replace hmarks := { hmarks with blocks := hmarks.blocks.trans hlabels.symm }
  have hcode : Linear.Resolved ((globals :: functions).flatMap (·.body)) := .flatMap hresolved
  have hunique : Linear.UniqueLabels ((globals :: functions).flatMap (·.body)) := hns.uniqueLabels hdraws.1
  have hprogram : d.program.names.Nodup := Program.nodup_names hstep hlists
  have hmade : (made lines).Nodup := by
    rw [hlines]
    exact Arm64.nodup_made hmarks hcode hunique hstep.nodup_names hformats (Formats.nodup_ofCode _)
  have hforms : ∀ x ∈ made lines, MadeForm (d.program.functions.toList.map (·.name)) x := by
    rw [hlines]
    exact fun x => Arm64.madeForm_of_mem hmarks hcode hformats
  have hperm : (defined lines).Perm (d.program.names ++ made lines) := by
    rw [hlines, Program.names, ← Program.names_of_chain htranslates]
    exact Arm64.perm_defined hassembles _ _
  have hcount : ∀ x, 1 < (defined lines).count x ↔ x ∈ d.program.names ∧ x ∈ made lines := by
    intro x
    have hname := List.nodup_iff_count_le_one.1 hprogram x
    have hsymbol := List.nodup_iff_count_le_one.1 hmade x
    rw [hperm.count_eq, List.count_append, ← List.count_pos_iff, ← List.count_pos_iff]
    omega
  refine ⟨hperm, hprogram, hmade, hcount, hforms, fun hfree => List.nodup_iff_count_le_one.2 fun x => ?_,
    globals, functions, c, w, hlower, fun frag hfrag i hi routine hroutine => ⟨?_, ?_⟩⟩
  · by_contra htwice
    obtain ⟨hname, hsymbol⟩ := (hcount x).1 (by omega)
    exact hfree x hname (hforms x hsymbol)
  · rw [hlines, List.mem_append, List.mem_append]
    exact .inl (.inr (Arm64.call_mem_of_routine? hchain hfrag hi hroutine))
  · rw [hperm.mem_iff, List.mem_append]
    exact or_iff_left fun hx => Linear.not_madeForm_routine hroutine _ (hforms routine hx)

/-- The names of `Draft.tally` have neither underscores nor dots, and it reads and prints. -/
theorem defined_twice_iff_tally : Draft.tally.Built Draft.Onward ∧ ∃ lines s effects,
    (compile Draft.tally.program).run {} = ⟨.ok lines, s, effects⟩ ∧ (made lines).length = 6 ∧
    (defined lines).Nodup ∧ .instr (.call (.name "scanf")) ∈ lines ∧ "scanf" ∉ defined lines := by
  have hbuilt := Draft.built_tally Draft.Onward
  have hview : ((compile Draft.tally.program).eval {}).toOption.map (fun lines => (made lines).length)
      = some 6 := by decide +kernel
  obtain ⟨lines, s, effects, hcompile, hlength⟩ := Journal.run_ok_of_view hview
  obtain ⟨-, -, -, -, -, hsafe, globals, functions, c, w, hlower, hroutines⟩ := defined_twice_iff hbuilt hcompile
  have hreads : ∃ frag ∈ functions, ∃ i ∈ frag.body, i.routine? = some "scanf" := by
    have hview : (Draft.tally.program.lower.eval ({} : Session).counters).toOption.map (fun fragments =>
        fragments.tail.any fun frag => frag.body.any fun i => i.routine? = some "scanf") = some true := by
      decide +kernel
    rw [Journal.eval, hlower] at hview
    simpa [Except.toOption] using hview
  obtain ⟨frag, hfrag, i, hi, hroutine⟩ := hreads
  obtain ⟨hcall, hdefined⟩ := hroutines frag hfrag i hi "scanf" hroutine
  have hnames : ∀ x ∈ Draft.tally.program.names, ¬ ('_' ∈ x.toList ∨ '.' ∈ x.toList) := by decide +kernel
  exact ⟨hbuilt, lines, s, effects, hcompile, hlength, hsafe fun x hx hform => hnames x hx hform.marked, hcall,
    fun hx => absurd (hdefined.1 hx) (by decide +kernel)⟩

end Session

namespace Draft

/-- The nodes of a function that sets a global to a new struct if a test holds. -/
def capturedNodes : Nodes where
  exprs := ⟨#[.bool true, .name "S", .call "new" [1]]⟩
  stmts := ⟨#[.assign ⟨"malloc", []⟩ 2, .cond 0 [0] none]⟩

/-- The program with this function. It has the name of a label, and the global has that of a routine. -/
def captured : Draft :=
  ((do
    declareStruct "S" [("x", .int)]
    let _ ← declareGlobal "malloc" (.struct "S")
    let k ← declareFunction "done_L0" [] .void
    pushStatement k 1 : Extend Unit).run ⟨{ nodes := capturedNodes }, {}⟩).state

theorem built_captured (drift : Counters → Counters → Prop) : captured.Built drift := by
  have hnodes := Built.ofNodes drift capturedNodes {}
  have hstruct := hnodes.add (.declareStruct
    (show (declareStruct "S" [("x", .int)]).run _ = _ from rfl)) ⟨rfl, by decide⟩
  have hglobal := hstruct.add (.declareGlobal (show (declareGlobal "malloc" (.struct "S")).run _ = _ from rfl)) rfl
  have hfunction := hglobal.add (.declareFunction
    (show (declareFunction "done_L0" [] .void).run _ = _ from rfl)) ⟨rfl, by decide⟩
  exact hfunction.add (.pushStatement (show (pushStatement 0 1).run _ = _ from rfl)) trivial

end Draft

/-- Names are not kept apart from made symbols and routines. The name of the function is defined a second time, as the
label after the conditional, and what is called for the new struct is the global. -/
theorem Session.symbols_captured : Draft.captured.Built Draft.Onward ∧ ∃ lines s effects,
    (compile Draft.captured.program).run {} = ⟨.ok lines, s, effects⟩ ∧
    (Arm64.defined lines).count "done_L0" = 2 ∧ ¬ (Arm64.defined lines).Nodup ∧
    .instr (.call (.name "malloc")) ∈ lines ∧ .directive (.common "malloc") ∈ lines := by
  have hview : ((compile Draft.captured.program).eval {}).toOption.map (fun lines =>
      ((Arm64.defined lines).count "done_L0", decide (.instr (.call (.name "malloc")) ∈ lines),
        decide (.directive (.common "malloc") ∈ lines))) = some (2, true, true) := by decide +kernel
  obtain ⟨lines, s, effects, hcompile, hlines⟩ := Journal.run_ok_of_view hview
  obtain ⟨hcount, hcall, hcommon⟩ : (Arm64.defined lines).count "done_L0" = 2 ∧
      .instr (.call (.name "malloc")) ∈ lines ∧ .directive (.common "malloc") ∈ lines := by
    simpa using hlines
  refine ⟨Draft.built_captured _, lines, s, effects, hcompile, hcount, fun hnodup => ?_, hcall, hcommon⟩
  have hle := List.nodup_iff_count_le_one.1 hnodup "done_L0"
  omega

end Spillway
