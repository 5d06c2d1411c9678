import Mathlib.Data.List.Induction
import Spillway.Proofs.Arm64.Generation
import Spillway.Proofs.Arm64.Labels
import Spillway.Proofs.Distinct
import Spillway.Proofs.Program.Globals

/-!
# Functions are generated one by one

The generator goes on from function to function, but of what it has done before only two things show: how many
conditional moves there were, and which format strings are in use. In particular the pool and the place of the
parameters are as at the start, since calls are ended in the code of every function. So the block of a function in a
program is that of the function alone, with a number added to those of its conditional moves.

* `Generates.alone` — the block of one function.
* `Session.blocks_independent` — the blocks of a program that compiles.
-/

namespace Spillway

namespace Arm64

open Linear (Fragment Bracketed)

variable {g g' : Generator} {symbols : SymbolTable} {globals frag : Fragment} {block : List Line}
  {functions : List Fragment} {blocks : List (List Line)}

/-! ### The header -/

/-- The lines before the functions of a program that has these globals. -/
def heading (names : List String) : List Line :=
  .directive .arch :: names.map (fun x => .directive (.common x)) ++ [.directive .code]

/-- Each global is reserved once, in the order of their list. -/
theorem header_of_resets {env : Lowering.Env} {names : List String} (h : env.Resets names globals.body)
    (hnames : names.Nodup) : header globals = heading names := by
  rw [header, h.global?_eq, eraseDups_of_nodup hnames, heading]

/-! ### Format strings -/

/-- The format strings that code refers to, in the order of first reference. -/
def Formats.ofCode (code : List Linear.Instr) : Formats := (code.filterMap Linear.Instr.format?).eraseDups

/-- Format strings that are marked one after the other are in the order of first use. -/
theorem Formats.foldl_mark_nil (fs : List Format) : fs.foldl Formats.mark [] = fs.eraseDups := by
  induction fs using List.reverseRecOn with
  | nil => rfl
  | append_singleton fs f ih =>
    rw [List.foldl_append, ih, List.eraseDups_append, List.foldl_cons, List.foldl_nil, mark]
    by_cases hf : f ∈ fs
    · simp [hf, List.removeAll]
    · simp [hf, List.removeAll, List.eraseDups_cons]

/-- The format strings in use after several functions. -/
theorem formats_of_chain (h : Journal.Chain (Generates symbols) g functions blocks g') :
    g'.formats = ((functions.flatMap (·.body)).filterMap Linear.Instr.format?).foldl Formats.mark g.formats := by
  induction h with
  | nil => rfl
  | cons hblock _ ih =>
    rw [ih, hblock.leaves.2, List.flatMap_cons, List.filterMap_append, List.foldl_append]

/-- The format strings in use at the end of a program. -/
theorem formats_eq_ofCode (h : Journal.Chain (Generates symbols) {} functions blocks g') :
    g'.formats = .ofCode (functions.flatMap (·.body)) :=
  (formats_of_chain h).trans (Formats.foldl_mark_nil _)

/-! ### One function alone -/

/-- Between functions a generator differs from a new one only in what it has counted and marked. -/
theorem Generator.Rested.enter_eq (h : g.Rested) (frame : Frame) :
    g.enter frame = (Generator.enter {} frame).later g.skips g.formats := by
  obtain ⟨pool, scratch, saved, skips, formats⟩ := g
  obtain ⟨hsaved, hscratch⟩ := h
  cases hsaved
  cases hscratch
  rfl

/-- **One function.** A function that is generated later in a program has the same block as alone, up to the numbers
of its conditional moves. -/
theorem Generates.alone (h : Generates symbols g frag block g') (hg : g.Rested) :
    ∃ alone t, Generates symbols {} frag alone t ∧ block = alone.map (Line.later g.skips) := by
  obtain ⟨frame, returns, hlays, hrun⟩ := h.lays
  obtain ⟨w, hfunction⟩ := hlays.run {}
  have hdelays := (enter_outcome (g := {}) frag frame returns rfl).delays g.skips g.formats
  rw [← hg.enter_eq, hrun] at hdelays
  rcases hblock : (Context.block ⟨frag.label, frame⟩ frag.body returns).run (Generator.enter {} frame)
    with ⟨e | u, t, alone⟩
  · rw [hblock] at hdelays
    cases hdelays
  · rw [hblock] at hdelays hfunction
    obtain ⟨-, -, hlines⟩ := Run.mk.inj hdelays
    exact ⟨alone, t, ⟨rfl, w, hfunction⟩, hlines⟩

/-- The assembly of a program with this one function. -/
theorem Generates.eval_singleton {alone : List Line} (h : Generates symbols {} frag alone g')
    (hglobals : globals.isGlobals = true) (g : Generator) :
    (generate [globals, frag] symbols).eval g
      = .ok (header globals ++ alone ++ Formats.lines (.ofCode frag.body)) := by
  have hchain : Journal.Chain (Generates symbols) {} [frag] [alone] g' := .cons h .nil
  obtain ⟨w, hrun⟩ := generate_ok_iff.2 ⟨globals, [frag], [alone], rfl, hglobals, hchain, rfl⟩
  rw [Journal.eval, hrun, formats_eq_ofCode hchain, List.flatMap_singleton, List.flatten_singleton]

/-- What is generated for functions that end their calls. -/
theorem assembles_of_generates (h : Journal.Chain (Generates symbols) g functions blocks g') (hg : g.Rested)
    (hcode : ∀ frag ∈ functions, Bracketed (Context.Reached fun _ => True) frag.body) :
    Journal.Chain (Assembles symbols) g.skips functions blocks g'.skips := by
  have hfollows : Journal.Chain (Follows symbols) g functions blocks g' := by
    refine h.mono fun hblock => ?_
    obtain ⟨w, hrun⟩ := hblock.2
    exact follows_of_generateFunction hrun
  exact (assembles_of_chain hfollows hg hcode).2

/-- The block of a function is that of the function alone, with a number added to those of its conditional
moves. -/
def Independent (symbols : SymbolTable) (globals frag : Fragment) (block : List Line) : Prop :=
  ∃ n alone, block = alone.map (Line.later n) ∧ ∀ g, (generate [globals, frag] symbols).eval g
    = .ok (header globals ++ alone ++ Formats.lines (.ofCode frag.body))

/-- Calls that are ended in every function leave the generator rested, so that every block is independent. -/
theorem independent_of_chain (h : Journal.Chain (Generates symbols) g functions blocks g') (hg : g.Rested)
    (hcode : ∀ frag ∈ functions, Bracketed (Context.Reached fun _ => True) frag.body)
    (hglobals : globals.isGlobals = true) :
    List.Forall₂ (Independent symbols globals) functions blocks := by
  induction h with
  | nil => exact .nil
  | cons hblock _ ih =>
    obtain ⟨alone, t, halone, hlines⟩ := hblock.alone hg
    obtain ⟨w, hrun⟩ := hblock.2
    obtain ⟨hg₁, -⟩ := follows_of_generateFunction hrun hg (hcode _ (List.mem_cons_self ..))
    refine .cons ⟨_, alone, hlines, halone.eval_singleton hglobals⟩ (ih hg₁ fun frag hfrag => ?_)
    exact hcode frag (List.mem_cons_of_mem _ hfrag)

end Arm64

namespace Session

open Linear (Fragment)
open Arm64 (Generates Line Formats Independent)

/-- What was lowered and generated for a program that compiles. -/
theorem compile_generates {p : Program} {s s' : Session} {lines : List Line} {effects : List Effect}
    (h : (compile p).run s = ⟨.ok lines, s', effects⟩) :
    ∃ globals functions blocks c w g, p.lower.run s.counters = ⟨.ok (globals :: functions), c, w⟩ ∧
      globals.isGlobals = true ∧ (p.env SymbolTable.global).Resets p.globals globals.body ∧
      Journal.Chain p.Translates s.counters p.functions.toList functions c ∧
      Journal.Chain (Generates p.symbols) {} functions blocks g ∧
      lines = Arm64.header globals ++ blocks.flatten ++ Formats.lines (.ofCode (functions.flatMap (·.body))) := by
  obtain ⟨fragments, c, w, g, w', hlower, hgenerate⟩ := compile_ok h
  obtain ⟨globals, functions, rfl, -, hresets, htranslates⟩ := Program.translates_of_lower hlower
  obtain ⟨globals', functions', blocks, hfragments, hglobals, hchain, rfl⟩ :=
    Arm64.generate_ok_iff.1 ⟨w', hgenerate⟩
  cases hfragments
  refine ⟨globals, functions, blocks, c, w, g, hlower, hglobals, hresets, htranslates, hchain, ?_⟩
  rw [Arm64.formats_eq_ofCode hchain]

/-- **Functions are independent.** The assembly of a built program that compiles is a heading, which reserves each
global once, one block for each function in the order of declaration, and the format strings that the code refers to.
The block of a function is what is generated from its fragment and that of the globals alone, with one number added to
those of its conditional moves. -/
theorem blocks_independent {drift : Counters → Counters → Prop} {d : Draft} (hbuilt : d.Built drift)
    {s s' : Session} {lines : List Line} {effects : List Effect}
    (h : (compile d.program).run s = ⟨.ok lines, s', effects⟩) :
    ∃ globals functions blocks c w, d.program.lower.run s.counters = ⟨.ok (globals :: functions), c, w⟩ ∧
      functions.map (·.label) = d.program.functions.toList.map (·.name) ∧ d.program.globals.Nodup ∧
      Arm64.header globals = Arm64.heading d.program.globals ∧
      lines = Arm64.header globals ++ blocks.flatten ++ Formats.lines (.ofCode (functions.flatMap (·.body))) ∧
      List.Forall₂ (Independent d.program.symbols globals) functions blocks := by
  obtain ⟨globals, functions, blocks, c, w, g, hlower, hglobals, hresets, htranslates, hchain, rfl⟩ :=
    compile_generates h
  have hnodup := hbuilt.listsGlobals.nodup
  refine ⟨globals, functions, blocks, c, w, hlower, Program.names_of_chain htranslates, hnodup,
    Arm64.header_of_resets hresets hnodup, rfl, ?_⟩
  exact Arm64.independent_of_chain hchain ⟨rfl, rfl⟩ (Arm64.bracketed_of_chain htranslates) hglobals

end Session

/-! ### Two functions and a global -/

namespace Draft

/-- The nodes of a function that tests its parameter, and of one that reads a global, calls the first function with it,
sets it to a test of the result and prints it. -/
def tallyNodes : Nodes where
  exprs := ⟨#[.name "total", .int 0, .chain 0 [(.gt, 1)], .call "positive" [0], .chain 3 [(.gt, 1)]]⟩
  stmts := ⟨#[.ret (some 2), .read "total", .assign ⟨"total", []⟩ 4, .print "total" true]⟩

/-- The program with these two functions and two globals. The parameter of the first has the name of a global. -/
def tally : Draft :=
  ((do
    let _ ← declareGlobal "total" .int
    let _ ← declareGlobal "spare" .int
    let k ← declareFunction "positive" [("total", .int)] .bool
    pushStatement k 0
    let m ← declareFunction "main" [] .void
    pushStatement m 1
    pushStatement m 2
    pushStatement m 3 : Extend Unit).run ⟨{ nodes := tallyNodes }, {}⟩).state

theorem built_tally (drift : Counters → Counters → Prop) : tally.Built drift := by
  have hnodes := Built.ofNodes drift tallyNodes {}
  have htotal := hnodes.add (.declareGlobal (show (declareGlobal "total" .int).run _ = _ from rfl)) rfl
  have hspare := htotal.add (.declareGlobal (show (declareGlobal "spare" .int).run _ = _ from rfl)) rfl
  have hpositive := hspare.add (.declareFunction
    (show (declareFunction "positive" [("total", .int)] .bool).run _ = _ from rfl)) ⟨rfl, by decide⟩
  have htest := hpositive.add (.pushStatement (show (pushStatement 0 0).run _ = _ from rfl)) trivial
  have hmain := htest.add (.declareFunction
    (show (declareFunction "main" [] .void).run _ = _ from rfl)) ⟨rfl, by decide⟩
  have hread := hmain.add (.pushStatement (show (pushStatement 1 1).run _ = _ from rfl)) trivial
  have hassign := hread.add (.pushStatement (show (pushStatement 1 2).run _ = _ from rfl)) trivial
  exact hassign.add (.pushStatement (show (pushStatement 1 3).run _ = _ from rfl)) trivial

end Draft

/-- The second function of `Draft.tally` has a conditional move after that of the first. -/
theorem Session.blocks_independent_tally : Draft.tally.Built Draft.Onward ∧ ∃ lines s effects,
    (compile Draft.tally.program).run {} = ⟨.ok lines, s, effects⟩ ∧
    (Arm64.definitions lines).filterMap Arm64.Symbol.skip? = [0, 1] ∧
    ∃ globals functions blocks c w,
      Draft.tally.program.lower.run ({} : Session).counters = ⟨.ok (globals :: functions), c, w⟩ ∧
      functions.map (·.label) = Draft.tally.program.functions.toList.map (·.name) ∧
      Draft.tally.program.globals.Nodup ∧ Arm64.header globals = Arm64.heading Draft.tally.program.globals ∧
      lines = Arm64.header globals ++ blocks.flatten ++
        Arm64.Formats.lines (.ofCode (functions.flatMap (·.body))) ∧
      List.Forall₂ (Arm64.Independent Draft.tally.program.symbols globals) functions blocks := by
  have hbuilt := Draft.built_tally Draft.Onward
  have hview : ((compile Draft.tally.program).eval {}).toOption.map
      (fun lines => (Arm64.definitions lines).filterMap Arm64.Symbol.skip?) = some [0, 1] := by decide +kernel
  obtain ⟨lines, s, effects, hcompile, hskips⟩ := Journal.run_ok_of_view hview
  exact ⟨hbuilt, lines, s, effects, hcompile, hskips, blocks_independent hbuilt hcompile⟩

end Spillway
