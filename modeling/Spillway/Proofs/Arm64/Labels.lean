import Spillway.Proofs.Arm64.Blocks
import Spillway.Proofs.Lowering.Branches
import Spillway.Proofs.Program.Built

/-!
# Labels of assembly

Three kinds of labels are made by the compiler: those of linear code, one for each conditional move, and one
for the end of each function. Over a whole program no two of them are written alike, and every jump goes to a
label of the block that it stands in.

* `Symbol.isGenerated` — the labels that the compiler makes.
* `Program.labels_resolve` — they are written differently, and jumps go to labels of their own blocks.
-/

namespace Spillway.Arm64

open Linear (Fragment labels branches)

/-! ### Three kinds of labels -/

namespace Symbol

/-- The label of linear code that a symbol stands for. -/
def block? : Symbol → Option Label
  | .block l => some l
  | _ => none

/-- The number of the conditional move that a symbol is the end of. -/
def skip? : Symbol → Option Nat
  | .skip n => some n
  | _ => none

/-- The function that a symbol is the end of. -/
def exit? : Symbol → Option String
  | .exit function => some function
  | _ => none

/-- Whether a symbol is a label that the compiler makes. -/
def isGenerated : Symbol → Bool
  | .block _ | .skip _ | .exit _ => true
  | .name _ | .format _ => false

end Symbol

/-- Labels that the compiler makes differ if those of each kind do. -/
theorem nodup_generated {ss : List Symbol} (hblocks : (ss.filterMap Symbol.block?).Nodup)
    (hskips : (ss.filterMap Symbol.skip?).Nodup) (hexits : (ss.filterMap Symbol.exit?).Nodup) :
    (ss.filter Symbol.isGenerated).Nodup := by
  induction ss with
  | nil => exact List.nodup_nil
  | cons s ss ih =>
    cases s with
    | name text | format f => exact ih hblocks hskips hexits
    | block l =>
      obtain ⟨hl, hrest⟩ := List.nodup_cons.1 hblocks
      refine List.nodup_cons.2 ⟨fun hmem => hl ?_, ih hrest hskips hexits⟩
      exact List.mem_filterMap.2 ⟨_, List.mem_of_mem_filter hmem, rfl⟩
    | skip n =>
      obtain ⟨hn, hrest⟩ := List.nodup_cons.1 hskips
      refine List.nodup_cons.2 ⟨fun hmem => hn ?_, ih hblocks hrest hexits⟩
      exact List.mem_filterMap.2 ⟨_, List.mem_of_mem_filter hmem, rfl⟩
    | exit function =>
      obtain ⟨hf, hrest⟩ := List.nodup_cons.1 hexits
      refine List.nodup_cons.2 ⟨fun hmem => hf ?_, ih hblocks hskips hrest⟩
      exact List.mem_filterMap.2 ⟨_, List.mem_of_mem_filter hmem, rfl⟩

/-! ### Texts -/

theorem Symbol.toList_text_skip (n : Nat) :
    (Symbol.skip n).text.toList = ['.', 'L', 's', 'k', 'i', 'p', '_'] ++ Nat.toDigits 10 n := by
  show (".Lskip_" ++ toString n).toList = _
  rw [String.toList_append, Nat.toString_eq_repr, Nat.toList_repr]
  rfl

theorem Symbol.toList_text_exit (function : String) :
    (Symbol.exit function).text.toList
      = ['.', 'L', 'r', 'e', 't', 'u', 'r', 'n', '_'] ++ function.toList := by
  show (".Lreturn_" ++ function).toList = _
  rw [String.toList_append]
  rfl

/-- A label that lowering draws does not begin with a dot. -/
theorem head?_text_of_isDrawn {l : Label} (h : l.isDrawn = true) : l.text.toList.head? ≠ some '.' := by
  cases l with
  | named text => cases h
  | numbered stem n =>
    have hstem : stem ∈ Label.stems := of_decide_eq_true h
    rw [Label.toList_text_numbered]
    simp only [Label.stems, List.mem_cons, List.not_mem_nil, or_false] at hstem
    rcases hstem with rfl | rfl | rfl | rfl <;> simp

/-- **Labels show what they are.** Generated labels that are written alike are the same, provided that those of
linear code are drawn by lowering and differ among each other. -/
theorem Symbol.eq_of_text_eq {ls : List Label} (hdrawn : ∀ l ∈ ls, l.isDrawn = true)
    (hunique : (ls.map Label.text).Nodup) {s s' : Symbol} (hs : s.isGenerated = true)
    (hs' : s'.isGenerated = true) (hblock : ∀ l, s = .block l → l ∈ ls)
    (hblock' : ∀ l, s' = .block l → l ∈ ls) (h : s.text = s'.text) : s = s' := by
  have hlist : s.text.toList = s'.text.toList := congrArg String.toList h
  -- A label of linear code is told from the two other kinds by its first letter.
  have hdot : ∀ {l : Label} {t : Symbol} {cs : List Char}, l ∈ ls → (Symbol.block l).text.toList = t.text.toList →
      t.text.toList = '.' :: cs → False := by
    intro l t cs hl htext hcs
    refine head?_text_of_isDrawn (hdrawn l hl) ?_
    show (Symbol.block l).text.toList.head? = some '.'
    rw [htext, hcs]
    rfl
  cases s with
  | name text | format f => cases hs
  | block l =>
    have hl := hblock l rfl
    cases s' with
    | name text | format f => cases hs'
    | block l' => exact congrArg _ (List.inj_on_of_nodup_map hunique hl (hblock' l' rfl) h)
    | skip n => exact (hdot hl hlist (toList_text_skip n)).elim
    | exit function => exact (hdot hl hlist (toList_text_exit function)).elim
  | skip n =>
    cases s' with
    | name text | format f => cases hs'
    | block l' => exact (hdot (hblock' l' rfl) hlist.symm (toList_text_skip n)).elim
    | skip n' =>
      rw [toList_text_skip, toList_text_skip] at hlist
      have hparsed := congrArg (fun ds => Nat.ofDigitChars 10 ds 0) (List.append_cancel_left hlist)
      exact congrArg _ (by simpa using hparsed)
    | exit function =>
      rw [toList_text_skip, toList_text_exit] at hlist
      simp at hlist
  | exit function =>
    cases s' with
    | name text | format f => cases hs'
    | block l' => exact (hdot (hblock' l' rfl) hlist.symm (toList_text_exit function)).elim
    | skip n =>
      rw [toList_text_skip, toList_text_exit] at hlist
      simp at hlist
    | exit function' =>
      rw [toList_text_exit, toList_text_exit] at hlist
      exact congrArg _ (String.ext (List.append_cancel_left hlist))

/-! ### Blocks -/

namespace Context

variable {ctx : Context} {n n' : Nat} {code : List Linear.Instr} {w : List Line}

theorem labels_cons_of_isStraight {i : Linear.Instr} (h : isStraight i = true) (code : List Linear.Instr) :
    labels (i :: code) = labels code := by
  cases i with
  | label l => cases h
  | _ => rfl

theorem labels_callCode (arguments : List VReg) (callee : String) (target : Option VReg)
    (code : List Linear.Instr) : labels (Linear.callCode arguments callee target ++ code) = labels code := by
  cases target <;> rfl

theorem branches_cons_of_isStraight {i : Linear.Instr} (h : isStraight i = true) (code : List Linear.Instr) :
    branches (i :: code) = branches code := by
  cases i with
  | branch guard l => cases h
  | _ => rfl

theorem branches_callCode (arguments : List VReg) (callee : String) (target : Option VReg)
    (code : List Linear.Instr) :
    branches (Linear.callCode arguments callee target ++ code) = branches code := by
  cases target <;> rfl

/-- The lines of a conditional move and those after it. -/
theorem definitions_skip (hw : ctx.frame.Straight 0 w 0) (c : Linear.Cond) (n : Nat) (w' : List Line) :
    definitions (.instr (.branchOn c (.skip n)) :: w ++ .label (.skip n) :: w') = .skip n :: definitions w' :=
  hw.definitions_append _

theorem jumps_skip (hw : ctx.frame.Straight 0 w 0) (c : Linear.Cond) (n : Nat) (w' : List Line) :
    jumps (.instr (.branchOn c (.skip n)) :: w ++ .label (.skip n) :: w') = .skip n :: jumps w' :=
  congrArg (Symbol.skip n :: ·) (hw.jumps_append _)

/-- The labels that the compiler makes for code, kind by kind: those of the code, one for each conditional move,
and one for the end of each function. -/
structure Marks (n : Nat) (code : List Linear.Instr) (functions : List String) (ss : List Symbol) (n' : Nat) :
    Prop where
  le : n ≤ n'
  blocks : ss.filterMap Symbol.block? = labels code
  skips : ss.filterMap Symbol.skip? = List.range' n (n' - n)
  exits : ss.filterMap Symbol.exit? = functions

theorem Marks.nil (n : Nat) : Marks n [] [] [] n :=
  ⟨Nat.le_refl _, rfl, by rw [Nat.sub_self]; rfl, rfl⟩

theorem Marks.append {n₁ : Nat} {code' : List Linear.Instr} {fs fs' : List String} {ss ss' : List Symbol}
    (h : Marks n code fs ss n₁) (h' : Marks n₁ code' fs' ss' n') :
    Marks n (code ++ code') (fs ++ fs') (ss ++ ss') n' := by
  have hle := h.le
  have hle' := h'.le
  refine ⟨Nat.le_trans hle hle', ?_, ?_, ?_⟩
  · rw [List.filterMap_append, h.blocks, h'.blocks, Linear.labels_append]
  · have hnext : n₁ = n + 1 * (n₁ - n) := by omega
    have hsum : n' - n = (n₁ - n) + (n' - n₁) := by omega
    rw [List.filterMap_append, h.skips, h'.skips, hsum, ← List.range'_append, ← hnext]
  · rw [List.filterMap_append, h.exits, h'.exits]

theorem Writes.marks (h : ctx.Writes n code w n') : Marks n code [] (definitions w) n' := by
  induction h with
  | nil => exact .nil _
  | straight hi hw _ ih =>
    rw [hw.definitions_append]
    exact { ih with blocks := ih.blocks.trans (labels_cons_of_isStraight hi _).symm }
  | call _ hw _ ih =>
    rw [hw.definitions_append]
    exact { ih with blocks := ih.blocks.trans (labels_callCode ..).symm }
  | @skip n n' target source c code w w' hw _ ih =>
    have hone : Marks n [.mov target source (.on c)] [] [.skip n] (n + 1) :=
      ⟨Nat.le_succ n, rfl, by rw [Nat.add_sub_cancel_left]; rfl, rfl⟩
    rw [definitions_skip hw]
    exact hone.append ih
  | branch _ ih | branchOn _ ih => exact { ih with }
  | @label n n' l code w' _ ih => exact { ih with blocks := congrArg (l :: ·) ih.blocks }
  | leave hw _ ih =>
    rw [hw.definitions_append]
    exact { ih with }

/-- A label that a jump in the lines of a body may go to: one of the code, or one of the lines, or the end of the
function. -/
def Goal (ctx : Context) (code : List Linear.Instr) (w : List Line) (s : Symbol) : Prop :=
  s = .exit ctx.name ∨ s ∈ definitions w ∨ ∃ l ∈ branches code, s = .block l

theorem Writes.jumps_goal (h : ctx.Writes n code w n') : ∀ s ∈ jumps w, ctx.Goal code w s := by
  induction h with
  | nil => exact nofun
  | straight hi hw _ ih =>
    intro s hs
    rw [hw.jumps_append] at hs
    rw [Goal, hw.definitions_append, branches_cons_of_isStraight hi]
    exact ih s hs
  | call _ hw _ ih =>
    intro s hs
    rw [hw.jumps_append] at hs
    rw [Goal, hw.definitions_append, branches_callCode]
    exact ih s hs
  | skip hw _ ih =>
    rw [jumps_skip hw]
    refine List.forall_mem_cons.2 ⟨?_, fun s hs => ?_⟩
    · rw [Goal, definitions_skip hw]
      exact .inr (.inl (List.mem_cons_self ..))
    · rw [Goal, definitions_skip hw]
      exact (ih s hs).imp_right (Or.imp_left (List.mem_cons_of_mem _))
  | branch _ ih | branchOn _ ih =>
    refine List.forall_mem_cons.2 ⟨.inr (.inr ⟨_, List.mem_cons_self .., rfl⟩), fun s hs => ?_⟩
    exact (ih s hs).imp_right (Or.imp_right fun ⟨l, hl, hs⟩ => ⟨l, List.mem_cons_of_mem _ hl, hs⟩)
  | label _ ih => exact fun s hs => (ih s hs).imp_right (Or.imp_left (List.mem_cons_of_mem _))
  | leave hw _ ih =>
    intro s hs
    rw [hw.jumps_append] at hs
    rw [Goal, hw.definitions_append]
    rcases List.mem_cons.1 hs with rfl | hs
    · exact .inl rfl
    · exact ih s hs

theorem definitions_epilogue (ctx : Context) (returns : Ty) :
    definitions (ctx.epilogue returns) = [.exit ctx.name] := by
  rcases ctx.status_cases returns with hstatus | hstatus <;> rw [epilogue, hstatus] <;> rfl

theorem jumps_epilogue (ctx : Context) (returns : Ty) : jumps (ctx.epilogue returns) = [] := by
  rcases ctx.status_cases returns with hstatus | hstatus <;> rw [epilogue, hstatus] <;> rfl

/-- What a block defines: the function, the labels of its body, and its end. -/
theorem definitions_block (ctx : Context) (body : List Line) (returns : Ty) :
    definitions (ctx.prologue ++ body ++ ctx.epilogue returns)
      = .name ctx.name :: definitions body ++ [.exit ctx.name] := by
  rw [definitions_append, definitions_append, definitions_epilogue]
  rfl

theorem jumps_block (ctx : Context) (body : List Line) (returns : Ty) :
    jumps (ctx.prologue ++ body ++ ctx.epilogue returns) = jumps body := by
  rw [jumps_append, jumps_append, jumps_epilogue, List.append_nil]
  rfl

theorem IsBlock.marks {returns : Ty} {block : List Line} (h : ctx.IsBlock returns n code block n') :
    Marks n code [ctx.name] (definitions block) n' := by
  obtain ⟨body, hbody, rfl⟩ := h
  have hopening : Marks n [] [] [.name ctx.name] n := { Marks.nil n with }
  have hclosing : Marks n' [] [ctx.name] [.exit ctx.name] n' := { Marks.nil n' with exits := rfl }
  rw [definitions_block]
  simpa using (hopening.append hbody.marks).append hclosing

/-- **Jumps stay inside.** If the branches of the code go to labels of the code, then the jumps of its block go
to labels of the block. -/
theorem IsBlock.jumps_subset {returns : Ty} {block : List Line} (h : ctx.IsBlock returns n code block n')
    (hcode : branches code ⊆ labels code) : jumps block ⊆ definitions block := by
  obtain ⟨body, hbody, rfl⟩ := h
  rw [jumps_block, definitions_block, List.cons_append]
  intro s hs
  refine List.mem_cons_of_mem _ (List.mem_append.2 ?_)
  rcases hbody.jumps_goal s hs with rfl | hs | ⟨l, hl, rfl⟩
  · exact .inr (List.mem_singleton_self _)
  · exact .inl hs
  · have hmem : l ∈ (definitions body).filterMap Symbol.block? := by
      rw [hbody.marks.blocks]
      exact hcode hl
    obtain ⟨s, hs, hl⟩ := List.mem_filterMap.1 hmem
    cases s with
    | block l' =>
      cases hl
      exact .inl hs
    | _ => cases hl

end Context

/-! ### Programs -/

/-- Over several blocks the numbers of the conditional moves go on from one to the next. -/
theorem marks_of_chain {symbols : SymbolTable} {n n' : Nat} {functions : List Fragment}
    {blocks : List (List Line)} (h : Journal.Chain (Assembles symbols) n functions blocks n') :
    Context.Marks n (functions.flatMap (·.body)) (functions.map (·.label)) (definitions blocks.flatten) n' := by
  induction h with
  | nil => exact .nil _
  | cons hblock _ ih =>
    obtain ⟨signature, parameters, frame, -, -, -, hlines⟩ := hblock
    rw [List.flatten_cons, definitions_append]
    exact hlines.marks.append ih

/-- A block of a function whose jumps all go to labels of the block. -/
def ClosedBlock (f : FunctionDecl) (block : List Line) : Prop :=
  ∃ ctx : Context, ∃ returns body, ctx.name = f.name ∧
    block = ctx.prologue ++ body ++ ctx.epilogue returns ∧ jumps block ⊆ definitions block

theorem closed_of_chains {p : Program} {symbols : SymbolTable} {c c' : Counters} {fs : List FunctionDecl}
    {frags : List Fragment} {blocks : List (List Line)} {n n' : Nat}
    (h : Journal.Chain p.Translates c fs frags c') (h' : Journal.Chain (Assembles symbols) n frags blocks n') :
    List.Forall₂ ClosedBlock fs blocks := by
  refine h.through h' fun hf hblock => ?_
  obtain ⟨signature, parameters, frame, -, -, -, hlines⟩ := hblock
  have hjumps := hlines.jumps_subset (hf.resolved.within (List.Subset.refl _))
  obtain ⟨body, -, hblock⟩ := hlines
  exact ⟨_, signature.returns, body, hf.1, hblock, hjumps⟩

/-- Lines without jumps and without labels that the compiler makes. -/
structure Still (lines : List Line) : Prop where
  generated : (definitions lines).filter Symbol.isGenerated = []
  jumps : jumps lines = []

theorem Still.append {w w' : List Line} (h : Still w) (h' : Still w') : Still (w ++ w') where
  generated := by rw [definitions_append, List.filter_append, h.generated, h'.generated, List.append_nil]
  jumps := by rw [jumps_append, h.jumps, h'.jumps, List.append_nil]

theorem still_directives (ds : List Directive) : Still (ds.map .directive) := by
  induction ds with
  | nil => exact ⟨rfl, rfl⟩
  | cons d ds ih => exact ⟨ih.generated, ih.jumps⟩

theorem still_header (globals : Fragment) : Still (header globals) := by
  have hdirectives : header globals = (Directive.arch ::
      (globals.body.filterMap Linear.Instr.global?).eraseDups.map Directive.common ++
        [Directive.code]).map .directive := by
    simp [header]
  rw [hdirectives]
  exact still_directives _

theorem still_formats (fs : Formats) : Still fs.lines := by
  have hsection : Still (fs.flatMap Format.lines) := by
    induction fs with
    | nil => exact ⟨rfl, rfl⟩
    | cons f fs ih =>
      have hformat : Still f.lines := ⟨rfl, rfl⟩
      exact hformat.append ih
  rw [Formats.lines]
  split
  · exact ⟨rfl, rfl⟩
  · exact ⟨hsection.generated, hsection.jumps⟩

/-- **Generated labels differ.** They are written differently if those of the code are, and if the functions have
different names. -/
theorem nodup_text_generated {ss : List Symbol} {n n' : Nat} {code : List Linear.Instr} {functions : List String}
    (h : Context.Marks n code functions ss n') (hcode : Linear.Resolved code)
    (hunique : Linear.UniqueLabels code) (hnames : functions.Nodup) :
    ((ss.filter Symbol.isGenerated).map Symbol.text).Nodup := by
  have hnodup : (ss.filter Symbol.isGenerated).Nodup := by
    refine nodup_generated ?_ ?_ ?_
    · rw [h.blocks]
      exact Linear.nodup_labels hunique
    · rw [h.skips]
      exact List.nodup_range' ..
    · rw [h.exits]
      exact hnames
  have hblock : ∀ s ∈ ss, ∀ l, s = .block l → l ∈ labels code := by
    rintro s hs l rfl
    rw [← h.blocks]
    exact List.mem_filterMap.2 ⟨_, hs, rfl⟩
  refine hnodup.map_on fun s hs s' hs' htext => ?_
  obtain ⟨hmem, hgenerated⟩ := List.mem_filter.1 hs
  obtain ⟨hmem', hgenerated'⟩ := List.mem_filter.1 hs'
  exact Symbol.eq_of_text_eq hcode.drawn hunique hgenerated hgenerated' (hblock s hmem) (hblock s' hmem') htext

end Arm64

namespace Program

open Linear (Fragment labels branches UniqueLabels)

variable {p : Program} {c c' : Counters} {fragments : List Fragment} {w : List Lowering.Notice}

theorem names_of_chain {fs : List FunctionDecl} {frags : List Fragment}
    (h : Journal.Chain p.Translates c fs frags c') : frags.map (·.label) = fs.map (·.name) := by
  induction h with
  | nil => rfl
  | cons hf _ ih =>
    rw [List.map_cons, List.map_cons, hf.1, ih]

/-- The labels that the compiler makes for a whole program stand in the blocks of its functions. -/
theorem marks_of_generate (hlower : p.lower.run c = ⟨.ok fragments, c', w⟩) {symbols : SymbolTable}
    {g g' : Arm64.Generator} {lines : List Arm64.Line} {w' : List Arm64.Notice}
    (hgenerate : (Arm64.generate fragments symbols).run g = ⟨.ok lines, g', w'⟩) :
    ∃ globals blocks formats n,
      lines = Arm64.header globals ++ blocks.flatten ++ Arm64.Formats.lines formats ∧
      Arm64.Context.Marks 0 (fragments.flatMap (·.body)) (p.functions.toList.map (·.name))
        (Arm64.definitions blocks.flatten) n ∧
      List.Forall₂ Arm64.ClosedBlock p.functions.toList blocks := by
  obtain ⟨globals, functions, rfl, -, hresets, hchain⟩ := translates_of_lower hlower
  obtain ⟨globals', functions', blocks, n, hfragments, hlines, hblocks⟩ :=
    Arm64.blocks_of_generate hgenerate (Arm64.bracketed_of_chain hchain)
  cases hfragments
  have hmarks := Arm64.marks_of_chain hblocks
  refine ⟨globals, blocks, _, n, hlines, { hmarks with blocks := ?_, exits := ?_ },
    Arm64.closed_of_chains hchain hblocks⟩
  · rw [hmarks.blocks, List.flatMap_cons, Linear.labels_append, hresets.unlabelled.labels_eq, List.nil_append]
  · rw [hmarks.exits, names_of_chain hchain]

/-- **Labels resolve.** Over all fragments of a lowered program together, the labels have the numbers that were
drawn, each once, and no two are written alike; each branch names one label of its own fragment. In the assembly
no two of the labels that the compiler makes are written alike, and each jump goes to a label of its own
block. -/
theorem labels_resolve (hnames : (p.functions.toList.map (·.name)).Nodup)
    (hlower : p.lower.run c = ⟨.ok fragments, c', w⟩) :
    c.labels ≤ c'.labels ∧
      ((labels (fragments.flatMap (·.body))).map Label.number?).Perm
        ((List.range' c.labels (c'.labels - c.labels)).map some) ∧
      UniqueLabels (fragments.flatMap (·.body)) ∧
      (∀ frag ∈ fragments, ∀ l ∈ branches frag.body,
        ((labels frag.body).filter fun m => m.text = l.text) = [l]) ∧
      ∀ {symbols : SymbolTable} {g g' : Arm64.Generator} {lines : List Arm64.Line} {w' : List Arm64.Notice},
        (Arm64.generate fragments symbols).run g = ⟨.ok lines, g', w'⟩ →
          (((Arm64.definitions lines).filter Arm64.Symbol.isGenerated).map Arm64.Symbol.text).Nodup ∧
          ∃ globals blocks formats,
            lines = Arm64.header globals ++ blocks.flatten ++ Arm64.Formats.lines formats ∧
            Arm64.jumps lines = Arm64.jumps blocks.flatten ∧
            List.Forall₂ Arm64.ClosedBlock p.functions.toList blocks := by
  obtain ⟨hle, ⟨ns, hns, hdraws⟩, hresolved⟩ := labels_of_lower hlower
  have hunique : UniqueLabels (fragments.flatMap (·.body)) := hns.uniqueLabels hdraws.1
  refine ⟨hle, ?_, hunique, ?_, ?_⟩
  · rw [hns]
    exact hdraws.perm_range'.map some
  · intro frag hfrag l hl
    exact Linear.filter_text_eq (hunique.of_mem hfrag) ((hresolved frag hfrag).within (List.Subset.refl _) hl)
  · intro symbols g g' lines w' hgenerate
    obtain ⟨globals, blocks, formats, n, rfl, hmarks, hclosed⟩ := marks_of_generate hlower hgenerate
    have hheader := Arm64.still_header globals
    have hformats := Arm64.still_formats formats
    refine ⟨?_, globals, blocks, formats, rfl, ?_, hclosed⟩
    · rw [Arm64.definitions_append, Arm64.definitions_append, List.filter_append, List.filter_append,
        hheader.generated, hformats.generated, List.nil_append, List.append_nil]
      exact Arm64.nodup_text_generated hmarks (.flatMap hresolved) hunique hnames
    · rw [Arm64.jumps_append, Arm64.jumps_append, hheader.jumps, hformats.jumps, List.nil_append, List.append_nil]

end Program

/-- `Draft.sumDown` and a second function, which has the same loop twice. -/
def Draft.sumTwice : Draft :=
  ((do
    let k ← Draft.declareFunction "again" [("n", .int)] .int
    let _ ← Draft.declareLocal k "t" .int
    Draft.pushStatement k 2
    Draft.pushStatement k 2
    Draft.pushStatement k 4 : Draft.Extend Unit).run Draft.sumDown).state

/-- The loop of `Draft.sumTwice` stands in three places, and it has its own labels in each. -/
theorem Program.labels_resolve_sumTwice :
    (Draft.sumTwice.program.functions.toList.map (·.name)).Nodup ∧ ∃ fragments c w lines g w',
      Draft.sumTwice.program.lower.run { labels := 7 } = ⟨.ok fragments, c, w⟩ ∧
      (Arm64.generate fragments Draft.sumTwice.program.symbols).run {} = ⟨.ok lines, g, w'⟩ ∧
      c.labels = 13 ∧ (Arm64.jumps lines).length = 11 ∧
      ((Linear.labels (fragments.flatMap (·.body))).map Label.number?).Perm ((List.range' 7 6).map some) ∧
      (((Arm64.definitions lines).filter Arm64.Symbol.isGenerated).map Arm64.Symbol.text).Nodup := by
  have hnames : (Draft.sumTwice.program.functions.toList.map (·.name)).Nodup := by decide
  obtain ⟨fragments, c, w, lines, g, w', hlower, hgenerate, hlabels, hjumps⟩ : ∃ fragments c w lines g w',
      Draft.sumTwice.program.lower.run { labels := 7 } = ⟨.ok fragments, c, w⟩ ∧
      (Arm64.generate fragments Draft.sumTwice.program.symbols).run {} = ⟨.ok lines, g, w'⟩ ∧
      c.labels = 13 ∧ (Arm64.jumps lines).length = 11 :=
    ⟨_, _, _, _, _, _, rfl, rfl, rfl, by decide +kernel⟩
  obtain ⟨-, hperm, -, -, hassembly⟩ := Program.labels_resolve hnames hlower
  rw [hlabels] at hperm
  exact ⟨hnames, fragments, c, w, lines, g, w', hlower, hgenerate, hlabels, hjumps, hperm,
    (hassembly hgenerate).1⟩

end Spillway
