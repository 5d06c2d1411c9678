import Spillway.Proofs.Lowering.Function
import Spillway.Proofs.Program.Names
import Spillway.Proofs.Source.Unfolds

/-!
# Lowering preserves meaning

Every terminating run of a function of a built program is run by the function's fragment: the machine
that starts with the same parameters in the same world ends with the same outcome, in the same world,
with the same trace, and with every variable of the function in its register.

* `Program.procedure?` — the code that a call enters.
* `Program.Lowers.arrives` — one function, given what the machine makes of calls.
* `Program.InStep.realizes_callWithin` — calls, by induction on how deep they are nested.
* `Draft.Built.lower_preserves_meaning` — all functions of a built program.
-/

namespace Spillway

open Linear (Instr Fragment State straight Config Procedure Caller)

namespace Program

open Lowering (Env)

variable {p : Program} {k : FunctionId} {f : FunctionDecl}

/-! ### The code that a call enters -/

/-- The procedure of this name: the code of the fragment with this label, and the registers of the
parameters of the function with this name. -/
def procedure? (p : Program) (fragments : List Fragment) (name : String) : Option Procedure := do
  let frag ← fragments.tail.find? fun frag => frag.label = name
  let sig ← (p.symbols.function? name).toOption.join
  let parameters ← (p.symbols.parameters sig.scope).toOption
  return ⟨parameters.map (·.register), frag.body⟩

/-- An item that is the only one of its kind is found. -/
theorem find?_of_unique {α : Type} {l : List α} {q : α → Bool} {i : Nat} {a : α}
    (ha : l[i]? = some a) (hq : q a = true)
    (hunique : ∀ {j b}, l[j]? = some b → q b = true → j = i) : l.find? q = some a := by
  obtain ⟨hi, rfl⟩ := List.getElem?_eq_some_iff.1 ha
  rw [List.find?_eq_some_iff_getElem]
  refine ⟨hq, i, hi, rfl, fun j hj => ?_⟩
  rw [Bool.not_eq_true']
  by_contra hne
  have heq := hunique (List.getElem?_eq_getElem (Nat.lt_trans hj hi)) (by simpa using hne)
  omega

/-- The fragment of a function is found under the function's name. -/
theorem InStep.find?_label (h : p.InStep) {n : Nat} {functions : List Fragment} {frag : Fragment}
    (hall : List.Forall₂ (p.Lowers n) p.functions.toList functions)
    (hf : p.functions.get? k = some f) (hfrag : functions[k]? = some frag) :
    (functions.find? fun g => g.label = f.name) = some frag := by
  rw [Arena.get?_eq] at hf
  have hlabel : ∀ {j : Nat} {g : Fragment}, functions[j]? = some g →
      ∃ f' : FunctionDecl, p.functions.toList[j]? = some f' ∧ g.label = f'.name := by
    intro j g hg
    obtain ⟨hj, rfl⟩ := List.getElem?_eq_some_iff.1 hg
    have hj' : j < p.functions.toList.length := by rw [hall.length_eq]; exact hj
    exact ⟨_, List.getElem?_eq_getElem hj', (hall.get hj' hj).1⟩
  refine find?_of_unique (i := k) hfrag ?_ ?_
  · obtain ⟨f', hf', hname⟩ := hlabel hfrag
    rw [hf] at hf'
    cases hf'
    exact decide_eq_true hname
  · intro j g hg hname
    obtain ⟨f', hf', hname'⟩ := hlabel hg
    rw [← Arena.get?_eq] at hf hf'
    exact h.name_injective hf hf' (hname'.symm.trans (of_decide_eq_true hname))

/-- What a call of a function enters. -/
theorem InStep.procedure?_eq (h : p.InStep) {n : Nat} {globals frag : Fragment}
    {functions : List Fragment} {vs : List Variable}
    (hall : List.Forall₂ (p.Lowers n) p.functions.toList functions)
    (hf : p.functions.get? k = some f) (hfrag : functions[k]? = some frag)
    (hvs : p.symbols.parameters f.scope = .ok vs) :
    p.procedure? (globals :: functions) f.name = some ⟨vs.map (·.register), frag.body⟩ := by
  obtain ⟨returns, hfunction⟩ := h.function?_eq hf
  rw [procedure?, List.tail_cons, h.find?_label hall hf hfrag, hfunction]
  simp only [Except.toOption, Option.join_some, Option.bind_eq_bind, Option.bind_some, hvs]
  rfl

/-! ### How a function starts -/

/-- The variables of a function have registers of their own. -/
theorem InStep.distinct (h : p.InStep) {n : Nat} (hfresh : p.symbols.Fresh n)
    (hf : p.functions.get? k = some f) : (p.env f.scope).Distinct := by
  intro x y r hx hy
  obtain ⟨v, hv, rfl⟩ := (h.owns_iff hf).1 hx
  obtain ⟨v', hv', hr⟩ := (h.owns_iff hf).1 hy
  exact (hfresh.apart hv hv' hr.symm).2

theorem InStep.below (h : p.InStep) {n : Nat} (hfresh : p.symbols.Fresh n)
    (hf : p.functions.get? k = some f) : (p.env f.scope).Below n := by
  intro x r hx
  obtain ⟨v, hv, rfl⟩ := (h.owns_iff hf).1 hx
  exact hfresh.below hv

/-- What is looked up among names that stand for variables is the item in the variable's place. -/
theorem lookup_zip_map {bound : String → Option Entry} {names : List String} {vs : List Variable}
    (hall : List.Forall₂ (fun x v => bound x = some (.var v)) names vs) (g : Variable → Word)
    {x : String} {v : Variable} (hx : x ∈ names) (hv : bound x = some (.var v)) :
    (names.zip (vs.map g)).lookup x = some (g v) := by
  induction hall with
  | nil => cases hx
  | @cons y w names vs hy _ ih =>
    rw [List.map_cons, List.zip_cons_cons, List.lookup_cons]
    by_cases hxy : x = y
    · subst hxy
      rw [hv] at hy
      cases hy
      rw [beq_self_eq_true]
    · rw [beq_false_of_ne hxy]
      exact ih ((List.mem_cons.1 hx).resolve_left hxy)

variable {W : Type} {rt : Runtime W}

/-- Code that clears the locals takes a state with the arguments in the registers of the parameters to
one in which every variable has the value with which the function starts. -/
theorem InStep.matches_start (h : p.InStep) {n : Nat} (hfresh : p.symbols.Fresh n)
    (hf : p.functions.get? k = some f) {calls : Calls W} {clear : List Instr} {vs : List Variable}
    (hclear : (p.env f.scope).Clears f.locals clear)
    (hvs : List.Forall₂ (fun x v => p.symbols.bound? f.scope x = some (.var v)) (p.parameterNames f) vs)
    (s : State W) :
    ∃ s', straight rt calls clear s = some s' ∧ (p.env f.scope).Matches
      ⟨p.startLocals f (vs.map fun v => s.regs v.register), s.outside⟩ s' := by
  obtain ⟨s', hrun, hout, hzero, hkeep⟩ := hclear.run s
  obtain ⟨hnodup, hmem⟩ := h.nodup_variables hf
  have hdisjoint := (List.nodup_append.1 hnodup).2.2
  refine ⟨s', hrun, ?_, hout⟩
  intro x r hx
  obtain ⟨v, hv, rfl⟩ := (h.owns_iff hf).1 hx
  show s'.regs v.register = (((p.parameterNames f).zip _).lookup x).getD 0
  by_cases hlocal : x ∈ f.locals
  · -- A local is no parameter, so it starts at 0.
    rw [hzero x hlocal _ hx.2, List.lookup_eq_none_iff.2, Option.getD_none]
    rintro ⟨y, w⟩ hy
    have hy' := (List.of_mem_zip hy).1
    exact bne_iff_ne.2 fun hxy => hdisjoint _ hy' _ hlocal hxy.symm
  · have hparam : x ∈ p.parameterNames f :=
      (List.mem_append.1 ((hmem x).2 ⟨v, hv⟩)).resolve_right hlocal
    rw [lookup_zip_map hvs (fun v => s.regs v.register) hparam hv, Option.getD_some]
    refine hkeep _ fun y hy hr => hlocal ?_
    rw [h.distinct hfresh hf hx (h.wellScoped.owns_of_local hf hy hr)]
    exact hy

/-! ### One function -/

/-- **One function.** A function that runs to its end takes the machine, with the arguments in the
registers of the parameters, to where it is left with the same outcome. -/
theorem Lowers.arrives {n : Nat} {frag : Fragment} (hlowers : p.Lowers n f frag) (h : p.InStep)
    (hfresh : p.symbols.Fresh n) (hf : p.functions.get? k = some f) {vs : List Variable}
    (hvs : List.Forall₂ (fun x v => p.symbols.bound? f.scope x = some (.var v)) (p.parameterNames f) vs)
    {procedures : String → Option Procedure} {calls : Calls W}
    (hcalls : Config.Realizes rt procedures calls) {fuel : Nat} {out : Outcome} {σ : Store W}
    {s : State W} (callers : List Caller)
    (hrun : p.runWithin rt calls fuel f (vs.map fun v => s.regs v.register) s.outside = some (out, σ)) :
    ∃ rest s', Config.Reaches rt procedures ⟨frag.body, frag.body, s, callers⟩
        ⟨frag.body, rest, s', callers⟩ ∧
      (⟨frag.body, rest, s', callers⟩ : Config W).exit? rt = some out ∧
      (p.env f.scope).Matches σ s' := by
  obtain ⟨-, clear, code, c, c', hbody, hclear, hemits, hn⟩ := hlowers
  rw [hbody]
  have hblock : (Env.Part.block (p.body f)).run (p.statics f) rt calls fuel
      ⟨p.startLocals f (vs.map fun v => s.regs v.register), s.outside⟩ = some (out, σ) := by
    rw [runWithin] at hrun
    split at hrun
    · exact hrun
    · cases hrun
  have hunique : Linear.UniqueLabels (clear ++ code) := by
    rw [Linear.UniqueLabels, Linear.labels_append, hclear.labels_eq, List.nil_append]
    exact hemits.uniqueLabels
  obtain ⟨s₁, hstraight, hmatches⟩ := h.matches_start hfresh hf hclear hvs s
  have hsuffix : code ++ [] <:+ clear ++ code := by
    rw [List.append_nil]
    exact List.suffix_append ..
  have harrives : (p.env f.scope).Arrives rt procedures (clear ++ code) callers
      ⟨clear ++ code, code ++ [], s₁, callers⟩ out [] σ :=
    hemits.simulates (h.describes hf) (h.distinct hfresh hf) (h.below hfresh hf) hcalls hunique hn
      hsuffix hmatches hblock
  obtain ⟨rest, s', hreach, hend, hout⟩ := harrives
  rw [List.append_nil] at hreach
  refine ⟨rest, s', (Config.reaches_of_straight hcalls hstraight).trans hreach, ?_, hend⟩
  cases out with
  | fell =>
    obtain rfl := hout
    rfl
  | returned v => exact hout

/-! ### Calls -/

/-- The parameters of a function have registers of their own. -/
theorem nodup_registers {n : Nat} (hfresh : p.symbols.Fresh n) {i : ScopeId} {names : List String}
    {vs : List Variable} (hnames : names.Nodup)
    (hvs : List.Forall₂ (fun x v => p.symbols.bound? i x = some (.var v)) names vs) :
    (vs.map (·.register)).Nodup := by
  induction hvs with
  | nil => exact List.nodup_nil
  | @cons x v names vs hx hall ih =>
    obtain ⟨hmem, hnames⟩ := List.nodup_cons.1 hnames
    rw [List.map_cons, List.nodup_cons]
    refine ⟨fun hv => hmem ?_, ih hnames⟩
    obtain ⟨v', hv', hr⟩ := List.mem_map.1 hv
    obtain ⟨j, hj, rfl⟩ := List.getElem_of_mem hv'
    have hj' : j < names.length := by rw [hall.length_eq]; exact hj
    rw [(hfresh.apart hx (hall.get hj' hj) hr.symm).2]
    exact List.getElem_mem hj'

/-- **Calls.** The machine does what calls are said to do, however deep they are nested. -/
theorem InStep.realizes_callWithin (h : p.InStep) {n : Nat} (hfresh : p.symbols.Fresh n)
    {globals : Fragment} {functions : List Fragment}
    (hall : List.Forall₂ (p.Lowers n) p.functions.toList functions) (rt : Runtime W) (depth : Nat) :
    Config.Realizes rt (p.procedure? (globals :: functions)) (p.callWithin rt depth) := by
  induction depth with
  | zero => exact fun hcall => nomatch hcall
  | succ depth ih =>
    intro name body rest s callers v o hcall
    obtain ⟨f, hfind, hcall⟩ := Option.bind_eq_some_iff.1 hcall
    obtain ⟨⟨out, σ⟩, hrun, hresult⟩ := Option.bind_eq_some_iff.1 hcall
    cases hresult
    obtain rfl : f.name = name := by simpa using List.find?_some hfind
    obtain ⟨k, hk⟩ := List.mem_iff_getElem?.1 (List.mem_of_find?_eq_some hfind)
    obtain ⟨hlt, hget⟩ := List.getElem?_eq_some_iff.1 hk
    have hlt' : k < functions.length := by rw [← hall.length_eq]; exact hlt
    have hf : p.functions.get? k = some f := by rw [Arena.get?_eq, hk]
    have hlowers : p.Lowers n f functions[k] := hget ▸ hall.get hlt hlt'
    obtain ⟨vs, hparams, hvs⟩ := h.parameters_ok hf
    have hlength : (vs.map (·.register)).length = s.args.length := by
      rw [List.length_map, ← hvs.length_eq]
      rw [runWithin] at hrun
      split at hrun
      case isTrue heq => exact heq.symm
      case isFalse => cases hrun
    have hargs : (vs.map fun v => (s.enter (vs.map (·.register))).regs v.register) = s.args := by
      have hnodup := nodup_registers hfresh (List.nodup_append.1 (h.nodup_variables hf).1).1 hvs
      have hmap := Linear.map_bind hnodup hlength s.regs
      rwa [List.map_map] at hmap
    rw [← hargs] at hrun
    obtain ⟨rest', s', hreach, hexit, hend⟩ := hlowers.arrives h hfresh hf hvs ih
      (⟨body, rest, s.regs⟩ :: callers) (s := s.enter (vs.map (·.register))) hrun
    refine Relation.ReflTransGen.head ?_ (hreach.trans (Relation.ReflTransGen.single ?_))
    · have hprocedure : p.procedure? (globals :: functions) f.name =
          some ⟨vs.map (·.register), functions[k].body⟩ :=
        h.procedure?_eq hall hf (List.getElem?_eq_getElem hlt') hparams
      simp only [Config.step, Instr.effect, hprocedure, hlength, if_true]
    · rw [Config.step_of_exit? hexit, Config.leave, hend.outside]
      rfl

end Program

/-! ### All functions -/

/-- **Lowering preserves meaning.** Take a built program whose registers were drawn from the counters it
is lowered with, whose nodes name no missing node and do not contain themselves, and whose lowering
succeeds. Every function has a procedure: a fragment in the function's place, and a register for each of
its parameters. Whenever the body runs to its end, the machine that starts the procedure with the same
arguments in the same world stops with the same outcome, in the same world with the same trace, and
with the value of every parameter and local in its register. -/
theorem Draft.Built.lower_preserves_meaning {d : Draft} (h : d.Built Draft.Onward)
    (hacyclic : d.program.nodes.Acyclic) (hclosed : d.program.nodes.Closed)
    (hbodies : ∀ f ∈ d.program.functions.toList, ∀ i ∈ f.body, i < d.program.nodes.stmts.size)
    {fragments : List Fragment} {c : Counters} {w : List Lowering.Notice}
    (hlower : d.program.lower.run d.counters = ⟨.ok fragments, c, w⟩)
    {k : FunctionId} {f : FunctionDecl} (hf : d.program.functions.get? k = some f) :
    List.Forall₂ d.program.nodes.StmtUnfolds f.body (d.program.body f) ∧
    ∃ q : Procedure, d.program.procedure? fragments f.name = some q ∧
      fragments[k + 1]? = some ⟨f.name, q.body⟩ ∧
      q.parameters.Nodup ∧ q.parameters.length = (d.program.parameterNames f).length ∧
      ∀ {W : Type} (rt : Runtime W) (depth fuel : Nat) (arguments : List Word) (o : Outside W)
        (out : Outcome) (σ : Store W),
        d.program.runWithin rt (d.program.callWithin rt depth) fuel f arguments o = some (out, σ) →
        ∀ s : State W, q.parameters.map s.regs = arguments → s.outside = o →
          ∃ m : Config W,
            Config.Reaches rt (d.program.procedure? fragments) ⟨q.body, q.body, s, []⟩ m ∧
            m.exit? rt = some out ∧ m.step rt (d.program.procedure? fragments) = none ∧
            m.state.outside = σ.outside ∧
            ∀ x v, d.program.symbols.bound? f.scope x = some (.var v) →
              m.state.regs v.register = σ.locals x := by
  have hstep := h.inStep
  have hfresh : d.program.symbols.Fresh d.counters.registers := h.fresh
  have hmem : f ∈ d.program.functions.toList := by
    rw [Arena.get?_eq] at hf
    exact List.mem_of_getElem? hf
  refine ⟨Nodes.stmtUnfolds_map hacyclic hclosed (hbodies f hmem), ?_⟩
  obtain ⟨globals, functions, rfl, hall⟩ := Program.lowers_of_lower hlower
  obtain ⟨vs, hparams, hvs⟩ := hstep.parameters_ok hf
  obtain ⟨frag, hfrag, hlowers⟩ : ∃ frag, functions[k]? = some frag ∧
      d.program.Lowers d.counters.registers f frag := by
    rw [Arena.get?_eq] at hf
    obtain ⟨hlt, rfl⟩ := List.getElem?_eq_some_iff.1 hf
    have hlt' : k < functions.length := by rw [← hall.length_eq]; exact hlt
    exact ⟨_, List.getElem?_eq_getElem hlt', hall.get hlt hlt'⟩
  refine ⟨⟨vs.map (·.register), frag.body⟩, hstep.procedure?_eq hall hf hfrag hparams, ?_, ?_, ?_, ?_⟩
  · rw [List.getElem?_cons_succ, hfrag, ← hlowers.1]
  · exact Program.nodup_registers hfresh (List.nodup_append.1 (hstep.nodup_variables hf).1).1 hvs
  · rw [List.length_map, hvs.length_eq]
  · intro W rt depth fuel arguments o out σ hrun s hargs hout
    rw [List.map_map] at hargs
    subst hargs hout
    obtain ⟨rest, s', hreach, hexit, hend⟩ := hlowers.arrives hstep hfresh hf hvs
      (hstep.realizes_callWithin hfresh hall rt depth) [] hrun
    refine ⟨_, hreach, hexit, by rw [Config.step_of_exit? hexit]; rfl, hend.outside, ?_⟩
    intro x v hx
    exact hend.locals ((hstep.owns_iff hf).2 ⟨v, hx, rfl⟩)

/-- The code of `Draft.sumDown`, started with 3, prints 6 and returns it. -/
theorem Draft.lower_preserves_meaning_sumDown :
    Draft.sumDown.Built Draft.Onward ∧ Draft.sumDown.program.nodes.Acyclic ∧
    Draft.sumDown.program.nodes.Closed ∧ ∃ fragments c w,
      Draft.sumDown.program.lower.run Draft.sumDown.counters = ⟨.ok fragments, c, w⟩ ∧
      ∃ q : Procedure, fragments[1]? = some ⟨"sum", q.body⟩ ∧ q.parameters.length = 1 ∧
        ∀ {W : Type} (rt : Runtime W) (world : W) (s : State W), q.parameters.map s.regs = [3] →
          s.outside = ⟨world, []⟩ → ∃ m : Config W,
            Config.Reaches rt (Draft.sumDown.program.procedure? fragments) ⟨q.body, q.body, s, []⟩ m ∧
            m.exit? rt = some (.returned (some 6)) ∧
            m.step rt (Draft.sumDown.program.procedure? fragments) = none ∧
            m.state.outside = ⟨world, [.printed 6 true]⟩ := by
  have hordered : Draft.sumDown.program.nodes.Ordered := by decide
  have hbodies : ∀ f ∈ Draft.sumDown.program.functions.toList, ∀ i ∈ f.body,
      i < Draft.sumDown.program.nodes.stmts.size := by decide
  obtain ⟨fragments, c, w, hlower⟩ : ∃ fragments c w,
      Draft.sumDown.program.lower.run Draft.sumDown.counters = ⟨.ok fragments, c, w⟩ :=
    ⟨_, _, _, rfl⟩
  refine ⟨built_sumDown _, hordered.acyclic, hordered.closed, fragments, c, w, hlower, ?_⟩
  obtain ⟨-, q, -, hfrag, -, hlength, hruns⟩ := Draft.Built.lower_preserves_meaning (built_sumDown _)
    hordered.acyclic hordered.closed hbodies hlower (k := 0) (f := ⟨"sum", 1, ["t"], [2, 3, 4]⟩) rfl
  refine ⟨q, hfrag, hlength, fun {W} rt world s hargs hout => ?_⟩
  have hrun : (Draft.sumDown.program.runWithin rt (Draft.sumDown.program.callWithin rt 0) 12
      ⟨"sum", 1, ["t"], [2, 3, 4]⟩ [3] ⟨world, []⟩).map (fun r => (r.1, r.2.outside)) =
        some (.returned (some 6), ⟨world, [.printed 6 true]⟩) := by
    with_unfolding_all rfl
  obtain ⟨⟨out, σ⟩, hrun, hend⟩ := Option.map_eq_some_iff.1 hrun
  obtain ⟨rfl, houtside⟩ := Prod.mk.inj hend
  obtain ⟨m, hreach, hexit, hstop, hm, -⟩ := hruns rt 0 12 [3] ⟨world, []⟩ _ σ hrun s hargs hout
  exact ⟨m, hreach, hexit, hstop, hm.trans houtside⟩

end Spillway
