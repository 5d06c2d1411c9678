import Spillway.Proofs.Linear.Paths
import Spillway.Proofs.Lowering.Function
import Spillway.Proofs.Program.Names

/-!
# Registers are written before they are read

The code of an expression reads the registers of variables, and otherwise only what it has computed
itself. No such value is left for a later statement, so that at every label only the variables count, and
these are written from the start: a parameter by the caller, a local by the code that clears it.

* `Env.Computes.grounded`, `Env.Emits.grounded` — the code of expressions and statements is grounded.
* `Draft.Built.written_before_read` — no path through the code of a function reads an unwritten register.
-/

namespace Spillway

open Linear (Instr Fragment Grounded Path)

namespace Lowering

variable {V A B : Set VReg}

theorem grounded_combination (op : BinOp) (target : VReg) {left right : VReg} (hleft : left ∈ A)
    (hright : right ∈ A) :
    Grounded V A (combination op target left right) (A ∪ { r | r ∈ [target] }) := by
  have hsources : ∀ r ∈ [left, right], r ∈ A := by
    intro r hr
    rcases List.mem_pair.1 hr with rfl | rfl
    · exact hleft
    · exact hright
  rw [combination]
  cases Action.of op with
  | compare c =>
    have hzero : Grounded V A [Instr.mov target (.imm 0) .always] (A ∪ { r | r ∈ [target] }) :=
      .writes rfl (List.forall_mem_nil _) rfl
    exact hzero.append ((Grounded.reads rfl fun r hr => .inl (hsources r hr)).append
      (.reads rfl (List.forall_mem_nil _)))
  | compute alu => exact .writes rfl hsources rfl

/-- The arguments of a call are read. -/
theorem grounded_push (rs : List VReg) (name : String) :
    Grounded V (A ∪ { s | s ∈ rs }) [.push rs name, .call name] (A ∪ { s | s ∈ rs }) := by
  have hpush : Grounded V (A ∪ { s | s ∈ rs }) [Instr.push rs name] (A ∪ { s | s ∈ rs }) :=
    .reads rfl fun s hs => .inr hs
  exact hpush.append (.reads rfl nofun)

namespace Env

variable {env : Env}

/-- The registers of the variables that have one of their own. -/
def owned (env : Env) : Set VReg := { r | ∃ x, env.Owns x r }

theorem Follows.grounded {r r' : VReg} {ty : Ty} {fields : List String} {c c' : Counters}
    {code : List Instr} (h : env.Follows r ty fields c code r' c') (hr : r ∈ A) :
    Grounded V A code (A ∪ { s | s ∈ [r'] }) := by
  induction h generalizing A with
  | nil =>
    rintro s (hs | hs)
    · exact hs
    · obtain rfl := List.mem_singleton.1 hs
      exact hr
  | @cons r r' ty ty' x xs k c c' code _ _ ih =>
    have hload : Grounded V A [Instr.loadField ⟨c.registers⟩ r x k] (A ∪ { s | s ∈ [⟨c.registers⟩] }) :=
      .writes rfl (fun s hs => List.mem_singleton.1 hs ▸ hr) rfl
    exact hload.through (ih (.inr (List.mem_singleton_self _)))

/-- **Expressions.** The code of a phrase reads variables, what the phrase goes on from, and what it has
computed itself. -/
theorem Computes.grounded {ph : Phrase} {c c' : Counters} {code : List Instr} {rs : List VReg}
    (h : env.Computes ph c code rs c') (hV : env.owned ⊆ A) (hstart : ∀ r ∈ ph.start, r ∈ A) :
    Grounded env.owned A code (A ∪ { r | r ∈ rs }) := by
  have hin : ∀ {r : VReg} {S : Set VReg}, r ∈ S ∪ { s | s ∈ [r] } := .inr (List.mem_singleton_self _)
  induction h generalizing A with
  | int => exact .writes rfl nofun rfl
  | bool => exact .writes rfl nofun rfl
  | nil => exact .writes rfl nofun rfl
  | global => exact .writes rfl nofun rfl
  | @own x r c hglobal hr =>
    rintro s (hs | hs)
    · exact hs
    · obtain rfl := List.mem_singleton.1 hs
      exact hV ⟨x, hglobal, hr⟩
  | paren _ ih => exact ih hV nofun
  | @chain head links r r' c c₁ c₂ code code' _ _ ih ih' =>
    exact (ih hV nofun).through (ih' (hV.trans Set.subset_union_left) fun s hs => .inr hs)
  | not _ ih => exact (ih hV nofun).through (.writes rfl (fun s hs => .inr hs) rfl)
  | @negate e r c c' code _ ih =>
    have hzero : Grounded env.owned (A ∪ { s | s ∈ [r] }) [Instr.mov ⟨c'.registers⟩ (.imm 0) .always]
        (A ∪ { s | s ∈ [r] } ∪ { s | s ∈ [⟨c'.registers⟩] }) :=
      .writes rfl nofun rfl
    refine (ih hV nofun).through (hzero.through (.writes rfl (fun s hs => ?_) rfl))
    rcases List.mem_pair.1 hs with rfl | rfl
    · exact hin
    · exact .inl hin
  | select _ _ hfollows ih => exact (ih hV nofun).through (hfollows.grounded hin)
  | alloc => exact .writes rfl nofun rfl
  | @call name f arguments rs c c' code _ _ ih =>
    have hresult : Grounded env.owned (A ∪ { s | s ∈ rs }) [Instr.result ⟨c'.registers⟩]
        (A ∪ { s | s ∈ rs } ∪ { s | s ∈ [⟨c'.registers⟩] }) :=
      .writes rfl nofun rfl
    exact (ih hV nofun).through ((grounded_push rs name).append (hresult.append (.reads rfl nofun)))
  | @linksNil r c =>
    rintro s (hs | hs)
    · exact hs
    · exact hstart s hs
  | @linksCons op e rest r r₁ r₂ c c₁ c₂ code code' _ _ ih ih' =>
    have hr : r ∈ A := hstart r (List.mem_singleton_self r)
    have hcombine := (ih hV nofun).through (grounded_combination op ⟨c₁.registers⟩ (.inl hr) hin)
    exact hcombine.through (ih' (hV.trans Set.subset_union_left) fun s hs => .inr hs)
  | exprsNil =>
    rintro s (hs | hs)
    · exact hs
    · cases hs
  | exprsCons _ _ ih ih' =>
    refine ((ih hV nofun).append (ih' (hV.trans Set.subset_union_left) nofun)).weaken ?_
    rintro s (hs | hs)
    · exact .inl (.inl hs)
    · rcases List.mem_cons.1 hs with rfl | hs
      · exact .inl hin
      · exact .inr hs

theorem StoresPath.grounded {value r : VReg} {ty : Ty} {x : String} {path : List String}
    {c c' : Counters} {code : List Instr} (h : env.StoresPath value r ty x path c code c')
    (hvalue : value ∈ A) (hr : r ∈ A) : Grounded V A code A := by
  induction h generalizing A with
  | last =>
    refine .reads rfl fun s hs => ?_
    rcases List.mem_pair.1 hs with rfl | rfl
    · exact hvalue
    · exact hr
  | @step r ty ty' x y ys k c c' code _ _ ih =>
    have hload : Grounded V A [Instr.loadField ⟨c.registers⟩ r x k] (A ∪ { s | s ∈ [⟨c.registers⟩] }) :=
      .writes rfl (fun s hs => List.mem_singleton.1 hs ▸ hr) rfl
    exact (hload.append (ih (.inl hvalue) (.inr (List.mem_singleton_self _)))).weaken
      Set.subset_union_left

theorem Stores.grounded {value : VReg} {place : Place} {c c' : Counters} {code : List Instr}
    (h : env.Stores value place c code c') (hV : env.owned ⊆ A) (hvalue : value ∈ A) :
    Grounded env.owned A code A := by
  have hsource : ∀ s ∈ [value], s ∈ A := fun s hs => List.mem_singleton.1 hs ▸ hvalue
  cases h with
  | global => exact .reads rfl hsource
  | own => exact .reads rfl hsource
  | field _ hread hpath =>
    exact ((hread.grounded hV nofun).append
      (hpath.grounded (.inl hvalue) (.inr (List.mem_singleton_self _)))).weaken Set.subset_union_left

/-- A register is compared, and control may go to a label. -/
theorem grounded_test {r : VReg} (hr : r ∈ A) (hV : V ⊆ A) (guard : Linear.Guard) (l : Label) :
    Grounded V A [.cmp r (.imm 1), .branch guard l] V := by
  have hcmp : Grounded V A [Instr.cmp r (.imm 1)] A :=
    .reads rfl fun s hs => List.mem_singleton.1 hs ▸ hr
  exact hcmp.append (.branch hV hV)

/-- **Statements.** The code of a statement reads variables and what it has computed itself, and after it
the variables are written. -/
theorem Emits.grounded {part : Part} {c c' : Counters} {code : List Instr}
    (h : env.Emits part c code c') (hV : env.owned ⊆ A) : Grounded env.owned A code env.owned := by
  have hrefl : env.owned ⊆ env.owned := Set.Subset.refl _
  have hin : ∀ {r : VReg} {S : Set VReg}, r ∈ S ∪ { s | s ∈ [r] } := .inr (List.mem_singleton_self _)
  induction h generalizing A with
  | @assign target value r c c₁ c₂ code code' hvalue hstores =>
    have hkept : env.owned ⊆ A ∪ { s | s ∈ [r] } := Set.subset_union_of_subset_left hV _
    exact (hvalue.grounded hV nofun).append ((hstores.grounded hkept hin).weaken hkept)
  | @print x newline r c c' code hread =>
    refine (hread.grounded hV nofun).append ?_
    cases newline <;> exact .last rfl (fun s hs => .inr hs) (Set.subset_union_of_subset_left hV _)
  | @readGlobal x c =>
    have hread : Grounded env.owned A [Instr.read ⟨c.registers⟩ x] (A ∪ { s | s ∈ [⟨c.registers⟩] }) :=
      .writes rfl nofun rfl
    exact hread.append (.last rfl (fun s hs => .inr hs) (Set.subset_union_of_subset_left hV _))
  | readOwn => exact .last rfl nofun hV
  | when htest _ ih =>
    refine .append (.append (.append (htest.grounded hV nofun) (grounded_test hin ?_ _ _)) (ih hrefl)) ?_
    · exact Set.subset_union_of_subset_left hV _
    · exact .branch hrefl (.label hrefl hrefl)
  | choose htest _ _ ih ih' =>
    refine .append (.append (.append (.append (.append (htest.grounded hV nofun)
      (grounded_test hin ?_ _ _)) (ih hrefl)) ?_) (ih' hrefl)) (.label hrefl hrefl)
    · exact Set.subset_union_of_subset_left hV _
    · exact .branch hrefl (.label hrefl hrefl)
  | loop _ htest ih =>
    -- The test stands behind the body but runs first: both start from the variables alone.
    refine .append (.append (.append (.append ?_ (ih hrefl)) (.label hrefl hrefl))
      (htest.grounded hrefl nofun)) (grounded_test hin Set.subset_union_left _ _)
    exact .branch hV (.label hV hrefl)
  | leave => exact .last rfl nofun hV
  | give hvalue =>
    exact (hvalue.grounded hV nofun).append
      (.last rfl (fun s hs => .inr hs) (Set.subset_union_of_subset_left hV _))
  | alloc => exact .last rfl nofun hV
  | free _ he =>
    exact (he.grounded hV nofun).append
      (.last rfl (fun s hs => .inr hs) (Set.subset_union_of_subset_left hV _))
  | @call name f arguments rs c c' code _ harguments =>
    exact (harguments.grounded hV nofun).append
      ((grounded_push rs name).append (.last rfl nofun (Set.subset_union_of_subset_left hV _)))
  | nil => exact hV
  | cons _ _ ih ih' => exact (ih hV).append (ih' hrefl)

/-- The code that clears variables writes their registers. -/
theorem Clears.grounded {names : List String} {code : List Instr} (h : env.Clears names code) :
    Grounded V A code (A ∪ { r | ∃ x ∈ names, env.registerOf x = .ok r }) := by
  induction h generalizing A with
  | nil =>
    rintro r (hr | ⟨x, hx, -⟩)
    · exact hr
    · cases hx
  | @cons x i names code hx _ ih =>
    obtain ⟨r, hr, rfl⟩ := hx
    have hclear : Grounded V A [Instr.mov r (.imm 0) .always] (A ∪ { s | s ∈ [r] }) :=
      .writes rfl nofun rfl
    refine (hclear.append ih).weaken ?_
    rintro s (hs | ⟨y, hy, hs⟩)
    · exact .inl (.inl hs)
    · rcases List.mem_cons.1 hy with rfl | hy
      · rw [hr] at hs
        exact .inl (.inr (List.mem_singleton.2 (Except.ok.inj hs).symm))
      · exact .inr ⟨y, hy, hs⟩

end Env

end Lowering

/-! ### Functions -/

/-- The variables of a function with a register of their own are its parameters and its locals. -/
theorem Program.InStep.owned_subset {p : Program} (h : p.InStep) {k : FunctionId} {f : FunctionDecl}
    (hf : p.functions.get? k = some f) {vs : List Variable}
    (hvs : List.Forall₂ (fun x v => p.symbols.bound? f.scope x = some (.var v)) (p.parameterNames f) vs) :
    (p.env f.scope).owned ⊆
      { r | ∃ v ∈ vs, v.register = r } ∪ { r | ∃ x ∈ f.locals, (p.env f.scope).registerOf x = .ok r } := by
  rintro r ⟨x, hx⟩
  obtain ⟨v, hv, rfl⟩ := (h.owns_iff hf).1 hx
  rcases List.mem_append.1 (((h.nodup_variables hf).2 x).2 ⟨v, hv⟩) with hparam | hlocal
  · obtain ⟨j, hj, rfl⟩ := List.getElem_of_mem hparam
    have hj' : j < vs.length := by rw [← hvs.length_eq]; exact hj
    have hbound := hvs.get hj hj'
    rw [List.get_eq_getElem, hv] at hbound
    cases hbound
    exact .inl ⟨vs[j], List.getElem_mem hj', rfl⟩
  · exact .inr ⟨x, hlocal, hx.2⟩

/-- The code of a function is grounded in its parameters. -/
theorem Program.Lowers.grounded {p : Program} (h : p.InStep) {n : Nat} {k : FunctionId}
    {f : FunctionDecl} {frag : Fragment} (hlowers : p.Lowers n f frag)
    (hf : p.functions.get? k = some f) {vs : List Variable}
    (hvs : List.Forall₂ (fun x v => p.symbols.bound? f.scope x = some (.var v)) (p.parameterNames f) vs) :
    Grounded (p.env f.scope).owned { r | ∃ v ∈ vs, v.register = r } frag.body
      (p.env f.scope).owned := by
  obtain ⟨-, clear, code, c, c', hbody, hclears, hemits, -⟩ := hlowers
  rw [hbody]
  exact hclears.grounded.append (hemits.grounded (h.owned_subset hf hvs))

/-- What the code of a function reads is among its parameters and what the code writes. -/
theorem Program.Lowers.sources_within {p : Program} (h : p.InStep) {n : Nat} {k : FunctionId}
    {f : FunctionDecl} {frag : Fragment} (hlowers : p.Lowers n f frag)
    (hf : p.functions.get? k = some f) {vs : List Variable}
    (hvs : List.Forall₂ (fun x v => p.symbols.bound? f.scope x = some (.var v)) (p.parameterNames f) vs)
    {P : Set VReg} (hparams : ∀ v ∈ vs, v.register ∈ P)
    (htargets : ∀ i ∈ frag.body, ∀ r, i.target? = some r → r ∈ P) :
    ∀ i ∈ frag.body, ∀ r ∈ i.sources, r ∈ P := by
  have hstart : { r | ∃ v ∈ vs, v.register = r } ⊆ P := by
    rintro r ⟨v, hv, rfl⟩
    exact hparams v hv
  refine ((hlowers.grounded h hf hvs).within (Set.Subset.trans (h.owned_subset hf hvs) ?_) hstart htargets).1
  obtain ⟨-, clear, code, c, c', hbody, hclears, -, -⟩ := hlowers
  rw [hbody, List.forall_mem_append] at htargets
  exact (hclears.grounded.within (Set.empty_subset P) hstart htargets.1).2

/-- **Written before read.** Take a built program whose lowering succeeds, whatever registers its
variables have and whatever counters it is lowered with. Along every path through the fragment of a
function, each register that an instruction reads is the register of a parameter of the function, or was
written by an instruction that was executed before. -/
theorem Draft.Built.written_before_read {drift : Counters → Counters → Prop} {d : Draft}
    (h : d.Built drift) {fragments : List Fragment} {c c' : Counters} {w : List Lowering.Notice}
    (hlower : d.program.lower.run c = ⟨.ok fragments, c', w⟩) {k : FunctionId} {frag : Fragment}
    (hfrag : fragments[k + 1]? = some frag) :
    ∃ f vs, d.program.functions.get? k = some f ∧ frag.label = f.name ∧
      d.program.symbols.parameters f.scope = .ok vs ∧
      ∀ {visited : List Nat} {i : Nat} {instr : Instr} {r : VReg}, Path frag.body visited i →
        frag.body[i]? = some instr → r ∈ instr.sources →
        (∃ v ∈ vs, v.register = r) ∨
          ∃ j ∈ visited, ∃ earlier, frag.body[j]? = some earlier ∧ earlier.writes? = some r := by
  have hstep := h.inStep
  obtain ⟨globals, functions, rfl, hall⟩ := Program.lowers_of_lower hlower
  rw [List.getElem?_cons_succ] at hfrag
  obtain ⟨hk, rfl⟩ := List.getElem?_eq_some_iff.1 hfrag
  have hk' : k < d.program.functions.toList.length := by rw [hall.length_eq]; exact hk
  have hlowers := hall.get hk' hk
  have hf : d.program.functions.get? k = some d.program.functions.toList[k] := by
    rw [Arena.get?_eq, List.getElem?_eq_getElem hk']
  obtain ⟨vs, hparams, hvs⟩ := hstep.parameters_ok hf
  refine ⟨_, vs, hf, hlowers.1, hparams, fun hpath hinstr hr => ?_⟩
  exact hpath.written (hlowers.grounded hstep hf hvs) hinstr hr

/-- The code of `Draft.sumDown`. -/
def Draft.sumCode : List Instr :=
  [.mov ⟨1⟩ (.imm 0) .always, .branch .always (.numbered "condLabel" 0), .label (.numbered "loopBody" 1),
    .binary .add ⟨2⟩ ⟨1⟩ (.reg ⟨0⟩), .mov ⟨1⟩ (.reg ⟨2⟩) .always, .mov ⟨3⟩ (.imm 1) .always,
    .binary .sub ⟨4⟩ ⟨0⟩ (.reg ⟨3⟩), .mov ⟨0⟩ (.reg ⟨4⟩) .always, .label (.numbered "condLabel" 0),
    .mov ⟨5⟩ (.imm 0) .always, .mov ⟨6⟩ (.imm 0) .always, .cmp ⟨0⟩ (.reg ⟨5⟩),
    .mov ⟨6⟩ (.imm 1) (.on .gt), .cmp ⟨6⟩ (.imm 1), .branch (.on .eq) (.numbered "loopBody" 1),
    .println ⟨1⟩, .ret (some (.reg ⟨1⟩))]

/-- In the code of `Draft.sumDown` the path into the loop jumps forward to the test and back to the body,
where the local is read. -/
theorem Draft.written_before_read_sumDown :
    Draft.sumDown.Built (fun _ _ => True) ∧ ∃ fragments c w,
      Draft.sumDown.program.lower.run Draft.sumDown.counters = ⟨.ok fragments, c, w⟩ ∧
      fragments[1]? = some ⟨"sum", sumCode⟩ ∧
      Path sumCode [0, 1, 8, 9, 10, 11, 12, 13, 14, 2] 3 ∧
      ∃ vs, Draft.sumDown.program.symbols.parameters 1 = .ok vs ∧
        ((∃ v ∈ vs, v.register = ⟨1⟩) ∨ ∃ j ∈ [0, 1, 8, 9, 10, 11, 12, 13, 14, 2], ∃ earlier,
          sumCode[j]? = some earlier ∧ earlier.writes? = some ⟨1⟩) := by
  have hstart : Path sumCode [] 0 := .start
  have htest : Path sumCode [0, 1] 8 := (hstart.step rfl rfl).step rfl ⟨_, rfl, rfl⟩
  have hbranch : Path sumCode [0, 1, 8, 9, 10, 11, 12, 13] 14 :=
    (((((htest.step rfl rfl).step rfl rfl).step rfl rfl).step rfl rfl).step rfl rfl).step rfl rfl
  have hpath : Path sumCode [0, 1, 8, 9, 10, 11, 12, 13, 14, 2] 3 :=
    (hbranch.step (j := 2) rfl (.inr ⟨_, rfl, rfl⟩)).step rfl rfl
  obtain ⟨fragments, c, w, hlower, hfrag⟩ : ∃ fragments c w,
      Draft.sumDown.program.lower.run Draft.sumDown.counters = ⟨.ok fragments, c, w⟩ ∧
        fragments[1]? = some ⟨"sum", sumCode⟩ :=
    ⟨_, _, _, rfl, rfl⟩
  obtain ⟨f, vs, hf, -, hparams, hwritten⟩ :=
    Draft.Built.written_before_read (built_sumDown fun _ _ => True) hlower (k := 0) hfrag
  refine ⟨built_sumDown _, fragments, c, w, hlower, hfrag, hpath, vs, ?_, hwritten hpath rfl ?_⟩
  · cases hf
    exact hparams
  · exact List.mem_cons_self ..

end Spillway
