import Spillway.Proofs.Program.Names

/-!
# The record of a program

A program is declared by calls that may come in any order: a local of one function between the
declarations of two others, a global after a function that uses it. What the calls were given and what
they returned is the record of the program, `Draft.Recorded`. The lists of the program and its symbol
table are read off the record:

* the globals, in the program's list and in the global scope, are those of the record, in its order;
* the scope of a function has its parameters and then its locals, each with the register that was drawn
  for it, and nothing else.

This is `Draft.Recorded.in_order`. The invariant is `Program.Follows`, and each call keeps it. Scopes keep their names
in insertion order, as `Dict` does; that is where the order comes from.
-/

namespace Spillway

/-! ### Entries in order -/

/-- A name that is not there comes last. -/
theorem Assoc.insert_of_notMem {α : Type} {name : String} {ps : List (String × α)}
    (h : name ∉ ps.map Prod.fst) (value : α) : insert name value ps = ps ++ [(name, value)] := by
  induction ps with
  | nil => rfl
  | cons p ps ih =>
    obtain ⟨key, old⟩ := p
    rw [List.map_cons, List.mem_cons, not_or] at h
    rw [insert, if_neg (Ne.symm h.1), ih h.2, List.cons_append]

theorem Dict.items_insert_of_none {α : Type} {d : Dict α} {name : String} (h : d.get? name = none)
    (value : α) : (d.insert name value).items = d.items ++ [(name, value)] :=
  Assoc.insert_of_notMem ((Dict.get?_eq_none_iff d name).1 h) value

namespace Scope

/-- Variables as they are declared one after the other, with registers from `n` on. -/
def numbered : (n : Nat) → List (String × Ty) → List (String × Variable)
  | _, [] => []
  | n, (x, ty) :: rest => (x, { ty, register := ⟨n⟩ }) :: numbered (n + 1) rest

/-- Variables as entries of a scope. -/
def asEntries (vs : List (String × Variable)) : List (String × Entry) := vs.map fun q => (q.1, .var q.2)

/-- The variables of a scope, in order. -/
def vars (s : Scope) : List (String × Variable) :=
  s.entries.items.filterMap fun q => q.2.var?.map (q.1, ·)

/-- Numbering variables keeps their types. -/
theorem types_numbered (n : Nat) (vs : List (String × Ty)) :
    (numbered n vs).map (·.2.ty) = vs.map Prod.snd := by
  induction vs generalizing n with
  | nil => rfl
  | cons v vs ih => rw [numbered, List.map_cons, List.map_cons, ih]

/-- Numbered variables are their names and the variables themselves, position by position. -/
theorem zip_numbered (n : Nat) (vs : List (String × Ty)) :
    (vs.map Prod.fst).zip ((numbered n vs).map Prod.snd) = numbered n vs := by
  induction vs generalizing n with
  | nil => rfl
  | cons v vs ih => rw [numbered, List.map_cons, List.map_cons, List.zip_cons_cons, ih]

/-- The registers of numbered variables follow one another. -/
theorem registers_numbered (n : Nat) (vs : List (String × Ty)) :
    (numbered n vs).map (·.2.register.id) = List.range' n vs.length := by
  induction vs generalizing n with
  | nil => rfl
  | cons v vs ih => rw [numbered, List.map_cons, ih, List.length_cons, List.range'_succ]

theorem asEntries_append (vs ws : List (String × Variable)) :
    asEntries (vs ++ ws) = asEntries vs ++ asEntries ws := List.map_append

theorem items_bind {s : Scope} {x : String} (h : s.entries.get? x = none) (e : Entry) :
    (s.bind x e).entries.items = s.entries.items ++ [(x, e)] := Dict.items_insert_of_none h e

/-- New variables come after the entries that are there, in order. -/
theorem items_bindAll {s : Scope} {vs : List (String × Ty)} (n : Nat)
    (hnew : ∀ v ∈ vs, s.entries.get? v.1 = none) (hdup : (vs.map Prod.fst).Nodup) :
    (s.bindAll n vs).entries.items = s.entries.items ++ asEntries (numbered n vs) := by
  induction vs generalizing s n with
  | nil => exact (List.append_nil _).symm
  | cons v vs ih =>
    obtain ⟨x, ty⟩ := v
    rw [List.map_cons, List.nodup_cons] at hdup
    have hrest : ∀ w ∈ vs, (s.bind x (.var { ty, register := ⟨n⟩ })).entries.get? w.1 = none := by
      intro w hw
      have hne : w.1 ≠ x := by
        intro he
        exact hdup.1 (List.mem_map.2 ⟨w, hw, he⟩)
      rw [get?_bind, if_neg hne]
      exact hnew w (List.mem_cons_of_mem _ hw)
    rw [bindAll, ih (n + 1) hrest hdup.2, items_bind (hnew (x, ty) (List.mem_cons_self ..)),
      List.append_assoc]
    rfl

theorem vars_bind_var {s : Scope} {x : String} (h : s.entries.get? x = none) (v : Variable) :
    (s.bind x (.var v)).vars = s.vars ++ [(x, v)] := by
  rw [vars, items_bind h, List.filterMap_append]
  rfl

theorem vars_bind_of_none {s : Scope} {x : String} {e : Entry} (h : s.entries.get? x = none)
    (he : e.var? = none) : (s.bind x e).vars = s.vars := by
  rw [vars, items_bind h, List.filterMap_append]
  simp [he, vars]

/-- The parameters of a scope are found where their names are bound. -/
theorem mapM_parameter {s : Scope} {n : Nat} {ps : List (String × Ty)}
    (h : ∀ q ∈ numbered n ps, s.entries.get? q.1 = some (.var q.2)) :
    (ps.map Prod.fst).mapM (SymbolTable.parameter s) = .ok ((numbered n ps).map Prod.snd) := by
  induction ps generalizing n with
  | nil => rfl
  | cons p ps ih =>
    obtain ⟨x, ty⟩ := p
    have hx : s.entries.get? x = some (.var { ty, register := ⟨n⟩ }) := h _ (List.mem_cons_self ..)
    have hrest := ih fun q hq => h q (List.mem_cons_of_mem _ hq)
    rw [List.map_cons, List.mapM_cons, SymbolTable.parameter, hx, hrest]
    rfl

end Scope

/-! ### Records -/

namespace Draft

namespace Call

/-- The global variable that a call declares. -/
def global? : Call → Option (String × Variable)
  | declareGlobal x ty r => some (x, { ty, register := r })
  | _ => none

/-- The function that a call declares. -/
def heading? : Call → Option Heading
  | declareFunction heading => some heading
  | _ => none

/-- The local of function `k` that a call declares. -/
def local? (k : FunctionId) : Call → Option (String × Variable)
  | declareLocal l x ty r => if l = k then some (x, { ty, register := r }) else none
  | _ => none

end Call

theorem filterMap_local?_append (calls : List Call) (k l : FunctionId) (x : String) (ty : Ty) (r : VReg) :
    (calls ++ [Call.declareLocal k x ty r]).filterMap (Call.local? l)
      = if l = k then calls.filterMap (Call.local? l) ++ [(x, { ty, register := r })]
        else calls.filterMap (Call.local? l) := by
  by_cases hl : l = k
  · simp [Call.local?, hl]
  · simp [Call.local?, hl, Ne.symm hl]

end Draft

/-! ### What a record says about a program -/

namespace Program

open Draft (Call Heading)
open SymbolTable (global)

/-- A function as it was declared, and its locals. -/
structure Holds (p : Program) (heading : Heading) (locals : List (String × Variable))
    (f : FunctionDecl) : Prop where
  name : f.name = heading.name
  bound : p.symbols.bound? global f.name = some (.function { returns := heading.returns, scope := f.scope })
  names : f.locals = locals.map Prod.fst
  scope : ∃ s, p.symbols.scopes.get? f.scope = some s ∧ s.parent = some global ∧
    s.parameterNames = heading.parameters.map Prod.fst ∧ s.parameterTypes = heading.parameters.map Prod.snd ∧
    s.entries.items = Scope.asEntries (Scope.numbered heading.first heading.parameters ++ locals)

/-- A program whose lists and symbol table have these globals, these functions and these locals of each
function, in this order. -/
structure Follows (p : Program) (globals : List (String × Variable)) (headings : List Heading)
    (locals : FunctionId → List (String × Variable)) : Prop where
  listed : p.globals = globals.map Prod.fst
  root : ∃ s, p.symbols.scopes.get? global = some s ∧ s.vars = globals
  size : p.functions.size = headings.length
  function : ∀ {k f}, p.functions.get? k = some f →
    ∃ heading, headings[k]? = some heading ∧ p.Holds heading (locals k) f
  /-- Only functions that are there have locals. -/
  absent : ∀ {k}, p.functions.size ≤ k → locals k = []

variable {p q : Program} {heading : Heading} {locals : List (String × Variable)}
  {f : FunctionDecl} {k : FunctionId} {t : SymbolTable} {x : String} {s : Scope}

/-- What is held about a function depends on its scope and on what its name is bound to. -/
theorem Holds.congr {g : FunctionDecl} (h : p.Holds heading locals f) (hname : g.name = f.name)
    (hscope : g.scope = f.scope) (hlocals : g.locals = f.locals)
    (hbound : q.symbols.bound? global f.name = p.symbols.bound? global f.name)
    (hget : q.symbols.scopes.get? f.scope = p.symbols.scopes.get? f.scope) :
    q.Holds heading locals g where
  name := hname.trans h.name
  bound := by rw [hname, hscope, hbound, h.bound]
  names := hlocals.trans h.names
  scope := by rw [hscope, hget]; exact h.scope

/-- One more local, whose name is new in the scope. -/
theorem Holds.bind {v : Variable} (h : p.Holds heading locals f)
    (hs : p.symbols.scopes.get? f.scope = some s) (hnew : p.symbols.bound? f.scope x = none)
    (hne : f.scope ≠ global) (hsets : p.symbols.Sets f.scope (s.bind x (.var v)) t)
    (hsymbols : q.symbols = t) :
    q.Holds heading (locals ++ [(x, v)]) { f with locals := f.locals ++ [x] } := by
  obtain ⟨s', hs', hparent, hnames, htypes, hitems⟩ := h.scope
  rw [hs] at hs'
  cases hs'
  rw [SymbolTable.bound?_of_scope hs] at hnew
  constructor
  · exact h.name
  · show q.symbols.bound? global f.name = _
    rw [hsymbols, hsets.bound?, if_neg hne.symm, h.bound]
  · show f.locals ++ [x] = _
    rw [h.names, List.map_append]
    rfl
  · subst hsymbols
    refine ⟨s.bind x (.var v), hsets.at, hparent, hnames, htypes, ?_⟩
    rw [Scope.items_bind hnew, hitems, ← List.append_assoc, Scope.asEntries_append _ [(x, v)]]
    rfl

/-- A function that was just declared. -/
theorem holds_of_opens {n : Nat} {ps : List (String × Ty)} {returns : Ty}
    (hdup : (ps.map Prod.fst).Nodup)
    (hopens : p.symbols.Opens x (.function { returns, scope := p.symbols.scopes.size })
      (({ name := x, parent := some global } : Scope).bindParameters n ps) t) (hsymbols : q.symbols = t) :
    q.Holds ⟨x, ps, returns, n⟩ [] { name := x, scope := p.symbols.scopes.size } := by
  subst hsymbols
  constructor
  · rfl
  · rw [hopens.bound?_global, if_pos rfl]
  · rfl
  · refine ⟨_, hopens.new, Scope.parent_bindAll _ _ _, List.nil_append _, List.nil_append _, ?_⟩
    show (Scope.bindAll _ n ps).entries.items = _
    rw [Scope.items_bindAll n (fun _ _ => rfl) hdup, List.append_nil]
    rfl

/-! ### Each call keeps a program to its record -/

namespace Follows

variable {globals : List (String × Variable)} {headings : List Heading}
  {locals : FunctionId → List (String × Variable)}

/-- Nodes and bodies of functions do not count. -/
theorem congr (h : p.Follows globals headings locals) (hglobals : q.globals = p.globals)
    (hsymbols : q.symbols = p.symbols) (hsize : q.functions.size = p.functions.size)
    (hfunctions : ∀ {k g}, q.functions.get? k = some g → ∃ f, p.functions.get? k = some f ∧
      g.name = f.name ∧ g.scope = f.scope ∧ g.locals = f.locals) : q.Follows globals headings locals := by
  constructor
  · rw [hglobals, h.listed]
  · rw [hsymbols]
    exact h.root
  · rw [hsize, h.size]
  · intro k g hg
    obtain ⟨f, hf, hname, hscope, hlocals⟩ := hfunctions hg
    obtain ⟨heading, hheading, hholds⟩ := h.function hf
    exact ⟨heading, hheading, hholds.congr hname hscope hlocals (by rw [hsymbols]) (by rw [hsymbols])⟩
  · intro k hk
    exact h.absent (hsize ▸ hk)

/-- A new global variable. -/
theorem declareGlobal {v : Variable} (h : p.Follows globals headings locals) (hp : p.InStep)
    (hnew : p.symbols.bound? global x = none) (hs : p.symbols.scopes.get? global = some s)
    (hsets : p.symbols.Sets global (s.bind x (.var v)) t) :
    ({ p with globals := p.globals ++ [x], symbols := t } : Program).Follows (globals ++ [(x, v)]) headings
      locals := by
  constructor
  · show p.globals ++ [x] = _
    rw [h.listed, List.map_append]
    rfl
  · obtain ⟨s', hs', hvars⟩ := h.root
    rw [hs] at hs'
    cases hs'
    rw [SymbolTable.bound?_of_scope hs] at hnew
    exact ⟨_, hsets.at, by rw [Scope.vars_bind_var hnew, hvars]⟩
  · exact h.size
  · intro k f hf
    obtain ⟨heading, hheading, hholds⟩ := h.function hf
    refine ⟨heading, hheading, hholds.congr rfl rfl rfl ?_ (hsets.off (hp.scope_ne hf))⟩
    refine (hsets.bound?_bind hs _ _).trans ?_
    have hname : ¬ (global = global ∧ f.name = x) := fun hc => hp.name_ne hf hnew hc.2
    rw [if_neg hname]
  · exact h.absent

/-- A new struct, or a function's name before the function is listed. -/
theorem opens {e : Entry} (h : p.Follows globals headings locals) (hp : p.InStep)
    (hnew : p.symbols.bound? global x = none) (he : e.var? = none) (hopens : p.symbols.Opens x e s t) :
    ({ p with symbols := t } : Program).Follows globals headings locals := by
  constructor
  · exact h.listed
  · obtain ⟨r, hr, hvars⟩ := h.root
    obtain ⟨r', hr', hget⟩ := hopens.root
    rw [hr] at hr'
    cases hr'
    rw [SymbolTable.bound?_of_scope hr] at hnew
    exact ⟨_, hget, by rw [Scope.vars_bind_of_none hnew he, hvars]⟩
  · exact h.size
  · intro k f hf
    obtain ⟨heading, hheading, hholds⟩ := h.function hf
    refine ⟨heading, hheading, hholds.congr rfl rfl rfl ?_ ?_⟩
    · refine (hopens.bound?_global f.name).trans ?_
      rw [if_neg (hp.name_ne hf hnew)]
    · obtain ⟨s', hs', -⟩ := hholds.scope
      exact (hopens.other hs' (hp.scope_ne hf)).trans hs'.symm
  · exact h.absent

/-- A new function with its parameters. -/
theorem declareFunction {n : Nat} {ps : List (String × Ty)} {returns : Ty}
    (h : p.Follows globals headings locals) (hp : p.InStep) (hnew : p.symbols.bound? global x = none)
    (hdup : (ps.map Prod.fst).Nodup)
    (hopens : p.symbols.Opens x (.function { returns, scope := p.symbols.scopes.size })
      (({ name := x, parent := some global } : Scope).bindParameters n ps) t) :
    ({ p with
        functions := (p.functions.push { name := x, scope := p.symbols.scopes.size }).2,
        symbols := t } : Program).Follows globals (headings ++ [⟨x, ps, returns, n⟩]) locals := by
  have hopened := h.opens hp hnew rfl hopens
  constructor
  · exact h.listed
  · exact hopened.root
  · show (p.functions.push _).2.size = _
    rw [Arena.size_push, h.size, List.length_append]
    rfl
  · intro k f hf
    replace hf : (p.functions.push _).2.get? k = some f := hf
    rw [Arena.get?_push] at hf
    split at hf
    · subst k
      cases hf
      refine ⟨⟨x, ps, returns, n⟩, by simp [h.size], ?_⟩
      rw [h.absent (Nat.le_refl _)]
      exact holds_of_opens hdup hopens rfl
    · obtain ⟨heading, hheading, hholds⟩ := hopened.function hf
      have hlt : k < headings.length := (List.getElem?_eq_some_iff.1 hheading).1
      exact ⟨heading, by rw [List.getElem?_append_left hlt, hheading],
        hholds.congr rfl rfl rfl rfl rfl⟩
  · intro k hk
    refine h.absent (Nat.le_of_succ_le ?_)
    replace hk : (p.functions.push _).2.size ≤ k := hk
    rw [Arena.size_push] at hk
    exact hk

/-- A new local variable of function `k`. -/
theorem declareLocal {v : Variable} {fs : Arena FunctionDecl} (h : p.Follows globals headings locals)
    (hp : p.InStep) (hf : p.functions.get? k = some f) (hnew : p.symbols.bound? f.scope x = none)
    (hs : p.symbols.scopes.get? f.scope = some s)
    (hsets : p.symbols.Sets f.scope (s.bind x (.var v)) t)
    (hfs : p.functions.update k (fun f => { f with locals := f.locals ++ [x] }) = .ok fs) :
    ({ p with functions := fs, symbols := t } : Program).Follows globals headings
      (fun l => if l = k then locals l ++ [(x, v)] else locals l) := by
  have hne := hp.scope_ne hf
  constructor
  · exact h.listed
  · obtain ⟨r, hr, hvars⟩ := h.root
    exact ⟨r, (hsets.off hne.symm).trans hr, hvars⟩
  · exact (Arena.size_update hfs).trans h.size
  · intro l g hg
    obtain ⟨g', hg', rfl⟩ := Arena.of_get?_update hfs hg
    obtain ⟨heading, hheading, hholds⟩ := h.function hg'
    refine ⟨heading, hheading, ?_⟩
    by_cases hl : l = k
    · subst l
      rw [hf] at hg'
      cases hg'
      rw [if_pos rfl, if_pos rfl]
      exact hholds.bind hs hnew hne hsets rfl
    · rw [if_neg hl, if_neg hl]
      have hother : g'.scope ≠ f.scope := fun he => hl (hp.apart hg' hf he)
      refine hholds.congr rfl rfl rfl ?_ (hsets.off hother)
      refine (hsets.bound? _ _).trans ?_
      rw [if_neg hne.symm]
  · intro l hl
    have hlt : k < p.functions.size := (Arena.get?_isSome_iff _ _).1 (by rw [hf]; rfl)
    have hsize : fs.size = p.functions.size := Arena.size_update hfs
    replace hl : p.functions.size ≤ l := hsize ▸ hl
    have hne' : l ≠ k := Nat.ne_of_gt (Nat.lt_of_lt_of_le hlt hl)
    show (if l = k then _ else _) = _
    rw [if_neg hne', h.absent hl]

/-- One more statement in the body of a function. -/
theorem pushStatement {i : StmtId} {fs : Arena FunctionDecl} (h : p.Follows globals headings locals)
    (hfs : p.functions.update k (fun f => { f with body := f.body ++ [i] }) = .ok fs) :
    ({ p with functions := fs } : Program).Follows globals headings locals := by
  refine h.congr rfl rfl (Arena.size_update hfs) fun {l g} hg => ?_
  obtain ⟨f, hf, rfl⟩ := Arena.of_get?_update hfs hg
  refine ⟨f, hf, ?_⟩
  split <;> exact ⟨rfl, rfl, rfl⟩

end Follows

end Program

/-! ### The record and the program -/

namespace Draft

variable {calls : List Call} {d : Draft}

theorem declareGlobal_register {d' : Draft} {x : String} {ty : Ty} {r : VReg} {w : List Scoping.Notice}
    (h : (declareGlobal x ty).run d = ⟨.ok r, d', w⟩) : r = ⟨d.counters.registers⟩ := by
  obtain ⟨r', d₁, _, _, hdeclare, h₁, -⟩ := Journal.bind_eq_ok_iff.1 h
  obtain ⟨t, c, hvar, rfl⟩ := declare_ok hdeclare
  exact (Journal.eq_of_bind_pure h₁).trans (Scoping.declareVariable_ok hvar).1

theorem declareLocal_register {d' : Draft} {k : FunctionId} {x : String} {ty : Ty} {r : VReg}
    {w : List Scoping.Notice} (h : (declareLocal k x ty).run d = ⟨.ok r, d', w⟩) :
    r = ⟨d.counters.registers⟩ := by
  obtain ⟨f, -, h₁⟩ := Journal.trap_bind_ok.1 (Journal.get_bind_ok.1 h)
  obtain ⟨r', d₁, _, _, hdeclare, h₂, -⟩ := Journal.bind_eq_ok_iff.1 h₁
  obtain ⟨t, c, hvar, rfl⟩ := declare_ok hdeclare
  exact (Journal.eq_of_bind_pure h₂).trans (Scoping.declareVariable_ok hvar).1

namespace Recorded

theorem follows (h : Recorded calls d) :
    d.program.Follows (calls.filterMap Call.global?) (calls.filterMap Call.heading?)
      (fun k => calls.filterMap (Call.local? k)) := by
  obtain ⟨c, h⟩ := h
  induction h with
  | nil =>
    refine ⟨rfl, ⟨_, rfl, rfl⟩, rfl, fun {k f} hf => ?_, fun _ => rfl⟩
    cases hf
  | add hgrows hadds hrule ih =>
    have hstep := Built.inStep ⟨c, _, hgrows⟩
    cases hadds with
    | elsewhere c => simpa [List.filterMap_cons, Call.global?, Call.heading?, Call.local?] using ih
    | addExpr node | addStmt node =>
      simp only [List.filterMap_append, List.filterMap_cons, List.filterMap_nil, Call.global?, Call.heading?,
        Call.local?, List.append_nil]
      exact ih.congr rfl rfl rfl fun hf => ⟨_, hf, rfl, rfl, rfl⟩
    | declareGlobal hrun =>
      obtain rfl := declareGlobal_register hrun
      obtain ⟨s, t, hs, hsets, rfl⟩ := declareGlobal_ok hrun
      simpa [List.filterMap_cons, Call.global?, Call.heading?, Call.local?] using
        ih.declareGlobal hstep hrule hs hsets
    | declareStruct hrun =>
      obtain ⟨s, hroot, -⟩ := ih.root
      obtain ⟨t, hopens, rfl⟩ := declareStruct_ok hroot hrun
      simpa [List.filterMap_cons, Call.global?, Call.heading?, Call.local?] using
        ih.opens hstep hrule.1 rfl hopens
    | declareFunction hrun =>
      obtain ⟨s, hroot, -⟩ := ih.root
      obtain ⟨t, hopens, rfl⟩ := declareFunction_ok hroot hrun
      simpa [List.filterMap_cons, Call.global?, Call.heading?, Call.local?] using
        ih.declareFunction hstep hrule.1 hrule.2 hopens
    | declareLocal hrun =>
      obtain ⟨f, hf, hnew⟩ := hrule
      obtain rfl := declareLocal_register hrun
      obtain ⟨f', s, t, fs, hf', hs, hsets, hfs, rfl⟩ := declareLocal_ok hrun
      rw [hf] at hf'
      cases hf'
      simp only [filterMap_local?_append]
      simpa [List.filterMap_cons, Call.global?, Call.heading?] using
        ih.declareLocal hstep hf hnew hs hsets hfs
    | pushStatement hrun =>
      obtain ⟨fs, hfs, rfl⟩ := modifyFunction_ok hrun
      simpa [List.filterMap_cons, Call.global?, Call.heading?, Call.local?] using ih.pushStatement hfs

/-- **In order.** Whatever the order of the calls: the program lists the variables of its global scope,
in order, and they are those that were declared. Each function is found under its name, with a scope
right under the global one. Its parameters come back in the order in which they were given, with their
types and with the registers that were drawn for them. The entries of its scope are these parameters
under their names and then its locals, each with the register that the call returned, and no others.
The order of the entries is the order that a `Dict` keeps. -/
theorem in_order (h : Recorded calls d) :
    (∃ s, d.program.symbols.scopes.get? SymbolTable.global = some s ∧
      d.program.globals = s.vars.map Prod.fst ∧ s.vars = calls.filterMap Call.global?) ∧
    d.program.functions.size = (calls.filterMap Call.heading?).length ∧
    ∀ k f, d.program.functions.get? k = some f → ∃ heading s vs,
      (calls.filterMap Call.heading?)[k]? = some heading ∧ f.name = heading.name ∧
      d.program.symbols.function? f.name = .ok (some { returns := heading.returns, scope := f.scope }) ∧
      d.program.symbols.scopes.get? f.scope = some s ∧ s.parent = some SymbolTable.global ∧
      s.parameterNames = heading.parameters.map Prod.fst ∧ s.parameterTypes = heading.parameters.map Prod.snd ∧
      d.program.symbols.parameters f.scope = .ok vs ∧
      vs.map (·.ty) = heading.parameters.map Prod.snd ∧
      vs.map (·.register.id) = List.range' heading.first heading.parameters.length ∧
      f.locals = (calls.filterMap (Call.local? k)).map Prod.fst ∧
      s.entries.items = Scope.asEntries
        ((heading.parameters.map Prod.fst).zip vs ++ calls.filterMap (Call.local? k)) := by
  obtain ⟨hlisted, ⟨root, hroot, hvars⟩, hsize, hfunction, -⟩ := h.follows
  refine ⟨⟨root, hroot, by rw [hvars, hlisted], hvars⟩, hsize, fun k f hf => ?_⟩
  obtain ⟨heading, hheading, hname, hbound, hlocals, s, hs, hparent, hnames, htypes, hitems⟩ := hfunction hf
  have hfound : ∀ q ∈ Scope.numbered heading.first heading.parameters,
      s.entries.get? q.1 = some (.var q.2) := by
    intro q hq
    have hmem : (q.1, Entry.var q.2) ∈ s.entries.items := by
      rw [hitems, Scope.asEntries_append]
      exact List.mem_append_left _ (List.mem_map_of_mem hq)
    exact Dict.get?_of_mem hmem
  have hquery : d.program.symbols.parameters f.scope
      = .ok ((Scope.numbered heading.first heading.parameters).map Prod.snd) := by
    rw [SymbolTable.parameters, SymbolTable.scope, Arena.fetch_ok_iff.2 hs]
    show s.parameterNames.mapM _ = _
    rw [hnames]
    exact Scope.mapM_parameter hfound
  refine ⟨heading, s, _, hheading, hname, SymbolTable.function?_of_bound hroot hbound, hs, hparent,
    hnames, htypes, hquery, ?_, ?_, hlocals, ?_⟩
  · rw [List.map_map]
    exact Scope.types_numbered ..
  · rw [List.map_map]
    exact Scope.registers_numbered ..
  · rw [hitems, Scope.zip_numbered]

end Recorded

/-- Two functions and two globals whose declarations are interleaved. -/
def interleaved : Draft :=
  ((do
    let _ ← declareGlobal "a" .int
    let f ← declareFunction "f" [("x", .int), ("y", .bool)] .int
    let g ← declareFunction "g" [] .void
    let _ ← declareLocal g "u" .int
    let _ ← declareGlobal "b" .bool
    let _ ← declareLocal f "v" .int
    declareStruct "S" [("x", .int)]
    let _ ← declareLocal g "x" .bool : Extend Unit).run {}).state

/-- Its record. -/
def interleavedCalls : List Call :=
  [.declareGlobal "a" .int ⟨0⟩, .declareFunction ⟨"f", [("x", .int), ("y", .bool)], .int, 1⟩,
    .declareFunction ⟨"g", [], .void, 3⟩, .declareLocal 1 "u" .int ⟨3⟩, .declareGlobal "b" .bool ⟨4⟩,
    .declareLocal 0 "v" .int ⟨5⟩, .declareStruct "S" [("x", .int)], .declareLocal 1 "x" .bool ⟨7⟩]

theorem recorded_interleaved : Recorded interleavedCalls interleaved := by
  have hstart : Grows (.once fun _ _ => True) {} [] {} := .nil
  have ha := hstart.add (.declareGlobal (show (declareGlobal "a" .int).run _ = _ from rfl)) rfl
  have hf := ha.add (.declareFunction
    (show (declareFunction "f" [("x", .int), ("y", .bool)] .int).run _ = _ from rfl)) ⟨rfl, by decide⟩
  have hg := hf.add (.declareFunction (show (declareFunction "g" [] .void).run _ = _ from rfl)) ⟨rfl, by decide⟩
  have hu := hg.add (.declareLocal (show (declareLocal 1 "u" .int).run _ = _ from rfl)) ⟨_, rfl, rfl⟩
  have hb := hu.add (.declareGlobal (show (declareGlobal "b" .bool).run _ = _ from rfl)) rfl
  have hv := hb.add (.declareLocal (show (declareLocal 0 "v" .int).run _ = _ from rfl)) ⟨_, rfl, rfl⟩
  have hS := hv.add (.declareStruct (show (declareStruct "S" [("x", .int)]).run _ = _ from rfl)) ⟨rfl, by decide⟩
  have hx := hS.add (.declareLocal (show (declareLocal 1 "x" .bool).run _ = _ from rfl)) ⟨_, rfl, rfl⟩
  exact ⟨{}, hx⟩

/-- The local that was declared after the second function stands right after the parameters of the first. -/
theorem interleaved_in_order :
    Recorded interleavedCalls interleaved ∧ interleaved.program.globals = ["a", "b"] ∧
      ∃ s, interleaved.program.symbols.scopes.get? 1 = some s ∧ s.entries.items
        = [("x", .var ⟨.int, none, ⟨1⟩⟩), ("y", .var ⟨.bool, none, ⟨2⟩⟩), ("v", .var ⟨.int, none, ⟨5⟩⟩)] := by
  obtain ⟨⟨_, _, hglobals, hvars⟩, -, hfunctions⟩ := recorded_interleaved.in_order
  obtain ⟨heading, s, vs, hheading, -, -, hs, -, -, -, hvs, -, -, -, hitems⟩ := hfunctions 0 _ rfl
  cases hheading
  cases hvs
  refine ⟨recorded_interleaved, ?_, s, hs, hitems⟩
  rw [hglobals, hvars]
  rfl

end Draft

end Spillway
