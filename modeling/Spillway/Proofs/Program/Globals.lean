import Spillway.Proofs.Lowering.Function
import Spillway.Proofs.Program.Names

/-!
# The globals of a program

A program lists its globals in the order in which they were declared. In a built program the list agrees with the
global scope: `Draft.Built.listsGlobals`. Code refers to a global only where no variable of the function hides it, so
every reference is to one that is listed, `Program.Translates.global_mem`.
-/

namespace Spillway

open Linear (Instr Fragment)

/-! ### The list and the global scope -/

/-- The globals that a program lists are the variables of its global scope, each once. -/
structure Program.ListsGlobals (p : Program) : Prop where
  nodup : p.globals.Nodup
  mem_iff : ∀ x, x ∈ p.globals ↔ ∃ v, p.symbols.bound? SymbolTable.global x = some (.var v)

namespace Program.ListsGlobals

variable {p q : Program} {t : SymbolTable} {x : String} {s : Scope}

/-- Only the list and the names that stand for global variables count. -/
theorem congr (h : p.ListsGlobals) (hglobals : q.globals = p.globals)
    (hbound : ∀ y, (∃ v, q.symbols.bound? SymbolTable.global y = some (.var v)) ↔
      ∃ v, p.symbols.bound? SymbolTable.global y = some (.var v)) : q.ListsGlobals where
  nodup := by rw [hglobals]; exact h.nodup
  mem_iff y := by rw [hglobals, h.mem_iff, hbound]

/-- A new global variable. -/
theorem declareGlobal {v : Variable} (h : p.ListsGlobals)
    (hnew : p.symbols.bound? SymbolTable.global x = none)
    (hs : p.symbols.scopes.get? SymbolTable.global = some s)
    (hsets : p.symbols.Sets SymbolTable.global (s.bind x (.var v)) t) :
    ({ p with globals := p.globals ++ [x], symbols := t } : Program).ListsGlobals := by
  have hx : x ∉ p.globals := by
    rw [h.mem_iff, hnew]
    rintro ⟨_, hv⟩
    cases hv
  constructor
  · show (p.globals ++ [x]).Nodup
    rw [List.nodup_append_comm, List.singleton_append]
    exact List.nodup_cons.2 ⟨hx, h.nodup⟩
  · intro y
    show y ∈ p.globals ++ [x] ↔ ∃ v, t.bound? SymbolTable.global y = some (.var v)
    rw [hsets.bound?_bind hs, List.mem_append, List.mem_singleton, h.mem_iff]
    by_cases hy : y = x
    · simp [hy]
    · simp [hy]

/-- A new struct or a new function. -/
theorem opens {e : Entry} (h : p.ListsGlobals) (hnew : p.symbols.bound? SymbolTable.global x = none)
    (he : ∀ v, e ≠ .var v) (hopens : p.symbols.Opens x e s t) (hglobals : q.globals = p.globals)
    (hsymbols : q.symbols = t) : q.ListsGlobals := by
  refine h.congr hglobals fun y => ?_
  rw [hsymbols, hopens.bound?_global]
  by_cases hy : y = x
  · simp [hy, he, hnew]
  · rw [if_neg hy]

end Program.ListsGlobals

/-- **Globals.** A built program lists the variables of its global scope, each once. -/
theorem Draft.Built.listsGlobals {drift : Counters → Counters → Prop} {d : Draft} (h : d.Built drift) :
    d.program.ListsGlobals := by
  refine Grown.induct (P := fun d => d.program.ListsGlobals) h (fun c => ?_) fun {d call d'} hbuilt ih hadds hrule => ?_
  · refine ⟨List.nodup_nil, fun x => ⟨fun hx => ?_, fun ⟨v, hv⟩ => ?_⟩⟩
    · cases hx
    · cases hv
  have hstep := Built.inStep hbuilt
  cases hadds with
  | elsewhere c => exact ih
  | addExpr node | addStmt node => exact ih.congr rfl fun _ => Iff.rfl
  | declareGlobal hrun =>
    obtain ⟨s, t, hs, hsets, rfl⟩ := declareGlobal_ok hrun
    exact ih.declareGlobal hrule hs hsets
  | declareStruct hrun =>
    obtain ⟨s, hroot, -⟩ := hstep.root
    obtain ⟨t, hopens, rfl⟩ := declareStruct_ok hroot hrun
    refine ih.opens hrule.1 (fun v hv => ?_) hopens rfl rfl
    cases hv
  | declareFunction hrun =>
    obtain ⟨s, hroot, -⟩ := hstep.root
    obtain ⟨t, hopens, rfl⟩ := declareFunction_ok hroot hrun
    refine ih.opens hrule.1 (fun v hv => ?_) hopens rfl rfl
    cases hv
  | declareLocal hrun =>
    obtain ⟨f, s, t, fs, hf, -, hsets, -, rfl⟩ := declareLocal_ok hrun
    refine ih.congr rfl fun y => ?_
    show (∃ v, t.bound? SymbolTable.global y = some (.var v)) ↔ _
    rw [hsets.bound?, if_neg (hstep.scope_ne hf).symm]
  | pushStatement hrun =>
    obtain ⟨fs, -, rfl⟩ := modifyFunction_ok hrun
    exact ih.congr rfl fun _ => Iff.rfl

/-! ### References to globals -/

namespace Lowering.Env

variable {env : Env} {code : List Instr} {c c' : Counters}

/-- Code that refers only to names that stand for global variables in it. -/
def Refers (env : Env) (code : List Instr) : Prop := ∀ x ∈ code.filterMap Instr.global?, env.isGlobal x = .ok true

theorem Refers.append {code' : List Instr} (h : env.Refers code) (h' : env.Refers code') :
    env.Refers (code ++ code') := by
  intro x hx
  rw [List.filterMap_append] at hx
  exact (List.mem_append.1 hx).elim (h x) (h' x)

/-- Code without references. -/
theorem refers_of_none (h : code.filterMap Instr.global? = []) : env.Refers code := by
  intro x hx
  rw [h] at hx
  cases hx

theorem Refers.then_none {code' : List Instr} (h : env.Refers code) (h' : code'.filterMap Instr.global? = []) :
    env.Refers (code ++ code') := h.append (refers_of_none h')

theorem refers_of_global {i : Instr} {x : String} (hi : i.global? = some x) (hx : env.isGlobal x = .ok true) :
    env.Refers [i] := by
  intro y hy
  rw [List.filterMap_cons_some hi] at hy
  obtain rfl := List.mem_singleton.1 hy
  exact hx

theorem global?_combination (op : BinOp) (target left right : VReg) :
    (combination op target left right).filterMap Instr.global? = [] := by
  unfold combination
  cases Action.of op <;> rfl

theorem Follows.global?_eq {r r' : VReg} {ty : Ty} {path : List String}
    (h : env.Follows r ty path c code r' c') : code.filterMap Instr.global? = [] := by
  induction h with
  | nil => rfl
  | cons _ _ ih => exact ih

/-- **Values.** Code that computes values refers to global variables only. -/
theorem Computes.refers {ph : Phrase} {rs : List VReg} (h : env.Computes ph c code rs c') : env.Refers code := by
  induction h with
  | int | bool | nil | own | alloc | linksNil | exprsNil => exact refers_of_none rfl
  | global hx => exact refers_of_global rfl hx
  | paren _ ih => exact ih
  | chain _ _ ih ih' | exprsCons _ _ ih ih' => exact ih.append ih'
  | not _ ih | negate _ ih | call _ _ ih => exact ih.then_none rfl
  | select _ _ hfollows ih => exact ih.then_none hfollows.global?_eq
  | linksCons _ _ ih ih' => exact (ih.then_none (global?_combination ..)).append ih'

theorem StoresPath.global?_eq {value r : VReg} {ty : Ty} {x : String} {path : List String}
    (h : env.StoresPath value r ty x path c code c') : code.filterMap Instr.global? = [] := by
  induction h with
  | last => rfl
  | step _ _ ih => exact ih

theorem Stores.refers {value : VReg} {place : Place} (h : env.Stores value place c code c') :
    env.Refers code := by
  cases h with
  | global hx => exact refers_of_global rfl hx
  | own => exact refers_of_none rfl
  | field _ hread hpath => exact hread.refers.then_none hpath.global?_eq

/-- **Statements.** The code of statements refers to global variables only. -/
theorem Emits.refers {part : Part} (h : env.Emits part c code c') : env.Refers code := by
  induction h with
  | assign hvalue hstores => exact hvalue.refers.append hstores.refers
  | print hread =>
    refine hread.refers.then_none ?_
    split <;> rfl
  | @readGlobal x c hx =>
    have hstore : env.Refers [.store ⟨c.registers⟩ (.global x)] := refers_of_global rfl hx
    exact hstore
  | readOwn | leave | alloc | nil => exact refers_of_none rfl
  | when htest _ ih => exact ((htest.refers.then_none rfl).append ih).then_none rfl
  | choose htest _ _ ih ih' =>
    exact ((((htest.refers.then_none rfl).append ih).then_none rfl).append ih').then_none rfl
  | loop _ htest ih =>
    exact ((((refers_of_none rfl).append ih).then_none rfl).append htest.refers).then_none rfl
  | give hvalue | free _ hvalue | call _ hvalue => exact hvalue.refers.then_none rfl
  | cons _ _ ih ih' => exact ih.append ih'

theorem Clears.global?_eq {names : List String} (h : env.Clears names code) :
    code.filterMap Instr.global? = [] := by
  induction h with
  | nil => rfl
  | cons hx _ ih =>
    obtain ⟨r, -, rfl⟩ := hx
    exact ih

/-- The code that clears globals refers to each of them once. -/
theorem Resets.global?_eq {names : List String} (h : env.Resets names code) :
    code.filterMap Instr.global? = names := by
  induction h with
  | nil => rfl
  | @cons x _ _ _ _ _ ih => exact congrArg (x :: ·) ih

end Lowering.Env

namespace Program

variable {p : Program} {k : FunctionId} {f : FunctionDecl} {frag : Fragment} {c c' : Counters}

theorem Translates.refers (h : p.Translates c f frag c') : (p.env f.scope).Refers frag.body := by
  obtain ⟨-, clear, code, hbody, hclears, hemits⟩ := h
  rw [hbody]
  exact (Lowering.Env.refers_of_none hclears.global?_eq).append hemits.refers

/-- **References.** What the code of a function refers to is a global that the program lists. -/
theorem Translates.global_mem (h : p.Translates c f frag c') (hscoped : p.Scoped) (hlists : p.ListsGlobals)
    (hf : p.functions.get? k = some f) {i : Instr} (hi : i ∈ frag.body) {x : String} (hx : i.global? = some x) :
    x ∈ p.globals := by
  have hglobal := (hscoped.isGlobal_eq hf x).symm.trans (h.refers x (List.mem_filterMap.2 ⟨i, hi, hx⟩))
  rw [hlists.mem_iff]
  split at hglobal
  · next v _ hv => exact ⟨v, hv⟩
  · cases hglobal

end Program

end Spillway
