import Spillway.Linear.Fragment
import Spillway.Symbol.Table

/-!
# Other names for registers and labels

A renaming gives every virtual register and every label of linear code another name. It is applied to
all instructions of a program's fragments, and, as far as registers are concerned, to the variables of
its symbol table. Nothing else in either of them names a register or a label.
-/

namespace Spillway

/-- Other names for the registers and the labels of linear code. -/
structure Renaming where
  reg : VReg → VReg
  label : Label → Label

namespace Renaming

/-- The renaming that leaves labels as they are. -/
def registers (f : VReg → VReg) : Renaming := ⟨f, id⟩

/-- The renaming that leaves registers as they are. -/
def labels (f : Label → Label) : Renaming := ⟨id, f⟩

/-- One renaming after another. -/
def comp (ρ σ : Renaming) : Renaming := ⟨ρ.reg ∘ σ.reg, ρ.label ∘ σ.label⟩

end Renaming

/-! ### Reports -/

/-- A report with the registers under other names. -/
def Defect.rename (f : VReg → VReg) : Defect → Defect
  | .unlocated r => .unlocated (f r)
  | d => d

/-- A failure with the registers under other names. -/
def Failure.rename (f : VReg → VReg) : Failure → Failure
  | .fault (.defect d) => .fault (.defect (d.rename f))
  | e => e

section Nameless

variable {α β : Type}

/-- A query whose reports name no register. -/
def Nameless (x : Except Defect α) : Prop := ∀ f, x.mapError (Defect.rename f) = x

theorem Nameless.bind {x : Except Defect α} {k : α → Except Defect β} (hx : Nameless x)
    (hk : ∀ a, Nameless (k a)) : Nameless (x >>= k) := by
  intro f
  cases x with
  | ok a => exact hk a f
  | error d =>
    have hd : Except.error (d.rename f) = (Except.error d : Except Defect α) := hx f
    rw [Except.error.injEq] at hd
    exact congrArg Except.error hd

theorem Nameless.mapM {k : α → Except Defect β} (hk : ∀ a, Nameless (k a)) (as : List α) :
    Nameless (as.mapM k) := by
  induction as with
  | nil => exact fun _ => rfl
  | cons a as ih =>
    rw [List.mapM_cons]
    exact (hk a).bind fun _ => ih.bind fun _ _ => rfl

end Nameless

/-! ### Linear code -/

namespace Linear

variable (ρ σ : Renaming)

/-- An operand under other names. -/
def Operand.rename : Operand → Operand
  | .reg r => .reg (ρ.reg r)
  | .imm value => .imm value

/-- An address under other names. -/
def Address.rename : Address → Address
  | .indexed base offset => .indexed (ρ.reg base) (ρ.reg offset)
  | .displaced base offset => .displaced (ρ.reg base) offset
  | .direct base => .direct (ρ.reg base)
  | .global name => .global name

/-- An instruction under other names. -/
def Instr.rename : Instr → Instr
  | .binary op target left right => .binary op (ρ.reg target) (ρ.reg left) (right.rename ρ)
  | .not target operand => .not (ρ.reg target) (ρ.reg operand)
  | .cmp left right => .cmp (ρ.reg left) (right.rename ρ)
  | .branch guard l => .branch guard (ρ.label l)
  | .label l => .label (ρ.label l)
  | .load target address => .load (ρ.reg target) (address.rename ρ)
  | .store value address => .store (ρ.reg value) (address.rename ρ)
  | .loadField target base field index => .loadField (ρ.reg target) (ρ.reg base) field index
  | .storeField value base field index => .storeField (ρ.reg value) (ρ.reg base) field index
  | .alloc target struct fields => .alloc (ρ.reg target) struct fields
  | .free pointer => .free (ρ.reg pointer)
  | .push arguments callee => .push (arguments.map ρ.reg) callee
  | .pop arguments callee => .pop (arguments.map ρ.reg) callee
  | .mov target source guard => .mov (ρ.reg target) (source.rename ρ) guard
  | .result target => .result (ρ.reg target)
  | .ret value => .ret (value.map (Operand.rename ρ))
  | .call callee => .call callee
  | .print source => .print (ρ.reg source)
  | .println source => .println (ρ.reg source)
  | .read target name => .read (ρ.reg target) name

/-- A fragment under other names. -/
def Fragment.rename (f : Fragment) : Fragment := ⟨f.label, f.body.map (Instr.rename ρ)⟩

variable {ρ σ}

@[simp] theorem Instr.target?_rename (i : Instr) : (i.rename ρ).target? = i.target?.map ρ.reg := by
  cases i <;> rfl

@[simp] theorem Instr.global?_rename (i : Instr) : (i.rename ρ).global? = i.global? := by
  rcases i with _ | _ | _ | _ | _ | ⟨_, _ | _⟩ | ⟨_, _ | _⟩ <;> rfl

theorem Fragment.targets_rename (body : List Instr) :
    targets (body.map (Instr.rename ρ)) = (targets body).map ρ.reg := by
  simp only [targets, List.filterMap_map, List.map_filterMap]
  congr 1
  funext i
  exact i.target?_rename

/-! ### One renaming after another -/

theorem Operand.rename_rename (o : Operand) : (o.rename σ).rename ρ = o.rename (ρ.comp σ) := by
  cases o <;> rfl

theorem Address.rename_rename (a : Address) : (a.rename σ).rename ρ = a.rename (ρ.comp σ) := by
  cases a <;> rfl

theorem Instr.rename_rename (i : Instr) : (i.rename σ).rename ρ = i.rename (ρ.comp σ) := by
  cases i <;>
    simp [Instr.rename, Operand.rename_rename, Address.rename_rename, Renaming.comp, Function.comp_def]

theorem Fragment.rename_rename (f : Fragment) : (f.rename σ).rename ρ = f.rename (ρ.comp σ) := by
  simp [Fragment.rename, Instr.rename_rename]

end Linear

/-! ### Symbol tables -/

section Symbols

variable {α β : Type} (f : VReg → VReg)

/-- A dictionary with each value replaced by another. -/
def Dict.map (g : α → β) (d : Dict α) : Dict β where
  items := d.items.map (Prod.map id g)
  nodup := by
    rw [List.map_map]
    exact d.nodup

theorem Assoc.lookup_map (g : α → β) (name : String) (ps : List (String × α)) :
    lookup name (ps.map (Prod.map id g)) = (lookup name ps).map g := by
  induction ps with
  | nil => rfl
  | cons p ps ih =>
    by_cases h : p.1 = name <;> simp [lookup, h, ih]

theorem Dict.get?_map (g : α → β) (d : Dict α) (name : String) :
    (d.map g).get? name = (d.get? name).map g := Assoc.lookup_map g name d.items

/-- A dictionary whose values are all left as they are. -/
theorem Dict.map_eq_self {g : α → α} {d : Dict α} (h : ∀ {name a}, d.get? name = some a → g a = a) :
    d.map g = d := by
  have hitems : d.items.map (Prod.map id g) = d.items.map id := by
    refine List.map_congr_left fun p hp => ?_
    exact Prod.ext rfl (h (Dict.get?_of_mem hp))
  rcases d with ⟨items, nodup⟩
  rw [List.map_id] at hitems
  simp only [Dict.map, hitems]

/-- An arena with each item replaced by another. -/
def Arena.map (g : α → β) (a : Arena α) : Arena β := ⟨a.items.map g⟩

theorem Arena.fetch_map (g : α → β) (a : Arena α) (i : Nat) : (a.map g).fetch i = (a.fetch i).map g := by
  unfold Arena.fetch Arena.get? Arena.size Arena.map
  rw [Array.getElem?_map, Array.size_map]
  cases a.items[i]? <;> rfl

/-- A variable in another register. -/
def Variable.rename (v : Variable) : Variable := { v with register := f v.register }

/-- An entry whose variable is in another register. -/
def Entry.rename : Entry → Entry
  | .var v => .var (v.rename f)
  | .function g => .function g
  | .struct scope => .struct scope

/-- A scope whose variables are in other registers. -/
def Scope.rename (s : Scope) : Scope := { s with entries := s.entries.map (Entry.rename f) }

namespace SymbolTable

/-- A symbol table whose variables are in other registers. -/
def rename (t : SymbolTable) : SymbolTable := ⟨t.scopes.map (Scope.rename f)⟩

variable {f}

theorem nameless_scope (t : SymbolTable) (i : ScopeId) : Nameless (t.scope i) := by
  intro f
  unfold scope Arena.fetch
  cases t.scopes.get? i <;> rfl

theorem nameless_function? (t : SymbolTable) (x : String) : Nameless (t.function? x) := by
  refine ((nameless_scope t _).bind fun _ _ => rfl).bind fun entry => ?_
  rcases entry with _ | _ | _ | _ <;> exact fun _ => rfl

theorem nameless_parameters (t : SymbolTable) (i : ScopeId) : Nameless (t.parameters i) := by
  refine (nameless_scope t i).bind fun s => .mapM (fun x f => ?_) s.parameterNames
  unfold parameter
  rcases s.entries.get? x with _ | _ | _ | _ <;> rfl

theorem scope_rename (t : SymbolTable) (i : ScopeId) :
    (t.rename f).scope i = (t.scope i).map (Scope.rename f) := Arena.fetch_map ..

theorem entry?_rename (t : SymbolTable) (i : ScopeId) (x : String) :
    SymbolTable.entry? (t.rename f) i x = (t.entry? i x).map (Option.map (Entry.rename f)) := by
  unfold entry?
  rw [scope_rename]
  cases t.scope i with
  | error d => rfl
  | ok s => exact congrArg Except.ok (s.entries.get?_map (Entry.rename f) x)

theorem function?_rename (t : SymbolTable) (x : String) : (t.rename f).function? x = t.function? x := by
  unfold function?
  rw [entry?_rename]
  rcases t.entry? global x with _ | _ | _ | _ | _ <;> rfl

theorem parameter_rename (s : Scope) (x : String) :
    parameter (s.rename f) x = (parameter s x).map (Variable.rename f) := by
  have hget : (s.rename f).entries.get? x = (s.entries.get? x).map (Entry.rename f) := Dict.get?_map ..
  unfold parameter
  rw [hget]
  rcases s.entries.get? x with _ | _ | _ | _ <;> rfl

theorem parameters_rename (t : SymbolTable) (i : ScopeId) :
    (t.rename f).parameters i = (t.parameters i).map (List.map (Variable.rename f)) := by
  unfold parameters
  rw [scope_rename]
  cases t.scope i with
  | error d => rfl
  | ok s =>
    show s.parameterNames.mapM (parameter (s.rename f))
      = (s.parameterNames.mapM (parameter s)).map (List.map (Variable.rename f))
    induction s.parameterNames with
    | nil => rfl
    | cons x xs ih =>
      rw [List.mapM_cons, List.mapM_cons, parameter_rename, ih]
      cases parameter s x with
      | error d => rfl
      | ok v => cases xs.mapM (parameter s) <;> rfl

end SymbolTable

end Symbols

end Spillway
