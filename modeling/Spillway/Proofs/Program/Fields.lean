import Spillway.Proofs.Lowering.Calls
import Spillway.Proofs.Program.Structs

/-!
# How many fields structs have

The fields of a struct draw their registers one after the other when the struct is declared, and no field is added
later. As long as registers can be told apart by 32 bits, a struct therefore has less than 2³² fields:
`Draft.Built.fewFields`. The words that lowered code counts in structs are below that number,
`Program.FewFields.fits`.
-/

namespace Spillway

/-- The registers that were drawn since they were last numbered from zero can be told apart. -/
def Counters.Modest (c : Counters) : Prop := c.registers < capacity

instance (c : Counters) : Decidable c.Modest := inferInstanceAs (Decidable (c.registers < Counters.capacity))

/-! ### Structs keep their fields -/

/-- The scope of a struct is neither the global one nor that of a function, and it has few fields. -/
def Program.FewFields (p : Program) : Prop :=
  ∀ (x : String) (i : ScopeId), p.symbols.bound? SymbolTable.global x = some (.struct i) →
    i ≠ SymbolTable.global ∧ (∀ {k f}, p.functions.get? k = some f → f.scope ≠ i) ∧
    ∃ s, p.symbols.scopes.get? i = some s ∧ s.entries.size < Counters.capacity

/-- **Fields.** The structs of a built program have few fields if the registers that were drawn could always be
told apart. -/
theorem Draft.Built.fewFields {d : Draft} (h : d.Built fun c _ => c.Modest) (hd : d.counters.Modest) :
    d.program.FewFields := by
  refine Grown.induct
    (P := fun d => d.counters.Modest → d.program.Structs fun _ s => s.entries.size < Counters.capacity) h
    (fun c _ => ?_) (fun {d call d'} hbuilt ih hadds hrule hd => ?_) hd
  · intro x i hx
    cases hx
  have hstep := Built.inStep hbuilt
  cases hadds with
  | elsewhere c => exact ih hrule
  | addExpr node => exact ih hd
  | addStmt node => exact ih hd
  | declareGlobal hrun =>
    obtain ⟨s, t, hs, hsets, rfl⟩ := declareGlobal_ok hrun
    exact (ih (Nat.lt_of_succ_lt hd)).declareGlobal hs hsets
  | @declareStruct _ x fields _ _ hrun =>
    obtain ⟨s, hroot, -⟩ := hstep.root
    obtain ⟨t, hopens, rfl⟩ := declareStruct_ok hroot hrun
    have hfields : (({ name := x, parent := some SymbolTable.global } : Scope).bindAll d.counters.registers
        fields).entries.size = fields.length := by
      rw [Dict.size_eq, Scope.keys_bindAll _ (fun _ _ => rfl) hrule.2]
      exact List.length_map _
    replace hd : d.counters.registers + fields.length < Counters.capacity := hd
    refine (ih ?_).declareStruct hstep.wellScoped ?_ hopens fun _ _ _ hsize => hsize
    · exact Nat.lt_of_le_of_lt (Nat.le_add_right ..) hd
    · rw [hfields]
      exact Nat.lt_of_le_of_lt (Nat.le_add_left ..) hd
  | declareFunction hrun =>
    obtain ⟨s, hroot, -⟩ := hstep.root
    obtain ⟨t, hopens, rfl⟩ := declareFunction_ok hroot hrun
    exact (ih (Nat.lt_of_le_of_lt (Nat.le_add_right ..) hd)).declareFunction hopens
  | declareLocal hrun =>
    obtain ⟨f, s, t, fs, hf, hs, hsets, hfs, rfl⟩ := declareLocal_ok hrun
    exact ((ih (Nat.lt_of_succ_lt hd)).bind hstep.wellScoped hf hs hsets).update hfs fun _ => rfl
  | pushStatement hrun =>
    obtain ⟨fs, hfs, rfl⟩ := modifyFunction_ok hrun
    exact (ih hd).update hfs fun _ => rfl

/-! ### What lowered code counts -/

/-- The words that lowered code counts in the structs of a program. -/
theorem Program.FewFields.fits {p : Program} (h : p.FewFields) {fits : Nat → Prop}
    (hfits : ∀ k < Counters.capacity, fits k) (scope : ScopeId) : (p.env scope).Fits fits where
  field {ty ty' x k} hk := by
    obtain ⟨struct, e, rfl, hfield, -⟩ := Lowering.Env.field_ok hk
    obtain ⟨i, s, hstruct, hs, hplace, -⟩ := SymbolTable.field_ok hfield
    obtain ⟨-, -, s', hs', hsize⟩ := h struct i hstruct
    obtain rfl := Option.some.inj (hs.symm.trans hs')
    exact hfits k (Nat.lt_trans (Dict.lt_of_position? hplace) hsize)
  count {struct n} hn := by
    obtain ⟨i, s, hstruct, hs, rfl⟩ := SymbolTable.fieldCount_ok hn
    obtain ⟨-, -, s', hs', hsize⟩ := h struct i hstruct
    obtain rfl := Option.some.inj (hs.symm.trans hs')
    exact hfits _ hsize

end Spillway
