import Spillway.Proofs.Arm64.Discipline

/-!
# Scratch registers

Whatever the order in which arguments are passed and calls are ended, the registers in use are reserved, pass
arguments, or are scratch registers of the current instruction, of which there are at most three. The pool hands
out the lowest register that is free, so it never goes past the eighth register and those three.

* `Generator.Guarded` — what is known of the registers in use.
* `Frame.Tidy` — what is known of the registers that lines give a value.
-/

namespace Spillway.Arm64

/-! ### The registers in use -/

/-- The pool hands out a register that is free, and none that is higher than another free one. -/
theorem Pool.exists_acquire? {p : Pool} {k : PoolReg} (hk : p.isBusy k = false) :
    ∃ i ≤ k, p.acquire? = some (i, p.occupy i) ∧ p.isBusy i = false := by
  have hsome : (PoolReg.all.find? fun i => !p.isBusy i).isSome := by
    rw [List.find?_isSome]
    exact ⟨k, List.mem_finRange k, by rw [hk]; rfl⟩
  obtain ⟨i, hi⟩ := Option.isSome_iff_exists.1 hsome
  refine ⟨i, ?_, by rw [acquire?, hi]; rfl, by simpa using List.find?_some hi⟩
  obtain ⟨-, n, hn, hget, hbelow⟩ := List.find?_eq_some_iff_getElem.1 hi
  have hplace : i.val = n := by simp [← hget, PoolReg.all]
  refine Nat.le_of_not_lt fun hlt => ?_
  have hbusy := hbelow k.val (by omega)
  simp [PoolReg.all, hk] at hbusy

/-- The parameters keep their registers. Beside the reserved registers and those that pass arguments, only the
scratch registers of the current instruction are in use. -/
structure Generator.Guarded (g : Generator) (f : Frame) : Prop where
  parameters : ∀ i ∈ f.parameterRegs, g.pool.isBusy i.pool = true
  busy : ∀ k, g.pool.isBusy k = true →
    k.isReserved = true ∨ k.val < Limit.maxArguments ∨ k ∈ g.scratch
  held : ∀ k ∈ g.scratch, g.pool.isBusy k = true
  low : ∀ k ∈ g.scratch, k.val < Limit.maxArguments + g.scratch.length
  apart : ∀ k ∈ g.scratch, ∀ i ∈ f.parameterRegs, k ≠ i.pool
  nodup : g.scratch.Nodup
  few : g.scratch.length ≤ 3

namespace Generator.Guarded

variable {g : Generator} {f : Frame}

/-- The scratch registers are `x0` to `x10`. -/
theorem le_ten (h : g.Guarded f) {k : PoolReg} (hk : k ∈ g.scratch) : k.val ≤ 10 := by
  have hlow := h.low k hk
  have hfew := h.few
  rw [Limit.maxArguments] at hlow
  omega

/-- Where an instruction takes its first, second or third register, there is one, it is low, and it was not in
use. -/
theorem acquire (h : g.Guarded f) (hfew : g.scratch.length < 3) :
    ∃ i, g.pool.acquire? = some (i, g.pool.occupy i) ∧ i.reg.Low 11 ∧
      Guarded { g with pool := g.pool.occupy i, scratch := g.scratch ++ [i] } f := by
  have hlt : Limit.maxArguments + g.scratch.length < Pool.size := by
    rw [Limit.maxArguments, Pool.size]
    omega
  -- the register after those of the arguments and as many more as are held is free
  have hfree : g.pool.isBusy ⟨_, hlt⟩ = false := by
    rw [Bool.eq_false_iff]
    intro hbusy
    rcases h.busy _ hbusy with hreserved | harg | hmem
    · have hge : 16 ≤ Limit.maxArguments + g.scratch.length := by
        simp only [PoolReg.isReserved, Bool.and_eq_true] at hreserved
        exact of_decide_eq_true hreserved.1
      rw [Limit.maxArguments] at hge
      omega
    · exact absurd harg (by simp)
    · exact Nat.lt_irrefl _ (h.low _ hmem)
  obtain ⟨i, hle, hacquire, hi⟩ := Pool.exists_acquire? hfree
  have hval : i.val ≤ Limit.maxArguments + g.scratch.length := hle
  have hnot : ∀ {k : PoolReg}, g.pool.isBusy k = true → k ≠ i := by
    rintro k hk rfl
    rw [hi] at hk
    cases hk
  have hlen : (g.scratch ++ [i]).length = g.scratch.length + 1 := by simp
  refine ⟨i, hacquire, ⟨i.val, ?_, rfl⟩, ?_⟩
  · rw [Limit.maxArguments] at hval
    omega
  · refine ⟨fun j hj => ?_, fun k hk => ?_, fun k hk => ?_, fun k hk => ?_, fun k hk j hj => ?_, ?_, ?_⟩
    · simp [h.parameters j hj]
    · rw [Pool.isBusy_occupy, Bool.or_eq_true, decide_eq_true_eq] at hk
      rcases hk with rfl | hk
      · exact .inr (.inr (by simp))
      · exact (h.busy k hk).imp_right (Or.imp_right (List.mem_append_left _))
    · rcases List.mem_append.1 hk with hk | hk
      · simp [h.held k hk]
      · simp [List.mem_singleton.1 hk]
    · show k.val < Limit.maxArguments + (g.scratch ++ [i]).length
      rw [hlen]
      rcases List.mem_append.1 hk with hk | hk
      · have hlow := h.low k hk
        omega
      · rw [List.mem_singleton.1 hk]
        omega
    · rcases List.mem_append.1 hk with hk | hk
      · exact h.apart k hk j hj
      · rw [List.mem_singleton.1 hk]
        exact (hnot (h.parameters j hj)).symm
    · refine List.nodup_append.2 ⟨h.nodup, List.nodup_singleton i, fun k hk j hj => ?_⟩
      rw [List.mem_singleton.1 hj]
      exact hnot (h.held k hk)
    · show (g.scratch ++ [i]).length ≤ 3
      omega

/-- The scratch registers are given back. -/
theorem release (h : g.Guarded f) :
    Guarded { g with pool := g.scratch.foldl Pool.release g.pool, scratch := [] } f where
  parameters i hi := by
    have hnot : i.pool ∉ g.scratch := fun hmem => h.apart _ hmem i hi rfl
    simp [Pool.isBusy_foldl_release, h.parameters i hi, hnot]
  busy k hk := by
    simp only [Pool.isBusy_foldl_release, Bool.and_eq_true, Bool.or_eq_true] at hk
    obtain ⟨hbusy, hreserved | hnot⟩ := hk
    · exact .inl hreserved
    · have hfree : k ∉ g.scratch := by simpa using hnot
      exact (h.busy k hbusy).imp_right fun hk => .inl (hk.resolve_right hfree)
  held := nofun
  low := nofun
  apart := nofun
  nodup := List.nodup_nil
  few := Nat.zero_le _

/-- An argument is passed. -/
theorem occupy (h : g.Guarded f) (i : Argument) : Guarded { g with pool := g.pool.occupy i.pool } f where
  parameters j hj := by simp [h.parameters j hj]
  busy k hk := by
    rw [Pool.isBusy_occupy, Bool.or_eq_true, decide_eq_true_eq] at hk
    rcases hk with rfl | hk
    · exact .inr (.inl i.isLt)
    · exact h.busy k hk
  held k hk := by simp [h.held k hk]
  low := h.low
  apart := h.apart
  nodup := h.nodup
  few := h.few

/-- Registers of arguments that are no parameters are given back between instructions. -/
theorem releaseArguments (h : g.Guarded f) (hscratch : g.scratch = []) (count : Nat) :
    Guarded { g with
      pool := (((Argument.all.take count).drop f.parameterRegs.length).map Argument.pool).foldl
        Pool.release g.pool } f where
  parameters i hi := by
    have hnot : i.pool ∉ ((Argument.all.take count).drop f.parameterRegs.length).map Argument.pool := by
      intro hmem
      obtain ⟨j, hj, hji⟩ := List.mem_map.1 hmem
      have hval : j.val = i.val := congrArg (fun k : PoolReg => k.val) hji
      have hge := (Context.mem_drop_take.1 hj).1
      have hlt : i.val < f.parameters.length := Frame.mem_parameterRegs.1 hi
      have hbound := i.isLt
      rw [Frame.parameterRegs, List.length_take, Argument.all, List.length_finRange] at hge
      omega
    rw [Pool.isBusy_foldl_release, h.parameters i hi, List.contains_eq_mem, decide_eq_false hnot]
    simp
  busy k hk := by
    rw [Pool.isBusy_foldl_release, Bool.and_eq_true] at hk
    exact h.busy k hk.1
  held := by
    rw [hscratch]
    exact List.forall_mem_nil _
  low := h.low
  apart := h.apart
  nodup := h.nodup
  few := h.few

/-- Where a function begins. -/
theorem enter (hscratch : g.scratch = []) (f : Frame) : (g.enter f).Guarded f where
  parameters i hi := by
    have hmem : i.pool ∈ f.parameterRegs.map Argument.pool := List.mem_map_of_mem hi
    simp [Generator.enter, Pool.isBusy_foldl_occupy, hmem]
  busy k hk := by
    rw [Generator.enter, Pool.isBusy_foldl_occupy, Pool.isBusy_fresh, Bool.or_eq_true,
      List.contains_iff_mem] at hk
    rcases hk with hreserved | hmem
    · exact .inl hreserved
    · obtain ⟨i, -, rfl⟩ := List.mem_map.1 hmem
      exact .inr (.inl i.isLt)
  held := by simp [Generator.enter, hscratch]
  low := by simp [Generator.enter, hscratch]
  apart := by simp [Generator.enter, hscratch]
  nodup := by simp [Generator.enter, hscratch]
  few := by simp [Generator.enter, hscratch]

end Generator.Guarded

/-! ### The registers that lines give a value -/

/-- The stack pointer, the two registers that the prologue saves, and `x0` to `x10`. -/
def Reg.Working (r : Reg) : Prop := r = .sp ∨ r = .fp ∨ r = .lr ∨ r.Low 11

theorem Reg.Low.working {r : Reg} (h : r.Low 11) : r.Working := .inr (.inr (.inr h))

theorem Argument.low_reg (i : Argument) : i.reg.Low 11 :=
  ⟨i.val, Nat.lt_of_lt_of_le i.isLt (by decide), rfl⟩

/-- Lines that give values to working registers, and to the register of far addresses only where the next line
accesses the far slot whose address it was given. -/
inductive Frame.Tidy (f : Frame) : List Line → Prop
  | nil : Tidy f []
  | label {s : Symbol} {w : List Line} : Tidy f w → Tidy f (.label s :: w)
  | directive {d : Directive} {w : List Line} : Tidy f w → Tidy f (.directive d :: w)
  | instr {i : Instr} {w : List Line} :
      (∀ r ∈ i.destinations, r.Working) → Tidy f w → Tidy f (.instr i :: w)
  | loadFar {k : Nat} {d : Reg} {w : List Line} :
      k < f.slots.length → slotOffset k < minDirectOffset → d.Working → Tidy f w →
      Tidy f (.instr (.subImm .far .fp (slotDepth k)) :: .instr (.load d (.direct .far)) :: w)
  | storeFar {k : Nat} {s : Reg} {w : List Line} :
      k < f.slots.length → slotOffset k < minDirectOffset → Tidy f w →
      Tidy f (.instr (.subImm .far .fp (slotDepth k)) :: .instr (.store s (.direct .far)) :: w)

namespace Frame.Tidy

variable {f : Frame} {w w' : List Line} {is : List Instr} {k : Nat}

theorem append (h : f.Tidy w) (h' : f.Tidy w') : f.Tidy (w ++ w') := by
  induction h with
  | nil => exact h'
  | label _ ih => exact .label ih
  | directive _ ih => exact .directive ih
  | instr hi _ ih => exact .instr hi ih
  | loadFar hk hfar hd _ ih => exact .loadFar hk hfar hd ih
  | storeFar hk hfar _ ih => exact .storeFar hk hfar ih

theorem instrs (h : ∀ i ∈ is, ∀ r ∈ i.destinations, r.Working) : f.Tidy (is.map .instr) := by
  induction is with
  | nil => exact .nil
  | cons i is ih =>
    obtain ⟨hi, his⟩ := List.forall_mem_cons.1 h
    exact .instr hi (ih his)

theorem slotLoad (hk : k < f.slots.length) {d : Reg} (hd : d.Working) :
    f.Tidy ((slotAccess (.load d) k).map .instr) := by
  rw [slotAccess]
  split
  · exact .instr (by simp [Instr.destinations, hd]) .nil
  · next hfar => exact .loadFar hk (Int.not_le.1 hfar) hd .nil

theorem slotStore (hk : k < f.slots.length) (s : Reg) : f.Tidy ((slotAccess (.store s) k).map .instr) := by
  rw [slotAccess]
  split
  · exact .instr (List.forall_mem_nil _) .nil
  · next hfar => exact .storeFar hk (Int.not_le.1 hfar) .nil

end Frame.Tidy

/-- The instruction forms the address of a far slot, and the line after it accesses the slot. -/
def Frame.FarAccess (f : Frame) (i : Instr) (after : List Line) : Prop :=
  ∃ k < f.slots.length, slotOffset k < minDirectOffset ∧ i = .subImm .far .fp (slotDepth k) ∧
    ∃ r rest, after = .instr (.load r (.direct .far)) :: rest ∨ after = .instr (.store r (.direct .far)) :: rest

/-- Where a line of tidy code gives a register a value. -/
theorem Frame.Tidy.destination {f : Frame} {w : List Line} (h : f.Tidy w) {before after : List Line} {i : Instr}
    (hw : w = before ++ .instr i :: after) {r : Reg} (hr : r ∈ i.destinations) :
    r.Working ∨ r = .far ∧ f.FarAccess i after := by
  induction h generalizing before with
  | nil => simp at hw
  | label _ ih | directive _ ih =>
    cases before with
    | nil => cases hw
    | cons line before => exact ih (List.cons.inj hw).2
  | instr hi _ ih =>
    cases before with
    | nil =>
      cases hw
      exact .inl (hi r hr)
    | cons line before => exact ih (List.cons.inj hw).2
  | @loadFar k d w hk hfar hd _ ih =>
    rcases before with _ | ⟨_, _ | ⟨_, before⟩⟩
    · cases hw
      exact .inr ⟨List.mem_singleton.1 hr, k, hk, hfar, rfl, d, w, .inl rfl⟩
    · cases hw
      exact .inl (List.mem_singleton.1 hr ▸ hd)
    · exact ih (List.cons.inj (List.cons.inj hw).2).2
  | @storeFar k s w hk hfar _ ih =>
    rcases before with _ | ⟨_, _ | ⟨_, before⟩⟩
    · cases hw
      exact .inr ⟨List.mem_singleton.1 hr, k, hk, hfar, rfl, s, w, .inr rfl⟩
    · cases hw
      cases hr
    · exact ih (List.cons.inj (List.cons.inj hw).2).2

/-- What an instruction gives no value keeps the one it has. -/
theorem Instr.effect_regs (place : Symbol → Word) (m : Machine) {i : Instr} {r : Reg} (hr : r ∉ i.destinations) :
    (i.effect place m).1.regs r = m.regs r := by
  cases i with
  | loadPair d e source =>
    obtain ⟨hd, he⟩ : r ≠ d ∧ r ≠ e := by simpa [destinations] using hr
    simp [effect, Machine.set, hd, he]
  | mov d | movImm d | movz d | movk d | alu _ d | eorImm d | addImm d | subImm d | load d | page d | addPageOffset d =>
    have hd : r ≠ d := by simpa [destinations] using hr
    simp [effect, Machine.set, hd]
  | _ => rfl

end Spillway.Arm64
