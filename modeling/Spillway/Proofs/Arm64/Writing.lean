import Spillway.Arm64.Assembly
import Spillway.Proofs.Arm64.Stack
import Spillway.Proofs.Lowering.Calls

/-!
# Writing the code of an instruction

However the writing of an instruction's code ends, something is known: what has been written is straight code
in the sense of `Frame.Straight`, the scratch registers that are in use follow those that were in use before,
and a failure has one of a few causes. `Context.Confined` says this of a computation, and it is put
together along the computation.

* `Generator.Uses` — the registers in use, and those among them that are scratch registers.
* `Context.Confined` — how the writing of straight code ends.
-/

namespace Spillway.Arm64

/-! ### Scratch registers -/

theorem Pool.isBusy_foldl_release (p : Pool) (is : List PoolReg) (k : PoolReg) :
    (is.foldl Pool.release p).isBusy k = (p.isBusy k && (k.isReserved || !is.contains k)) := by
  induction is generalizing p with
  | nil => simp
  | cons i is ih =>
    rw [List.foldl_cons, ih, isBusy_release]
    by_cases hk : k = i
    · subst hk
      cases hr : k.isReserved <;> simp
    · simp [hk]

/-- Giving back registers that are in use, those from `base` on. -/
theorem Pool.Filled.release {p : Pool} {base n : Nat} (h : p.Filled n) {is : List PoolReg}
    (his : ∀ k : PoolReg, k ∈ is ↔ base ≤ k.val ∧ k.val < n) (hle : base ≤ n) :
    (is.foldl Pool.release p).Filled base := by
  intro k
  rw [isBusy_foldl_release, h k]
  cases k.isReserved with
  | true => simp
  | false =>
    simp only [Bool.false_or, List.contains_eq_mem, his k]
    by_cases hk : k.val < base
    · have hn : k.val < n := Nat.lt_of_lt_of_le hk hle
      simp [hk, hn]
    · simp [hk]
      omega

/-- Taking the first register that is not in use, or one that is. -/
theorem Pool.Filled.occupy {p : Pool} {n : Nat} (h : p.Filled n) {i : PoolReg} (hi : i.val ≤ n) :
    (p.occupy i).Filled (max n (i.val + 1)) := by
  intro k
  rw [isBusy_occupy, h k]
  cases k.isReserved with
  | true => simp
  | false =>
    simp only [Bool.false_or]
    by_cases hk : k = i
    · subst hk
      have hlt : k.val < max n (k.val + 1) := by omega
      simp [hlt]
    · have hval : k.val ≠ i.val := fun e => hk (Fin.ext e)
      have hiff : k.val < max n (i.val + 1) ↔ k.val < n := by omega
      simp [hk, hiff]

namespace Generator

/-- The registers below `n` and the reserved ones are in use. Those from `base` on are scratch registers of
the current instruction. -/
structure Uses (g : Generator) (base n : Nat) : Prop where
  pool : g.pool.Filled n
  scratch : g.scratch.map Fin.val = List.range' base (n - base)
  le : base ≤ n

/-- Without scratch registers. -/
theorem uses_self {g : Generator} {n : Nat} (hpool : g.pool.Filled n) (hscratch : g.scratch = []) :
    g.Uses n n where
  pool := hpool
  scratch := by rw [hscratch, Nat.sub_self]; rfl
  le := Nat.le_refl n

theorem Uses.scratch_eq_nil {g : Generator} {n : Nat} (h : g.Uses n n) : g.scratch = [] := by
  have hscratch := h.scratch
  rw [Nat.sub_self] at hscratch
  exact List.map_eq_nil_iff.1 hscratch

theorem Uses.release {g : Generator} {base n : Nat} (h : g.Uses base n) :
    (g.scratch.foldl Pool.release g.pool).Filled base := by
  refine h.pool.release (fun k => ?_) h.le
  have hmem : k ∈ g.scratch ↔ k.val ∈ g.scratch.map Fin.val := by
    rw [List.mem_map]
    constructor
    · intro hk
      exact ⟨k, hk, rfl⟩
    · rintro ⟨j, hj, hjk⟩
      rwa [← Fin.ext hjk]
  have hle := h.le
  rw [hmem, h.scratch, List.mem_range'_1]
  omega

/-- The generator later in the same instruction: of the registers from `base` on at most those below `n` are in
use. -/
structure Continues (g g' : Generator) (base n : Nat) : Prop where
  saved : g'.saved = g.saved
  skips : g'.skips = g.skips
  uses : ∃ n' ≤ n, g'.Uses base n'

theorem Uses.continues {g : Generator} {base n j : Nat} (h : g.Uses base n) : g.Continues g base (n + j) :=
  ⟨rfl, rfl, n, Nat.le_add_right n j, h⟩

end Generator

theorem Reg.ordinary_x {n : Nat} (h : n < 16) : (Reg.x n).Ordinary := by
  simp only [Reg.Ordinary, Reg.fp, Reg.far, ne_eq, Reg.x.injEq, reduceCtorEq, not_false_eq_true, true_and]
  omega

theorem Reg.ordinary_result : Reg.result.Ordinary := ordinary_x (by decide)

/-! ### Computations that write straight code -/

namespace Context

/-- The computation writes straight code while `area` bytes are reserved, and takes at most `j` scratch
registers. A value it gives and a failure it ends in are as required. -/
def Confined {α : Type} (ctx : Context) (E : Failure → Prop) (saved : Bool) (area j : Nat) (m : Emit α)
    (Q : α → Prop) : Prop :=
  ∀ ⦃g : Generator⦄ ⦃base n : Nat⦄, g.Uses base n → n + j ≤ 16 → g.saved = saved →
    m.Ends g (fun a g' w => Q a ∧ ctx.frame.Straight area w area ∧ g.Continues g' base (n + j)) E

variable {ctx : Context} {E : Failure → Prop} {saved : Bool} {area j j' : Nat} {α β : Type}
  {m : Emit α} {f : α → Emit β} {Q : α → Prop} {R : β → Prop} {r : VReg}

namespace Confined

theorem pure {a : α} (h : Q a) : ctx.Confined E saved area j (pure a) Q := by
  intro g base n hg _ _
  exact Journal.Yields.ends ⟨a, g, [], rfl, h, .nil, hg.continues⟩

theorem bind (h : ctx.Confined E saved area j m Q)
    (hf : ∀ a, Q a → ctx.Confined E saved area j' (f a) R) :
    ctx.Confined E saved area (j' + j) (m >>= f) R := by
  intro g base n hg hn hsaved
  refine (h hg (by omega) hsaved).bind fun a g₁ w₁ ⟨hQ, hw₁, hcont₁⟩ => ?_
  obtain ⟨n₁, hle, hg₁⟩ := hcont₁.uses
  refine (hf a hQ hg₁ (by omega) (hcont₁.saved.trans hsaved)).mono
    (fun b g₂ w₂ ⟨hR, hw₂, hcont₂⟩ => ⟨hR, hw₁.append hw₂, ?_⟩) fun _ he => he
  obtain ⟨n₂, hle₂, hg₂⟩ := hcont₂.uses
  exact ⟨hcont₂.saved.trans hcont₁.saved, hcont₂.skips.trans hcont₁.skips, n₂, by omega, hg₂⟩

theorem mono (h : ctx.Confined E saved area j m Q) (hj : j ≤ j') : ctx.Confined E saved area j' m Q := by
  intro g base n hg hn hsaved
  refine (h hg (by omega) hsaved).mono (fun a g' w ⟨hQ, hw, hcont⟩ => ⟨hQ, hw, ?_⟩) fun _ he => he
  obtain ⟨n', hle, hg'⟩ := hcont.uses
  exact ⟨hcont.saved, hcont.skips, n', by omega, hg'⟩

/-- The computation looks whether the parameters are saved. -/
theorem get_bind {f : Generator → Emit β} (h : ∀ g, g.saved = saved → ctx.Confined E saved area j (f g) R) :
    ctx.Confined E saved area j (get >>= f) R :=
  fun g _ _ hg hn hsaved => h g hsaved hg hn hsaved

end Confined

/-- Where the register has no home, that is a failure of the given kind. -/
def Homed (ctx : Context) (E : Failure → Prop) (r : VReg) : Prop :=
  ctx.frame.location? r = none → E (.fault (.defect (.unlocated r)))

/-- The computation looks where a virtual register lives. -/
theorem Confined.locate_bind {k : Location → Emit β} (hr : ctx.Homed E r)
    (h : ∀ l, ctx.frame.location? r = some l → ctx.Confined E saved area j (k l) R) :
    ctx.Confined E saved area j ((liftM (ctx.frame.locate r) : Emit Location) >>= k) R := by
  intro g base n hg hn hsaved
  cases hl : ctx.frame.location? r with
  | some l =>
    rw [Context.locate_bind hl]
    exact h l hl hg hn hsaved
  | none =>
    have hfail : ((liftM (ctx.frame.locate r) : Emit Location) >>= k)
        = Journal.fail (.fault (.defect (.unlocated r))) := by
      rw [Frame.locate, hl]
      rfl
    rw [hfail]
    exact .fail (hr hl)

/-- Where the displacement of a word does not fit, that is a failure of the given kind. -/
def Reached (E : Failure → Prop) (index : Nat) : Prop :=
  ∀ t, Word.displacement index = .error t → E (.fault (.trap t))

theorem confined_displacement {index : Nat} (h : Reached E index) :
    ctx.Confined E saved area 0 (displacement index) fun _ => True := by
  intro g base n hg hn hsaved
  rw [displacement]
  cases hd : Word.displacement index with
  | ok v => exact Journal.Yields.ends ⟨v, g, [], rfl, trivial, .nil, hg.continues⟩
  | error t => exact .fail (h t hd)

theorem confined_emitAll {is : List Instr} (h : ctx.frame.Straight area (is.map .instr) area) :
    ctx.Confined E saved area 0 (emitAll is) fun _ => True := by
  intro g base n hg _ _
  exact Journal.Yields.ends ⟨(), g, _, rfl, trivial, h, hg.continues⟩

theorem confined_emit {i : Instr} (h : ctx.frame.Straight area [.instr i] area) :
    ctx.Confined E saved area 0 (emit i) fun _ => True := by
  intro g base n hg _ _
  exact Journal.Yields.ends ⟨(), g, _, rfl, trivial, h, hg.continues⟩

theorem confined_acquire : ctx.Confined E saved area 1 acquire Reg.Ordinary := by
  intro g base n hg hn _
  have hlt : n < 16 := by omega
  obtain ⟨i, q, hacquire, hreg, hfilled⟩ := hg.pool.acquire? hlt
  have hrun : acquire.run g = ⟨.ok i.reg, { g with pool := q, scratch := g.scratch ++ [i] }, []⟩ := by
    rw [acquire, Journal.bind_run, Journal.get_run, Journal.andThen_ok, hacquire]
    rfl
  refine Journal.Yields.ends ⟨_, _, _, hrun, ?_, .nil, rfl, rfl, n + 1, Nat.le_refl _, hfilled, ?_, ?_⟩
  · rw [hreg]
    exact Reg.ordinary_x hlt
  · have hval : i.val = n := Reg.x.inj hreg
    have hle := hg.le
    have hsplit : n + 1 - base = (n - base) + 1 := by omega
    have hlast : base + (n - base) = n := by omega
    rw [List.map_append, hg.scratch, hsplit, List.range'_1_concat, hlast]
    simp [hval]
  · exact Nat.le_succ_of_le hg.le

/-! ### Values and addresses -/

theorem confined_load (hr : ctx.Homed E r) : ctx.Confined E saved area 1 (ctx.load r) Reg.Ordinary := by
  refine .locate_bind hr fun l hl => ?_
  cases l with
  | parameter i => exact .pure i.ordinary_reg
  | slot k =>
    exact confined_acquire.bind fun d hd =>
      (confined_emitAll (.slotLoad (Frame.lt_of_slot hl) hd)).bind fun _ _ => .pure hd

theorem confined_loadOperand {operand : Linear.Operand} (hr : ∀ r ∈ operand.registers, ctx.Homed E r) :
    ctx.Confined E saved area 1 (ctx.loadOperand operand) Reg.Ordinary := by
  cases operand with
  | reg r => exact confined_load (hr r (List.mem_singleton_self r))
  | imm value =>
    exact confined_acquire.bind fun d hd =>
      (confined_emitAll (.constant hd value)).bind fun _ _ => .pure hd

theorem confined_memory {address : Linear.Address} (hr : ∀ r ∈ address.registers, ctx.Homed E r) :
    ctx.Confined E saved area 2 (ctx.memory address) fun m => ∀ r ∈ m.registers, r.Ordinary := by
  cases address with
  | indexed base offset =>
    refine (confined_load (hr base (by simp [Linear.Address.registers]))).bind fun b hb => ?_
    refine (confined_load (hr offset (by simp [Linear.Address.registers]))).bind fun o ho => .pure ?_
    simp [Mem.registers, hb, ho]
  | displaced base offset =>
    refine (confined_load (hr base (by simp [Linear.Address.registers]))).bind fun b hb => .pure ?_
    simp [Mem.registers, hb]
  | direct base =>
    refine (confined_load (hr base (by simp [Linear.Address.registers]))).bind fun b hb => .pure ?_
    simp [Mem.registers, hb]
  | global name =>
    refine confined_acquire.bind fun d hd => ?_
    refine (confined_emitAll (.address hd (.name name))).bind fun _ _ => .pure ?_
    simp [Mem.registers, hd]

theorem confined_destination : ctx.Confined E saved area 1 (ctx.destination r) Reg.Ordinary := by
  rw [destination]
  split
  · next i _ =>
    refine .get_bind fun g hg => ?_
    split
    · exact confined_acquire
    · exact .pure i.ordinary_reg
  · exact confined_acquire

theorem confined_loadInto (hr : ctx.Homed E r) (hroom : saved = true → ctx.frame.Room area) {d : Reg}
    (hd : d.Ordinary) : ctx.Confined E saved area 0 (ctx.loadInto r d) fun _ => True := by
  refine .locate_bind hr fun l hl => ?_
  cases l with
  | slot k => exact confined_emitAll (.slotLoad (Frame.lt_of_slot hl) hd)
  | parameter i =>
    refine .get_bind fun g hg => ?_
    split
    · next hsaved =>
      exact confined_emit (.single (.loadSaved ((hroom (hg ▸ hsaved)).saved_le (Frame.within_of_location? hl)) hd) rfl)
    · split
      · exact confined_emit (.plain (by simp [Instr.Plain, Instr.registers, hd, i.ordinary_reg]))
      · exact .pure trivial

theorem confined_store (hr : ctx.Homed E r) (hroom : saved = true → ctx.frame.Room area) {s : Reg}
    (hs : s.Ordinary) : ctx.Confined E saved area 0 (ctx.store r s) fun _ => True := by
  refine .locate_bind hr fun l hl => ?_
  cases l with
  | slot k => exact confined_emitAll (.slotStore (Frame.lt_of_slot hl) hs)
  | parameter i =>
    refine .get_bind fun g hg => ?_
    split
    · next hsaved =>
      exact confined_emit (.single (.storeSaved ((hroom (hg ▸ hsaved)).saved_le (Frame.within_of_location? hl)) hs) rfl)
    · split
      · exact confined_emit (.plain (by simp [Instr.Plain, Instr.registers, hs, i.ordinary_reg]))
      · exact .pure trivial

theorem confined_homeAddress (hr : ctx.Homed E r) (hroom : ctx.frame.Room area) {d : Reg} (hd : d.Ordinary) :
    ctx.Confined E saved area 0 (ctx.homeAddress r d) fun _ => True := by
  refine .locate_bind hr fun l hl => ?_
  cases l with
  | slot k => exact confined_emit (.single (.slotAddress (Frame.lt_of_slot hl) hd) rfl)
  | parameter i => exact confined_emit (.single (.savedAddress (hroom.saved_le (Frame.within_of_location? hl)) hd) rfl)

theorem confined_formatAddress (f : Format) {d : Reg} (hd : d.Ordinary) :
    ctx.Confined E saved area 0 (formatAddress f d) fun _ => True := by
  intro g base n hg _ _
  refine Journal.Yields.ends ⟨(), _, _, rfl, trivial, .address hd (.format f), ?_⟩
  exact ⟨rfl, rfl, n, Nat.le_refl n, hg.pool, hg.scratch, hg.le⟩

/-! ### Around a call -/

/-- While the parameters are saved. -/
def parked (ctx : Context) : Bool := !ctx.frame.parameterRegs.isEmpty

/-- Saving the parameters reserves an area, and nothing else changes. -/
theorem saveParameters_ends (hf : ctx.frame.Bounded) {words : Nat} (hwords : words ≤ Limit.maxArguments)
    {g : Generator} (hg : g.saved = false) :
    (ctx.saveParameters words).Ends g (fun area g' w =>
      area = Word.areaBytes (max words ctx.frame.parameterRegs.length) ∧
        g' = { g with saved := ctx.parked } ∧ ctx.frame.Straight 0 w area) E := by
  have hroom := Frame.room_areaBytes hf hwords
  rw [saveParameters]
  split
  · next hzero =>
    rw [hzero] at hroom ⊢
    have hparked : ctx.parked = false := by
      rw [parked, Frame.parameterRegs, hroom.parameters_eq_zero]
      rfl
    refine Journal.Yields.ends ⟨0, g, [], rfl, rfl, ?_, .nil⟩
    rw [hparked, ← hg]
  · refine Journal.Yields.ends ⟨_, { g with saved := ctx.parked }, _, rfl, rfl, rfl, ?_⟩
    refine (Frame.Straight.single (.reserve ?_ ?_) rfl).append ((Frame.Straight.save ?_).append .nil)
    · exact Nat.dvd_mul_left ..
    · have harguments := hroom.arguments
      rw [Word.bytes, Limit.maxArguments] at harguments
      omega
    · intro i hi
      exact hroom.saved_le (Frame.mem_parameterRegs.1 hi)

/-- Restoring the parameters gives the area back, and nothing else changes. -/
theorem restoreParameters_ends (hroom : ctx.frame.Room area) {g : Generator} (hg : g.saved = ctx.parked) :
    (ctx.restoreParameters area).Ends g (fun _ g' w =>
      g' = { g with saved := false } ∧ ctx.frame.Straight area w 0) E := by
  rw [restoreParameters]
  split
  · refine Journal.Yields.ends ⟨(), { g with saved := false }, _, rfl, rfl, ?_⟩
    refine (Frame.Straight.restore ?_).append ((Frame.Straight.single .release rfl).append .nil)
    intro i hi
    exact hroom.saved_le (Frame.mem_parameterRegs.1 hi)
  · next hzero =>
    obtain rfl : area = 0 := not_not.1 hzero
    have hparked : ctx.parked = false := by
      rw [parked, Frame.parameterRegs, hroom.parameters_eq_zero]
      rfl
    refine Journal.Yields.ends ⟨(), g, [], rfl, ?_, .nil⟩
    rw [← hparked, ← hg]

/-- **Library routines.** The parameters are saved, something straight is written and called, and the parameters
are restored. -/
theorem confined_callRoutine (hf : ctx.frame.Bounded) {routine : String} {arguments results : Emit Unit}
    (harguments : ∀ {area}, ctx.frame.Room area → ctx.Confined E ctx.parked area 0 arguments fun _ => True)
    (hresults : ∀ {area}, ctx.frame.Room area → ctx.Confined E ctx.parked area 0 results fun _ => True) :
    ctx.Confined E false 0 0 (ctx.callRoutine routine arguments results) fun _ => True := by
  intro g base n hg hn hsaved
  refine (saveParameters_ends hf (Nat.zero_le _) hsaved).bind fun area g₁ w₁ ⟨harea, hg₁, hw₁⟩ => ?_
  have hroom : ctx.frame.Room area := harea ▸ Frame.room_areaBytes hf (Nat.zero_le _)
  have hcall : ctx.Confined E ctx.parked area 0 (do
      arguments
      emit (.call (.name routine))
      results) fun _ => True :=
    (harguments hroom).bind fun _ _ => (confined_emit (.single .call rfl)).bind fun _ _ => hresults hroom
  have huses : g₁.Uses base n := hg₁ ▸ ⟨hg.pool, hg.scratch, hg.le⟩
  have hassoc : (do
      arguments
      emit (.call (.name routine))
      results
      ctx.restoreParameters area : Emit Unit) = ((do
      arguments
      emit (.call (.name routine))
      results : Emit Unit) >>= fun _ => ctx.restoreParameters area) := by
    simp only [bind_assoc]
  rw [hassoc]
  refine (hcall huses hn (by rw [hg₁])).bind fun _ g₂ w₂ ⟨_, hw₂, hcont⟩ => ?_
  refine (restoreParameters_ends hroom (hcont.saved.trans (by rw [hg₁]))).mono
    (fun _ g₃ w₃ ⟨hg₃, hw₃⟩ => ⟨trivial, hw₁.append (hw₂.append hw₃), ?_⟩) fun _ he => he
  obtain ⟨n', hle, hg₂⟩ := hcont.uses
  rw [hg₃]
  exact ⟨hsaved.symm, hcont.skips.trans (by rw [hg₁]), n', hle, hg₂.pool, hg₂.scratch, hg₂.le⟩

/-! ### Straight instructions -/

/-- Whether control passes through an instruction whose code stands for itself. -/
def isStraight : Linear.Instr → Bool
  | .branch .. | .label _ | .mov _ _ (.on _) | .ret _ | .push .. | .call _ | .result _ | .pop .. => false
  | _ => true

theorem confined_compare {left : VReg} {right : Linear.Operand} (hleft : ctx.Homed E left)
    (hright : ∀ r ∈ right.registers, ctx.Homed E r) :
    ctx.Confined E saved area 2 (ctx.compare left right) fun _ => True := by
  refine (confined_load hleft).bind fun a ha => ?_
  have hcmp : ctx.Confined E saved area 1 (do emit (.cmp a (← ctx.loadOperand right))) fun _ => True :=
    (confined_loadOperand hright).bind fun b hb => confined_emit (.plain (Instr.plain_pair rfl ha hb))
  cases right with
  | reg r => exact hcmp
  | imm value =>
    show ctx.Confined E saved area 1 (if _ then _ else _) _
    split
    · exact (confined_emit (.plain (by simp [Instr.Plain, Instr.registers, ha]))).mono (Nat.zero_le _)
    · exact hcmp

theorem confined_move {target : VReg} {source : Linear.Operand} (htarget : ctx.Homed E target)
    (hroom : saved = true → ctx.frame.Room area) (hsource : ∀ r ∈ source.registers, ctx.Homed E r) :
    ctx.Confined E saved area 2 (ctx.move target source .always) fun _ => True := by
  refine confined_destination.bind fun d hd => ?_
  cases source with
  | reg r =>
    refine (confined_load (hsource r (List.mem_singleton_self r))).bind fun a ha => ?_
    exact (confined_emit (.plain (Instr.plain_pair rfl hd ha))).bind fun _ _ => confined_store htarget hroom hd
  | imm value =>
    refine (confined_emitAll (.constant hd value)).bind fun _ _ => ?_
    exact (confined_store htarget hroom hd).mono (Nat.zero_le _)

theorem confined_print (hf : ctx.frame.Bounded) {source : VReg} (hsource : ctx.Homed E source) (f : Format) :
    ctx.Confined E false 0 0 (ctx.print source f) fun _ => True :=
  confined_callRoutine hf
    (fun hroom => (confined_loadInto hsource (fun _ => hroom) (by decide)).bind fun _ _ =>
      confined_formatAddress f Reg.ordinary_result)
    fun _ => .pure trivial

/-- **Straight instructions.** The code of an instruction that control passes through. -/
theorem confined_instr (hf : ctx.frame.Bounded) {i : Linear.Instr} (hi : isStraight i = true)
    (hsources : ∀ r ∈ i.sources, ctx.Homed E r) (htarget : ∀ r, i.target? = some r → ctx.Homed E r)
    (hword : ∀ k, i.word? = some k → Reached E k) :
    ctx.Confined E false 0 3 (ctx.instr i) fun _ => True := by
  have hnever : ∀ {area}, false = true → ctx.frame.Room area := nofun
  cases i with
  | binary op target left right =>
    refine (confined_load (hsources left (List.mem_cons_self ..))).bind fun a ha => ?_
    refine (confined_loadOperand fun r hr => hsources r (List.mem_cons_of_mem _ hr)).bind fun b hb => ?_
    refine confined_destination.bind fun d hd => ?_
    refine (confined_emit (.plain ?_)).bind fun _ _ => confined_store (htarget target rfl) hnever hd
    simp [Instr.Plain, Instr.registers, ha, hb, hd]
  | not target operand =>
    refine (confined_load (hsources operand (List.mem_cons_self ..))).bind fun a ha => ?_
    refine confined_destination.bind fun d hd => ?_
    refine (confined_emit (.plain (Instr.plain_pair rfl hd ha))).bind fun _ _ => ?_
    exact (confined_store (htarget target rfl) hnever hd).mono (Nat.zero_le _)
  | cmp left right =>
    refine (confined_compare (hsources left (List.mem_cons_self ..)) fun r hr => ?_).mono (by decide)
    exact hsources r (List.mem_cons_of_mem _ hr)
  | load target address =>
    refine (confined_memory hsources).bind fun m hm => ?_
    refine confined_destination.bind fun d hd => ?_
    refine (confined_emit (.plain (Instr.plain_access rfl hd hm))).bind fun _ _ => ?_
    exact confined_store (htarget target rfl) hnever hd
  | store value address =>
    refine (confined_load (hsources value (List.mem_cons_self ..))).bind fun s hs => ?_
    refine (confined_memory fun r hr => hsources r (List.mem_cons_of_mem _ hr)).bind fun m hm => ?_
    exact confined_emit (.plain (Instr.plain_access rfl hs hm))
  | loadField target base field index =>
    refine (confined_load (hsources base (List.mem_cons_self ..))).bind fun b hb => ?_
    refine confined_destination.bind fun d hd => ?_
    refine (confined_displacement (hword index rfl)).bind fun offset _ => ?_
    refine (confined_emit (.plain (Instr.plain_pair rfl hd hb))).bind fun _ _ => ?_
    exact (confined_store (htarget target rfl) hnever hd).mono (Nat.zero_le _)
  | storeField value base field index =>
    refine (confined_load (hsources value (by simp [Linear.Instr.sources]))).bind fun s hs => ?_
    refine (confined_load (hsources base (by simp [Linear.Instr.sources]))).bind fun b hb => ?_
    refine (confined_displacement (hword index rfl)).bind fun offset _ => ?_
    exact (confined_emit (.plain (Instr.plain_pair rfl hs hb))).mono (Nat.zero_le _)
  | alloc target struct fields =>
    refine (confined_callRoutine hf (fun _ => ?_) fun hroom => ?_).mono (Nat.zero_le _)
    · exact (confined_displacement (hword fields rfl)).bind fun size _ =>
        confined_emitAll (.constant Reg.ordinary_result size)
    · exact confined_store (htarget target rfl) (fun _ => hroom) Reg.ordinary_result
  | free pointer =>
    refine (confined_callRoutine hf (fun hroom => ?_) fun _ => .pure trivial).mono (Nat.zero_le _)
    exact confined_loadInto (hsources pointer (List.mem_cons_self ..)) (fun _ => hroom) Reg.ordinary_result
  | mov target source guard =>
    cases guard with
    | always => exact (confined_move (htarget target rfl) hnever hsources).mono (by decide)
    | on c => cases hi
  | print source =>
    exact (confined_print hf (hsources source (List.mem_cons_self ..)) .print).mono (Nat.zero_le _)
  | println source =>
    exact (confined_print hf (hsources source (List.mem_cons_self ..)) .println).mono (Nat.zero_le _)
  | read target name =>
    refine (confined_callRoutine hf (fun hroom => ?_) fun _ => .pure trivial).mono (Nat.zero_le _)
    exact (confined_homeAddress (htarget target rfl) hroom (by decide)).bind fun _ _ =>
      confined_formatAddress .read Reg.ordinary_result
  | _ => cases hi

end Context

end Spillway.Arm64
