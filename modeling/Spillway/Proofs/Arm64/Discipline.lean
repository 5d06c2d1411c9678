import Spillway.Proofs.Arm64.Blocks
import Spillway.Proofs.Program.Built
import Spillway.Proofs.Session.Compile

/-!
# Stack discipline

How far the stack pointer is below where a function found it can be read off the lines of the function's
block. At labels and jumps it is always as far as the frame reaches, so it does not depend on the way there.
Calls find it aligned, and the function returns with it where it was. What is addressed from the stack pointer
is in the area reserved below the frame, what is addressed from the frame pointer is in the frame.

* `Context.Disciplined` — what this says of a block.
* `Session.blocks_disciplined` — every block of a program that compiles is as said.
-/

namespace Spillway

namespace Arm64

/-! ### Addresses -/

/-- The word in memory that an instruction reads or writes. -/
def Instr.memory? : Instr → Option Mem
  | .load _ m | .store _ m | .loadPair _ _ m | .storePair _ _ m => some m
  | _ => none

/-- How far from a register a word is. -/
def Mem.offsetFrom? (base : Reg) : Mem → Option Int
  | .direct b => if b = base then some 0 else none
  | .displaced b offset => if b = base then some offset else none
  | .indexed .. => none

/-- How far from a register the word is that an instruction accesses, or whose address it forms. -/
def Instr.offsetFrom? (base : Reg) : Instr → Option Int
  | .load _ m | .store _ m | .loadPair _ _ m | .storePair _ _ m => m.offsetFrom? base
  | .mov d a => if a = base ∧ d ≠ base then some 0 else none
  | .addImm d a bytes => if a = base ∧ d ≠ base then some bytes else none
  | .subImm d a bytes => if a = base ∧ d ≠ base then some (-bytes) else none
  | _ => none

/-- The bytes that an instruction adds or subtracts, if it works on the stack or the frame pointer. -/
def Instr.adjustment? : Instr → Option Nat
  | .addImm d a bytes | .subImm d a bytes =>
    if d = .sp ∨ a = .sp ∨ d = .fp ∨ a = .fp then some bytes else none
  | _ => none

/-- The registers that an instruction gives a value. -/
def Instr.destinations : Instr → List Reg
  | .mov d _ | .movImm d _ | .movz d _ | .movk d _ _ | .alu _ d _ _ | .eorImm d _ _ | .addImm d _ _
  | .subImm d _ _ | .load d _ | .page d _ | .addPageOffset d _ _ => [d]
  | .loadPair d e _ => [d, e]
  | _ => []

theorem Mem.offsetFrom?_eq_none {base : Reg} {m : Mem} (h : base ∉ m.registers) :
    m.offsetFrom? base = none := by
  cases m with
  | direct b | displaced b offset =>
    refine if_neg fun e => h ?_
    simp [registers, e]
  | indexed b o => rfl

theorem Instr.offsetFrom?_eq_none {base : Reg} {i : Instr} (h : base ∉ i.registers) :
    i.offsetFrom? base = none := by
  cases i with
  | load d m | store d m => exact Mem.offsetFrom?_eq_none fun hm => h (List.mem_cons_of_mem _ hm)
  | loadPair d e m | storePair d e m =>
    exact Mem.offsetFrom?_eq_none fun hm => h (List.mem_cons_of_mem _ (List.mem_cons_of_mem _ hm))
  | mov d a | addImm d a bytes | subImm d a bytes =>
    refine if_neg fun e => h ?_
    simp [registers, e.1]
  | _ => rfl

theorem Instr.mem_registers_of_memory? {i : Instr} {m : Mem} {r : Reg} (h : i.memory? = some m)
    (hr : r ∈ m.registers) : r ∈ i.registers := by
  cases i with
  | load d m' | store d m' =>
    cases h
    exact List.mem_cons_of_mem _ hr
  | loadPair d e m' | storePair d e m' =>
    cases h
    exact List.mem_cons_of_mem _ (List.mem_cons_of_mem _ hr)
  | _ => cases h

theorem Instr.mem_registers_of_destinations {i : Instr} {r : Reg} (h : r ∈ i.destinations) :
    r ∈ i.registers := by
  cases i with
  | loadPair d e m =>
    rcases List.mem_pair.1 h with rfl | rfl <;> simp [registers]
  | _ => simp_all [destinations, registers]

theorem Instr.Plain.offsetFrom? {i : Instr} (h : i.Plain) {base : Reg} (hbase : ¬ base.Ordinary) :
    i.offsetFrom? base = none :=
  Instr.offsetFrom?_eq_none fun hmem => hbase (h.2 base hmem)

theorem Instr.Plain.adjustment? {i : Instr} (h : i.Plain) : i.adjustment? = none := by
  have hordinary := h.2
  cases i with
  | addImm d a bytes | subImm d a bytes =>
    have hd : d.Ordinary := hordinary d (by simp [registers])
    have ha : a.Ordinary := hordinary a (by simp [registers])
    exact if_neg (by simp [hd.1, hd.2.1, ha.1, ha.2.1])
  | _ => rfl

/-! ### One line -/

namespace Frame

variable {f : Frame} {s s' : Stack} {line : Line} {i : Instr} {k : Int}

/-- Nothing is reserved below the frame at a label or a jump. -/
theorem Step.area_eq_zero (h : f.Step s line s') (hline : line.defines? ≠ none ∨ line.jump? ≠ none) :
    s.area = 0 := by
  cases h with
  | label | branch | branchOn => rfl
  | plain hi =>
    rw [hi.jump?] at hline
    simp [Line.defines?] at hline
  | _ => simp [Line.defines?, Line.jump?] at hline

/-- What is addressed from the stack pointer is in the area reserved below the frame. -/
theorem Step.sp_offset (h : f.Step s (.instr i) s') (hk : i.offsetFrom? .sp = some k) :
    0 ≤ k ∧ k + Word.bytes ≤ s.area := by
  have hsaved : ∀ {a : Nat} {j : Argument}, Word.bytes * j.val + Word.bytes ≤ a →
      0 ≤ j.saved ∧ j.saved + Word.bytes ≤ a := by
    intro a j hj
    rw [Argument.saved, Word.bytes] at *
    omega
  cases h with
  | plain hi =>
    rw [hi.offsetFrom? (by decide)] at hk
    cases hk
  | loadSaved hj _ | storeSaved hj _ =>
    cases hk
    exact hsaved hj
  | @savedAddress a d j hj hd =>
    rw [Instr.offsetFrom?, if_pos ⟨rfl, hd.1⟩] at hk
    cases hk
    exact hsaved hj
  | _ => cases hk

/-- What is addressed from the frame pointer is in the frame. -/
theorem Step.fp_offset (h : f.Step s (.instr i) s') (hk : i.offsetFrom? .fp = some k) :
    -(f.bytes : Int) ≤ k ∧ k ≤ -Word.bytes := by
  have hslot : ∀ {j : Nat}, j < f.slots.length →
      -(f.bytes : Int) ≤ slotOffset j ∧ slotOffset j ≤ -Word.bytes := by
    intro j hj
    have hdepth := slotDepth_le hj
    rw [slotOffset, slotDepth, Word.bytes] at *
    omega
  cases h with
  | plain hi =>
    rw [hi.offsetFrom? (by decide)] at hk
    cases hk
  | loadNear hj _ _ | storeNear hj _ _ =>
    cases hk
    exact hslot hj
  | setFar hj =>
    cases hk
    exact hslot hj
  | slotAddress hj hd =>
    rw [Instr.offsetFrom?, if_pos ⟨rfl, hd.2.1⟩] at hk
    cases hk
    exact hslot hj
  | _ => cases hk

/-- What is accessed from the frame pointer directly is near. -/
theorem Step.near (h : f.Step s (.instr i) s') (hk : i.memory? = some (.displaced .fp k)) :
    minDirectOffset ≤ k ∧ k ≤ -Word.bytes := by
  have hslot : ∀ j, slotOffset j ≤ -Word.bytes := by
    intro j
    rw [slotOffset, slotDepth, Word.bytes]
    omega
  cases h with
  | plain hi =>
    have hmem : Reg.fp ∈ i.registers := Instr.mem_registers_of_memory? hk (List.mem_singleton_self _)
    exact absurd rfl (hi.2 .fp hmem).2.1
  | loadNear _ hnear _ | storeNear _ hnear _ =>
    cases hk
    exact ⟨hnear, hslot _⟩
  | _ => cases hk

/-- An access through the register of far addresses stands right after the line that sets it. -/
theorem Step.far (h : f.Step s (.instr i) s') {m : Mem} (hm : i.memory? = some m) (hfar : .far ∈ m.registers) :
    m = .direct .far ∧ s.far = true := by
  cases h with
  | plain hi => exact absurd rfl (hi.2 .far (Instr.mem_registers_of_memory? hm hfar)).2.2
  | loadFar | storeFar =>
    cases hm
    exact ⟨rfl, rfl⟩
  | loadNear | storeNear | loadSaved | storeSaved =>
    cases hm
    exact absurd (List.mem_singleton.1 hfar) (by decide)
  | _ => cases hm

/-- An immediate can name what is added to the stack pointer or the frame pointer. -/
theorem Step.adjustment_le (h : f.Step s (.instr i) s') (hf : f.Bounded) (hs : s.Aligned) {bytes : Nat}
    (hk : i.adjustment? = some bytes) : bytes ≤ 4095 := by
  have hbytes := hf.bytes
  rw [Limit.maxFrameBytes] at hbytes
  cases h with
  | plain hi =>
    rw [hi.adjustment?] at hk
    cases hk
  | setFar hj | slotAddress hj _ =>
    have hdepth := slotDepth_le hj
    rw [Instr.adjustment?, if_pos (by simp)] at hk
    cases hk
    omega
  | @savedAddress a d j hj _ =>
    have hlt : j.val < 8 := j.isLt
    rw [Instr.adjustment?, if_pos (by simp)] at hk
    cases hk
    rw [Word.bytes]
    omega
  | reserve _ hle =>
    cases hk
    exact hle
  | release =>
    cases hk
    exact hs.2
  | _ => cases hk

/-- The stack pointer, the frame pointer and the register of far addresses are named in a few ways only. -/
theorem Step.only (h : f.Step s (.instr i) s') {r : Reg} (hr : r ∈ i.registers) (hspecial : ¬ r.Ordinary) :
    (∃ bytes, i = .subImm .sp .sp bytes ∨ i = .addImm .sp .sp bytes) ∨ (i.offsetFrom? .sp).isSome ∨
      (i.offsetFrom? .fp).isSome ∨ i.memory? = some (.direct .far) := by
  cases h with
  | plain hi => exact absurd (hi.2 r hr) hspecial
  | loadNear | storeNear | setFar => exact .inr (.inr (.inl rfl))
  | loadFar | storeFar => exact .inr (.inr (.inr rfl))
  | slotAddress _ hd =>
    refine .inr (.inr (.inl ?_))
    rw [Instr.offsetFrom?, if_pos ⟨rfl, hd.2.1⟩]
    rfl
  | loadSaved | storeSaved => exact .inr (.inl rfl)
  | savedAddress _ hd =>
    refine .inr (.inl ?_)
    rw [Instr.offsetFrom?, if_pos ⟨rfl, hd.1⟩]
    rfl
  | reserve => exact .inl ⟨_, .inl rfl⟩
  | release => exact .inl ⟨_, .inr rfl⟩
  | _ => cases hr

/-- The frame pointer keeps its value, and the stack pointer only moves by what is added to it. -/
theorem Step.kept (h : f.Step s (.instr i) s') {r : Reg} (hr : r ∈ i.destinations) :
    r ≠ .fp ∧ (r = .sp → ∃ bytes, i = .subImm .sp .sp bytes ∨ i = .addImm .sp .sp bytes) := by
  have hordinary : r.Ordinary → r ≠ .fp ∧
      (r = .sp → ∃ bytes, i = .subImm .sp .sp bytes ∨ i = .addImm .sp .sp bytes) :=
    fun hr => ⟨hr.2.1, fun e => absurd e hr.1⟩
  cases h with
  | plain hi => exact hordinary (hi.2 r (Instr.mem_registers_of_destinations hr))
  | loadNear _ _ hd | loadFar hd | slotAddress _ hd | loadSaved _ hd | savedAddress _ hd =>
    obtain rfl := List.mem_singleton.1 hr
    exact hordinary hd
  | setFar =>
    obtain rfl := List.mem_singleton.1 hr
    exact ⟨by decide, nofun⟩
  | reserve =>
    obtain rfl := List.mem_singleton.1 hr
    exact ⟨by decide, fun _ => ⟨_, .inl rfl⟩⟩
  | release =>
    obtain rfl := List.mem_singleton.1 hr
    exact ⟨by decide, fun _ => ⟨_, .inr rfl⟩⟩
  | _ => cases hr

/-- A line among others, with the stack before and after it. -/
theorem Steps.at_line {w w' : List Line} (h : f.Steps s (w ++ line :: w') s') :
    ∃ s₁ s₂, f.Steps s w s₁ ∧ f.Step s₁ line s₂ := by
  obtain ⟨s₁, hw, hrest⟩ := h.split
  cases hrest with
  | cons hline _ => exact ⟨s₁, _, hw, hline⟩

end Frame

/-! ### Blocks -/

namespace Context

variable {ctx : Context} {body : List Line}

/-- The lines of a body, one after the other. -/
theorem Writes.steps {n n' : Nat} {code : List Linear.Instr} (h : ctx.Writes n code body n') :
    ctx.frame.Steps ⟨0, false⟩ body ⟨0, false⟩ := by
  induction h with
  | nil => exact .nil
  | straight _ hw _ ih | call _ hw _ ih => exact hw.steps.append ih
  | skip hw _ ih =>
    rw [List.cons_append]
    exact .cons .branchOn (hw.steps.append (.cons .label ih))
  | branch _ ih => exact .cons .branch ih
  | branchOn _ ih => exact .cons .branchOn ih
  | label _ ih => exact .cons .label ih
  | leave hw _ ih => exact hw.steps.append (.cons .branch ih)

/-- **Stack discipline.** The lines of a block, where `before` stands between the prologue and the line in
question. How far the stack pointer has moved since the function's symbol is the sum over the lines so far. -/
structure Disciplined (ctx : Context) (body : List Line) (returns : Ty) : Prop where
  /-- At every label and jump the stack pointer is at the bottom of the frame. -/
  level : ∀ {before line after}, body ++ ctx.epilogue returns = before ++ line :: after →
    line.defines? ≠ none ∨ line.jump? ≠ none →
    spOffset (ctx.prologue ++ before) = -(16 + ctx.frame.bytes)
  /-- Calls find the stack pointer aligned. -/
  call : ∀ {before callee after}, body ++ ctx.epilogue returns = before ++ .instr (.call callee) :: after →
    16 ∣ spOffset (ctx.prologue ++ before)
  /-- The function returns with the stack pointer where it was. -/
  ret : ∀ {before after}, body ++ ctx.epilogue returns = before ++ .instr .ret :: after →
    spOffset (ctx.prologue ++ before) = 0
  /-- What the body addresses from the stack pointer is in the area reserved below the frame. -/
  sp : ∀ {before i after k}, body = before ++ .instr i :: after → i.offsetFrom? .sp = some k →
    0 ≤ k ∧ k + 8 ≤ -spOffset (ctx.prologue ++ before) - (16 + ctx.frame.bytes)
  /-- What the body addresses from the frame pointer is in the frame. -/
  fp : ∀ {i k}, .instr i ∈ body → i.offsetFrom? .fp = some k → -(ctx.frame.bytes : Int) ≤ k ∧ k ≤ -8
  /-- Only near words are accessed from the frame pointer directly. -/
  near : ∀ {i k}, .instr i ∈ body → i.memory? = some (.displaced .fp k) → -256 ≤ k ∧ k ≤ -8
  /-- The address of any other word of the frame was formed by the line right before its access. -/
  far : ∀ {before i after m}, body = before ++ .instr i :: after → i.memory? = some m →
    .far ∈ m.registers → m = .direct .far ∧
      ∃ before' bytes, before = before' ++ [.instr (.subImm .far .fp bytes)]
  /-- No instruction of the body names these three registers in another way. -/
  only : ∀ {i r}, .instr i ∈ body → r ∈ i.registers → r = .sp ∨ r = .fp ∨ r = .far →
    (∃ bytes, i = .subImm .sp .sp bytes ∨ i = .addImm .sp .sp bytes) ∨ (i.offsetFrom? .sp).isSome ∨
      (i.offsetFrom? .fp).isSome ∨ i.memory? = some (.direct .far)
  /-- The body leaves the frame pointer as it is, and moves the stack pointer only by what it adds to it. -/
  kept : ∀ {i r}, .instr i ∈ body → r ∈ i.destinations →
    r ≠ .fp ∧ (r = .sp → ∃ bytes, i = .subImm .sp .sp bytes ∨ i = .addImm .sp .sp bytes)
  /-- Immediates can name all that is added to the stack pointer or the frame pointer. -/
  immediate : ∀ {i bytes}, .instr i ∈ ctx.prologue ++ body ++ ctx.epilogue returns →
    i.adjustment? = some bytes → bytes ≤ 4095

/-- The prologue moves the stack pointer to the bottom of the frame. -/
theorem spOffset_prologue (ctx : Context) : spOffset ctx.prologue = -(16 + ctx.frame.bytes) := by
  simp [prologue, Frame.opening, Line.spChange]
  omega

/-- The lines of the epilogue between its label and the return. -/
def restoring (ctx : Context) (returns : Ty) : List Line :=
  (ctx.status returns ++
    [Instr.addImm .sp .sp ctx.frame.bytes, .loadPair .fp .lr (.direct .sp), .addImm .sp .sp 16]).map .instr

theorem epilogue_eq (ctx : Context) (returns : Ty) :
    ctx.epilogue returns = (.label (.exit ctx.name) :: ctx.restoring returns) ++
      .instr .ret :: [.directive (.functionSize ctx.name)] := by
  rw [epilogue, restoring, Frame.closing]
  simp

theorem mem_restoring {returns : Ty} {line : Line} (h : line ∈ ctx.restoring returns) :
    line ∈ [Line.instr (.movImm .result 0), .instr (.addImm .sp .sp ctx.frame.bytes),
      .instr (.loadPair .fp .lr (.direct .sp)), .instr (.addImm .sp .sp 16)] := by
  rcases ctx.status_cases returns with hstatus | hstatus
  · rw [restoring, hstatus] at h
    exact List.mem_cons_of_mem _ h
  · rw [restoring, hstatus] at h
    exact h

theorem spOffset_restoring (ctx : Context) (returns : Ty) :
    spOffset (ctx.restoring returns) = 16 + ctx.frame.bytes := by
  rcases ctx.status_cases returns with hstatus | hstatus <;> rw [restoring, hstatus] <;>
    simp [Line.spChange] <;> omega

/-- In the epilogue only the first line is a label, nothing jumps and nothing is called. -/
theorem epilogue_quiet {returns : Ty} {before after : List Line} {line : Line}
    (h : ctx.epilogue returns = before ++ line :: after) :
    (line.defines? ≠ none ∨ line.jump? ≠ none → before = []) ∧ ∀ callee, line ≠ .instr (.call callee) := by
  cases before with
  | nil =>
    obtain ⟨rfl, -⟩ := List.cons.inj h
    exact ⟨fun _ => rfl, nofun⟩
  | cons first before =>
    have hmem : line ∈ ctx.restoring returns ++ [.instr .ret, .directive (.functionSize ctx.name)] := by
      rw [epilogue_eq, List.cons_append, List.cons_append] at h
      rw [(List.cons.inj h).2]
      exact List.mem_append_right _ (List.mem_cons_self ..)
    have hquiet : line.defines? = none ∧ line.jump? = none ∧ ∀ callee, line ≠ .instr (.call callee) := by
      rcases List.mem_append.1 hmem with hmem | hmem
      · have hline := mem_restoring hmem
        simp only [List.mem_cons, List.not_mem_nil, or_false] at hline
        rcases hline with rfl | rfl | rfl | rfl <;> exact ⟨rfl, rfl, nofun⟩
      · rcases List.mem_pair.1 hmem with rfl | rfl <;> exact ⟨rfl, rfl, nofun⟩
    exact ⟨fun hline => hline.elim (absurd hquiet.1) (absurd hquiet.2.1), hquiet.2.2⟩

/-- Where the epilogue returns, the stack pointer is back. -/
theorem spOffset_of_ret {returns : Ty} {before after : List Line}
    (h : ctx.epilogue returns = before ++ .instr .ret :: after) : spOffset before = 16 + ctx.frame.bytes := by
  have honce : Line.instr .ret ∉ Line.label (.exit ctx.name) :: ctx.restoring returns := by
    intro hmem
    rcases List.mem_cons.1 hmem with hmem | hmem
    · cases hmem
    · simpa using mem_restoring hmem
  rw [epilogue_eq] at h
  obtain ⟨rfl, -⟩ := (List.append_cons_inj_of_notMem honce (by simp)).1 h
  rw [spOffset_cons, spOffset_restoring]
  exact Int.zero_add _

theorem opening_adjustment_le (hf : ctx.frame.Bounded) {i : Instr} (hi : .instr i ∈ ctx.prologue) {bytes : Nat}
    (hk : i.adjustment? = some bytes) : bytes ≤ 4095 := by
  have hbytes := hf.bytes
  rw [Limit.maxFrameBytes] at hbytes
  simp only [prologue, Frame.opening, List.map_cons, List.map_nil, List.cons_append, List.nil_append,
    List.mem_cons, List.not_mem_nil, or_false, Line.instr.injEq, reduceCtorEq, false_or] at hi
  rcases hi with rfl | rfl | rfl | rfl <;> simp [Instr.adjustment?] at hk <;> omega

theorem closing_adjustment_le (hf : ctx.frame.Bounded) {i : Instr} {returns : Ty}
    (hi : .instr i ∈ ctx.epilogue returns) {bytes : Nat} (hk : i.adjustment? = some bytes) : bytes ≤ 4095 := by
  have hbytes := hf.bytes
  rw [Limit.maxFrameBytes] at hbytes
  rw [epilogue_eq] at hi
  rcases List.mem_append.1 hi with hi | hi
  · rcases List.mem_cons.1 hi with hi | hi
    · cases hi
    have hline := mem_restoring hi
    simp only [List.mem_cons, List.not_mem_nil, or_false, Line.instr.injEq] at hline
    rcases hline with rfl | rfl | rfl | rfl <;> simp [Instr.adjustment?] at hk <;> omega
  · obtain rfl : i = .ret := by simpa using hi
    cases hk

/-- A line of two lists one after the other is in the first or in the second. -/
theorem split_append {xs ys before after : List Line} {line : Line} (h : xs ++ ys = before ++ line :: after) :
    (∃ rest, xs = before ++ line :: rest) ∨ ∃ mid, before = xs ++ mid ∧ ys = mid ++ line :: after := by
  rcases List.append_eq_append_iff.1 h with ⟨mid, hbefore, hys⟩ | ⟨mid, hxs, hline⟩
  · exact .inr ⟨mid, hbefore, hys⟩
  · cases mid with
    | nil => exact .inr ⟨[], by rw [hxs, List.append_nil, List.append_nil], hline.symm⟩
    | cons x mid =>
      obtain ⟨rfl, -⟩ := List.cons.inj hline
      exact .inl ⟨mid, hxs⟩

/-- **One block.** -/
theorem Writes.disciplined {n n' : Nat} {code : List Linear.Instr} (h : ctx.Writes n code body n')
    (hf : ctx.frame.Bounded) (returns : Ty) : ctx.Disciplined body returns := by
  have hstart : Stack.Aligned ⟨0, false⟩ := ⟨Nat.dvd_zero _, Nat.zero_le _⟩
  -- In the body the stack pointer is below the frame by what is reserved there.
  have hoffset : ∀ {before : List Line} {s : Stack}, ctx.frame.Steps ⟨0, false⟩ before s →
      spOffset (ctx.prologue ++ before) = -(16 + ctx.frame.bytes) - s.area := by
    intro before s hsteps
    have hmoved : spOffset before = 0 - s.area := hsteps.spOffset_eq
    rw [spOffset_append, spOffset_prologue, hmoved]
    omega
  have hmem : ∀ {i : Instr}, .instr i ∈ body → ∃ s s', s.Aligned ∧ ctx.frame.Step s (.instr i) s' := by
    intro i hi
    obtain ⟨before, after, rfl⟩ := List.append_of_mem hi
    obtain ⟨s, s', hbefore, hstep⟩ := h.steps.at_line
    exact ⟨s, s', hbefore.aligned hstart, hstep⟩
  have hend : spOffset (ctx.prologue ++ body) = -(16 + ctx.frame.bytes) := by
    rw [hoffset h.steps]
    exact Int.sub_zero _
  constructor
  case level =>
    intro before line after hsplit hline
    rcases split_append hsplit with ⟨rest, rfl⟩ | ⟨mid, rfl, hepilogue⟩
    · obtain ⟨s, s', hbefore, hstep⟩ := h.steps.at_line
      rw [hoffset hbefore, hstep.area_eq_zero hline]
      exact Int.sub_zero _
    · rw [(epilogue_quiet hepilogue).1 hline, List.append_nil, hend]
  case call =>
    intro before callee after hsplit
    rcases split_append hsplit with ⟨rest, rfl⟩ | ⟨mid, -, hepilogue⟩
    · obtain ⟨s, s', hbefore, -⟩ := h.steps.at_line
      have harea : 16 ∣ s.area := (hbefore.aligned hstart).1
      have hbytes : 16 ∣ ctx.frame.bytes := Nat.dvd_mul_left ..
      rw [hoffset hbefore]
      omega
    · exact absurd rfl ((epilogue_quiet hepilogue).2 callee)
  case ret =>
    intro before after hsplit
    rcases split_append hsplit with ⟨rest, rfl⟩ | ⟨mid, rfl, hepilogue⟩
    · obtain ⟨s, s', -, hstep⟩ := h.steps.at_line
      cases hstep with
      | plain hi => exact absurd rfl hi.1
    · rw [← List.append_assoc, spOffset_append, hend, spOffset_of_ret hepilogue]
      omega
  case sp =>
    intro before i after k hsplit hk
    subst hsplit
    obtain ⟨s, s', hbefore, hstep⟩ := h.steps.at_line
    have hbounds := hstep.sp_offset hk
    rw [hoffset hbefore]
    rw [Word.bytes] at hbounds
    omega
  case fp =>
    intro i k hi hk
    obtain ⟨s, s', -, hstep⟩ := hmem hi
    exact hstep.fp_offset hk
  case near =>
    intro i k hi hk
    obtain ⟨s, s', -, hstep⟩ := hmem hi
    exact hstep.near hk
  case far =>
    intro before i after m hsplit hm hfar
    subst hsplit
    obtain ⟨s, s', hbefore, hstep⟩ := h.steps.at_line
    obtain ⟨rfl, hset⟩ := hstep.far hm hfar
    obtain ⟨before', k, -, hbefore'⟩ := hbefore.eq_setFar rfl hset
    exact ⟨rfl, before', slotDepth k, hbefore'⟩
  case only =>
    intro i r hi hr hspecial
    obtain ⟨s, s', -, hstep⟩ := hmem hi
    refine hstep.only hr ?_
    rcases hspecial with rfl | rfl | rfl <;> decide
  case kept =>
    intro i r hi hr
    obtain ⟨s, s', -, hstep⟩ := hmem hi
    exact hstep.kept hr
  case immediate =>
    intro i bytes hi hk
    rcases List.mem_append.1 hi with hi | hi
    · rcases List.mem_append.1 hi with hi | hi
      · exact opening_adjustment_le hf hi hk
      · obtain ⟨s, s', hs, hstep⟩ := hmem hi
        exact hstep.adjustment_le hf hs hk
    · exact closing_adjustment_le hf hi hk

end Context

/-- A block of a function that keeps to the stack discipline. -/
def DisciplinedBlock (f : FunctionDecl) (block : List Line) : Prop :=
  ∃ ctx : Context, ∃ returns body, ctx.name = f.name ∧
    block = ctx.prologue ++ body ++ ctx.epilogue returns ∧ ctx.Disciplined body returns

theorem disciplined_of_chains {p : Program} {c c' : Counters} {fs : List FunctionDecl}
    {frags : List Linear.Fragment} {blocks : List (List Line)} {n n' : Nat}
    (h : Journal.Chain p.Translates c fs frags c')
    (h' : Journal.Chain (Assembles p.symbols) n frags blocks n') :
    List.Forall₂ DisciplinedBlock fs blocks := by
  refine h.through h' fun hf hblock => ?_
  obtain ⟨signature, parameters, frame, -, -, hframe, body, hwrites, hlines⟩ := hblock
  refine ⟨_, signature.returns, body, hf.1, hlines, ?_⟩
  exact hwrites.disciplined (Frame.bounded_of_layout hframe).2 _

end Arm64

/-! ### Programs -/

namespace Session

/-- **Stack discipline.** Every block of a program that compiles keeps to it. -/
theorem blocks_disciplined {p : Program} {s s' : Session} {lines : List Arm64.Line} {effects : List Effect}
    (h : (compile p).run s = ⟨.ok lines, s', effects⟩) :
    ∃ globals blocks formats,
      lines = Arm64.header globals ++ blocks.flatten ++ Arm64.Formats.lines formats ∧
      List.Forall₂ Arm64.DisciplinedBlock p.functions.toList blocks := by
  obtain ⟨fragments, c, w, g, w', hlower, hgenerate⟩ := compile_ok h
  obtain ⟨globals, functions, rfl, -, -, hchain⟩ := Program.translates_of_lower hlower
  obtain ⟨globals', functions', blocks, n, hfragments, hlines, hblocks⟩ :=
    Arm64.blocks_of_generate hgenerate (Arm64.bracketed_of_chain hchain)
  cases hfragments
  exact ⟨globals, blocks, _, hlines, Arm64.disciplined_of_chains hchain hblocks⟩

/-- `Draft.sumDown` compiles. Its one block has a loop, a conditional move, and a call around which the
parameter is saved. -/
theorem blocks_disciplined_sumDown : ∃ lines s effects,
    (compile Draft.sumDown.program).run {} = ⟨.ok lines, s, effects⟩ ∧
      .instr (.call (.name "printf")) ∈ lines ∧ ∃ globals blocks formats,
        lines = Arm64.header globals ++ blocks.flatten ++ Arm64.Formats.lines formats ∧
        List.Forall₂ Arm64.DisciplinedBlock Draft.sumDown.program.functions.toList blocks := by
  obtain ⟨lines, s, effects, hcompile, hcall⟩ : ∃ lines s effects,
      (compile Draft.sumDown.program).run {} = ⟨.ok lines, s, effects⟩ ∧
        Arm64.Line.instr (.call (.name "printf")) ∈ lines := ⟨_, _, _, rfl, by decide +kernel⟩
  exact ⟨lines, s, effects, hcompile, hcall, blocks_disciplined hcompile⟩

end Session

end Spillway
