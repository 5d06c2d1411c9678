import Spillway.Proofs.Arm64.Scratch

/-!
# The outcome of writing code

For every instruction it can be said beforehand how the writing of its code ends, whatever the generator was used
for before: the obstacles in its way are known, and the first of them is what is reported. Nothing else fails, since
no more than three scratch registers are ever taken.

* `Context.obstacles` — what keeps the code of an instruction from being written.
* `Context.Outcome` — how a computation ends, in what state, and what it has written by then.
* `Context.Takes` — the outcome of a computation from every state that has room for its scratch registers.
* `Context.takes_instr`, `Context.body_outcome` — instructions and bodies.

The outcome also says what depends on the code that came before. It is the numbers of the conditional moves and
the format strings in use: `Delays`.
-/

namespace Spillway

/-- The format string that an instruction refers to. -/
def Linear.Instr.format? : Linear.Instr → Option Arm64.Format
  | .print _ => some .print
  | .println _ => some .println
  | .read .. => some .read
  | _ => none

namespace Arm64

/-! ### Later in a program -/

/-- A symbol after `n` conditional moves. -/
def Symbol.later (n : Nat) : Symbol → Symbol
  | .skip number => .skip (n + number)
  | s => s

/-- A line after `n` conditional moves: the number is added to those of its own. -/
def Line.later (n : Nat) : Line → Line
  | .instr (.branch s) => .instr (.branch (s.later n))
  | .instr (.branchOn c s) => .instr (.branchOn c (s.later n))
  | .instr (.call s) => .instr (.call (s.later n))
  | .instr (.page d s) => .instr (.page d (s.later n))
  | .instr (.addPageOffset d a s) => .instr (.addPageOffset d a (s.later n))
  | .label s => .label (s.later n)
  | .directive (.size s bytes) => .directive (.size (s.later n) bytes)
  | line => line

/-- The generator in the same place of a program that has made `n` conditional moves and used some format strings
before. -/
def Generator.later (n : Nat) (used : Formats) (g : Generator) : Generator :=
  { g with skips := n + g.skips, formats := g.formats.foldl Formats.mark used }

/-- Later in a program the computation does the same, up to the numbers of the conditional moves and the format
strings in use. -/
def Delays {α : Type} (m : Emit α) (g : Generator) : Prop :=
  ∀ n used, m.run (g.later n used)
    = ⟨(m.run g).result, (m.run g).state.later n used, (m.run g).entries.map (Line.later n)⟩

/-- Marking what is in use already changes nothing. -/
theorem Formats.mark_of_mem {fs : Formats} {f : Format} (h : f ∈ fs) : fs.mark f = fs := if_pos h

theorem Formats.mem_foldl_mark {f : Format} (fs used : Formats) :
    f ∈ fs.foldl Formats.mark used ↔ f ∈ used ∨ f ∈ fs := by
  induction fs generalizing used with
  | nil => simp
  | cons f' fs ih => rw [List.foldl_cons, ih, mem_mark, List.mem_cons, or_assoc]

/-- A format string is marked after others just as before them. -/
theorem Formats.foldl_mark_mark (fs used : Formats) (f : Format) :
    (fs.mark f).foldl Formats.mark used = Formats.mark (fs.foldl Formats.mark used) f := by
  by_cases h : f ∈ fs
  · rw [mark_of_mem h, mark_of_mem ((mem_foldl_mark fs used).2 (.inr h))]
  · rw [mark, if_neg h, List.foldl_append]
    rfl

namespace Delays

variable {α β : Type} {m : Emit α} {f : α → Emit β} {g t : Generator} {w : List Line}

theorem bind_ok {a : α} (h : Delays m g) (hrun : m.run g = ⟨.ok a, t, w⟩) (hf : Delays (f a) t) :
    Delays (m >>= f) g := by
  intro n used
  rw [Journal.bind_run, Journal.bind_run, h n used, hrun, Journal.andThen_ok, Journal.andThen_ok, hf n used,
    List.map_append]

theorem bind_error {e : Failure} (h : Delays m g) (hrun : m.run g = ⟨.error e, t, w⟩) : Delays (m >>= f) g := by
  intro n used
  rw [Journal.bind_run, Journal.bind_run, h n used, hrun]
  rfl

end Delays

namespace Context

/-! ### How a computation ends -/

/-- The outcome of a computation that has obstacles in its way: without any it succeeds, with a value and a state as
required, and the format strings it refers to are in use; otherwise the first is reported. However it ends, the
registers in use are guarded, the lines are tidy, and later in a program it ends the same way. -/
inductive Outcome {α : Type} (ctx : Context) (m : Emit α) (g : Generator) (Q : α → Generator → Prop) :
    List Failure → List Format → Prop
  | done {fs : List Format} {a : α} {t : Generator} {w : List Line} :
      m.run g = ⟨.ok a, t, w⟩ → Delays m g → t.Guarded ctx.frame → ctx.frame.Tidy w →
      t.formats = fs.foldl Formats.mark g.formats → Q a t → Outcome ctx m g Q [] fs
  | failed {e : Failure} {es : List Failure} {fs : List Format} {t : Generator} {w : List Line} :
      m.run g = ⟨.error e, t, w⟩ → Delays m g → t.Guarded ctx.frame → ctx.frame.Tidy w →
      Outcome ctx m g Q (e :: es) fs

namespace Outcome

variable {ctx : Context} {α β : Type} {m : Emit α} {f : α → Emit β} {g : Generator}
  {P Q : α → Generator → Prop} {R : β → Generator → Prop} {es es' : List Failure} {fs fs' : List Format}

theorem delays (h : ctx.Outcome m g Q es fs) : Delays m g := by
  cases h with
  | done _ hdelays _ _ _ _ => exact hdelays
  | failed _ hdelays _ _ => exact hdelays

theorem guarded (h : ctx.Outcome m g Q es fs) : (m.run g).state.Guarded ctx.frame := by
  cases h with
  | done hrun _ hguarded _ _ _ => rwa [hrun]
  | failed hrun _ hguarded _ => rwa [hrun]

theorem tidy (h : ctx.Outcome m g Q es fs) : ctx.frame.Tidy (m.run g).entries := by
  cases h with
  | done hrun _ _ htidy _ _ => rwa [hrun]
  | failed hrun _ _ htidy => rwa [hrun]

theorem of_ok (h : ctx.Outcome m g Q es fs) {a : α} {t : Generator} {w : List Line}
    (hrun : m.run g = ⟨.ok a, t, w⟩) :
    es = [] ∧ t.formats = fs.foldl Formats.mark g.formats ∧ Q a t := by
  cases h with
  | done hrun' _ _ _ hformats hQ =>
    rw [hrun'] at hrun
    cases hrun
    exact ⟨rfl, hformats, hQ⟩
  | failed hrun' _ _ _ =>
    rw [hrun'] at hrun
    cases hrun

theorem mono (h : ctx.Outcome m g Q es fs) (hP : ∀ a t, Q a t → P a t) : ctx.Outcome m g P es fs := by
  cases h with
  | done hrun hdelays hguarded htidy hformats ha => exact .done hrun hdelays hguarded htidy hformats (hP _ _ ha)
  | failed hrun hdelays hguarded htidy => exact .failed hrun hdelays hguarded htidy

/-- The outcome is that of a computation that runs the same way. -/
theorem of_run_eq {m' : Emit α} (h : ctx.Outcome m g Q es fs) (hrun : m'.run g = m.run g)
    (hlater : ∀ n used, m'.run (g.later n used) = m.run (g.later n used)) : ctx.Outcome m' g Q es fs := by
  have hdelays : Delays m' g := by
    intro n used
    rw [hlater n used, hrun]
    exact h.delays n used
  cases h with
  | done hrun' _ hguarded htidy hformats ha => exact .done (hrun.trans hrun') hdelays hguarded htidy hformats ha
  | failed hrun' _ hguarded htidy => exact .failed (hrun.trans hrun') hdelays hguarded htidy

/-- The obstacles of two computations one after the other. -/
theorem bind (h : ctx.Outcome m g Q es fs)
    (hf : ∀ a t, t.Guarded ctx.frame → Q a t → ctx.Outcome (f a) t R es' fs') :
    ctx.Outcome (m >>= f) g R (es ++ es') (fs ++ fs') := by
  cases h with
  | failed hrun hdelays hguarded htidy =>
    exact .failed (Journal.bind_eq_error_iff.2 (.inl hrun)) (hdelays.bind_error hrun) hguarded htidy
  | @done _ a t w hrun hdelays hguarded htidy hformats hQ =>
    cases hf a t hguarded hQ with
    | done hrun' hdelays' hguarded' htidy' hformats' hR =>
      refine .done (Journal.bind_eq_ok_iff.2 ⟨_, _, _, _, hrun, hrun', rfl⟩) (hdelays.bind_ok hrun hdelays')
        hguarded' (htidy.append htidy') ?_ hR
      rw [hformats', hformats, List.foldl_append]
    | failed hrun' hdelays' hguarded' htidy' =>
      exact .failed (Journal.bind_eq_error_iff.2 (.inr ⟨_, _, _, _, hrun, hrun', rfl⟩))
        (hdelays.bind_ok hrun hdelays') hguarded' (htidy.append htidy')

theorem recordAll {ws : List Line} (hg : g.Guarded ctx.frame) (htidy : ctx.frame.Tidy ws)
    (hlater : ∀ line ∈ ws, ∀ n, line.later n = line) :
    ctx.Outcome (Journal.recordAll ws) g (fun _ t => t = g) [] [] := by
  refine .done rfl (fun n used => ?_) hg htidy rfl rfl
  have hws : ws.map (Line.later n) = ws := (List.map_congr_left fun line h => hlater line h n).trans (List.map_id ws)
  show Run.mk (.ok ()) (g.later n used) ws = Run.mk (.ok ()) (g.later n used) (ws.map (Line.later n))
  rw [hws]

end Outcome

/-- The computation takes at most `j` scratch registers, and its outcome is known from every state that has room
for them. -/
def Takes {α : Type} (ctx : Context) (j : Nat) (es : List Failure) (fs : List Format) (m : Emit α)
    (Q : α → Prop) : Prop :=
  ∀ ⦃g : Generator⦄, g.Guarded ctx.frame → g.scratch.length + j ≤ 3 →
    ctx.Outcome m g (fun a t => Q a ∧ t.scratch.length ≤ g.scratch.length + j) es fs

variable {ctx : Context} {α β γ : Type} {m : Emit α} {f : α → Emit β} {Q : α → Prop} {R : β → Prop}
  {j j' : Nat} {es es' : List Failure} {fs fs' : List Format} {r : VReg}

namespace Takes

theorem pure {a : α} (h : Q a) : ctx.Takes j [] [] (pure a) Q :=
  fun _ hg _ => .done rfl (fun _ _ => rfl) hg .nil rfl ⟨h, Nat.le_add_right ..⟩

theorem fail (e : Failure) : ctx.Takes j (e :: es) fs (Journal.fail e) Q :=
  fun _ hg _ => .failed rfl (fun _ _ => rfl) hg .nil

theorem bind (h : ctx.Takes j es fs m Q) (hf : ∀ a, Q a → ctx.Takes j' es' fs' (f a) R) :
    ctx.Takes (j' + j) (es ++ es') (fs ++ fs') (m >>= f) R := by
  intro g hg hroom
  refine (h hg (by omega)).bind fun a t ht ⟨hQ, hle⟩ => ?_
  refine (hf a hQ ht (by omega)).mono fun b u ⟨hR, hle'⟩ => ⟨hR, by omega⟩

theorem mono (h : ctx.Takes j es fs m Q) (hj : j ≤ j') : ctx.Takes j' es fs m Q := by
  intro g hg hroom
  exact (h hg (by omega)).mono fun a t ⟨hQ, hle⟩ => ⟨hQ, by omega⟩

theorem of_eq (h : ctx.Takes j es fs m Q) (hes : es = es') (hfs : fs = fs') : ctx.Takes j es' fs' m Q := by
  rwa [← hes, ← hfs]

/-- The computation looks at the state, but not at what is different later in a program. -/
theorem get_bind {f : Generator → Emit β} (hf : ∀ g n used, f (g.later n used) = f g)
    (h : ∀ g, ctx.Takes j es fs (f g) R) : ctx.Takes j es fs (get >>= f) R := by
  intro g hg hroom
  refine (h g hg hroom).of_run_eq rfl fun n used => ?_
  show (f (g.later n used)).run (g.later n used) = _
  rw [hf]

theorem forM {xs : List γ} {f : γ → Emit PUnit} {es : γ → List Failure}
    (h : ∀ x ∈ xs, ctx.Takes 0 (es x) [] (f x) fun _ => True) :
    ctx.Takes 0 (xs.flatMap es) [] (xs.forM f) fun _ => True := by
  induction xs with
  | nil => exact .pure trivial
  | cons x xs ih =>
    obtain ⟨hx, hxs⟩ := List.forall_mem_cons.1 h
    exact hx.bind fun _ _ => ih hxs

end Takes

/-! ### Obstacles -/

/-- A virtual register that lives nowhere is an obstacle. -/
def unlocated (ctx : Context) (r : VReg) : List Failure :=
  match ctx.frame.location? r with
  | some _ => []
  | none => [.fault (.defect (.unlocated r))]

/-- A word whose displacement does not fit is an obstacle. -/
def overflow (index : Nat) : List Failure :=
  match Word.displacement index with
  | .ok _ => []
  | .error t => [.fault (.trap t)]

/-- The obstacles in the way of an instruction's code, in the order in which they are met: too many arguments, a
register that it reads, a word that it counts, the register that it writes. -/
def obstacles (ctx : Context) (i : Linear.Instr) : List Failure :=
  i.oversized?.toList.map .limit ++ i.sources.flatMap ctx.unlocated ++ i.word?.toList.flatMap overflow ++
    i.target?.toList.flatMap ctx.unlocated

section Obstacles

variable {i : Linear.Instr} {target : VReg} {k : Nat}

theorem obstacles_of_sources (hsize : i.oversized? = none) (hword : i.word? = none) (htarget : i.target? = none) :
    ctx.obstacles i = i.sources.flatMap ctx.unlocated := by
  simp [obstacles, hsize, hword, htarget]

theorem obstacles_of_target (hsize : i.oversized? = none) (hword : i.word? = none)
    (htarget : i.target? = some target) :
    ctx.obstacles i = i.sources.flatMap ctx.unlocated ++ ctx.unlocated target := by
  simp [obstacles, hsize, hword, htarget]

theorem obstacles_of_word (hsize : i.oversized? = none) (hword : i.word? = some k) :
    ctx.obstacles i
      = i.sources.flatMap ctx.unlocated ++ (overflow k ++ i.target?.toList.flatMap ctx.unlocated) := by
  simp [obstacles, hsize, hword]

end Obstacles

/-- The computation looks where a virtual register lives. -/
theorem Takes.locate_bind {k : Location → Emit β}
    (h : ∀ l, ctx.frame.location? r = some l → ctx.Takes j es fs (k l) R) :
    ctx.Takes j (ctx.unlocated r ++ es) fs ((liftM (ctx.frame.locate r) : Emit Location) >>= k) R := by
  cases hl : ctx.frame.location? r with
  | some l =>
    rw [Context.locate_bind hl, unlocated, hl]
    exact h l hl
  | none =>
    have hfail : ((liftM (ctx.frame.locate r) : Emit Location) >>= k)
        = Journal.fail (.fault (.defect (.unlocated r))) := by
      rw [Frame.locate, hl]
      rfl
    rw [hfail, unlocated, hl]
    exact .fail _

theorem takes_displacement (index : Nat) : ctx.Takes 0 (overflow index) [] (displacement index) fun _ => True := by
  rw [displacement, overflow]
  cases Word.displacement index with
  | ok v => exact .pure trivial
  | error t => exact .fail _

/-! ### Single steps -/

theorem takes_acquire : ctx.Takes 1 [] [] acquire (Reg.Low 11) := by
  intro g hg hroom
  obtain ⟨i, hacquire, hlow, hguarded⟩ := hg.acquire (by omega)
  have hrun : ∀ g' : Generator, g'.pool = g.pool →
      acquire.run g' = ⟨.ok i.reg, { g' with pool := g.pool.occupy i, scratch := g'.scratch ++ [i] }, []⟩ := by
    intro g' hpool
    rw [acquire, Journal.bind_run, Journal.get_run, Journal.andThen_ok, hpool, hacquire]
    rfl
  refine .done (hrun g rfl) (fun n used => ?_) hguarded .nil rfl ⟨hlow, by simp⟩
  rw [hrun g rfl, hrun (g.later n used) rfl]
  rfl

/-- An instruction that gives values to working registers only and names no conditional move. -/
def Modest (i : Instr) : Prop := (∀ r ∈ i.destinations, r.Working) ∧ ∀ n, (Line.instr i).later n = .instr i

theorem takes_emitAll {is : List Instr} (htidy : ctx.frame.Tidy (is.map .instr))
    (hlater : ∀ i ∈ is, ∀ n, (Line.instr i).later n = .instr i) :
    ctx.Takes 0 [] [] (emitAll is) fun _ => True := by
  intro g hg _
  refine (Outcome.recordAll hg htidy fun line hline n => ?_).mono fun _ t ht =>
    ⟨trivial, Nat.le_of_eq (congrArg (·.scratch.length) ht)⟩
  obtain ⟨i, hi, rfl⟩ := List.mem_map.1 hline
  exact hlater i hi n

theorem takes_modest {is : List Instr} (h : ∀ i ∈ is, Modest i) : ctx.Takes 0 [] [] (emitAll is) fun _ => True :=
  takes_emitAll (.instrs fun i hi => (h i hi).1) fun i hi => (h i hi).2

theorem takes_emit {i : Instr} (h : Modest i) : ctx.Takes 0 [] [] (emit i) fun _ => True :=
  show ctx.Takes 0 [] [] (emitAll [i]) fun _ => True from takes_modest (List.forall_mem_singleton.2 h)

theorem modest_of_destination {i : Instr} {d : Reg} (hi : i.destinations = [d]) (hd : d.Working)
    (hlater : ∀ n, (Line.instr i).later n = .instr i) : Modest i :=
  ⟨by simp [hi, hd], hlater⟩

theorem modest_of_none {i : Instr} (hi : i.destinations = []) (hlater : ∀ n, (Line.instr i).later n = .instr i) :
    Modest i :=
  ⟨by simp [hi], hlater⟩

theorem takes_slotLoad {k : Nat} (hk : k < ctx.frame.slots.length) {d : Reg} (hd : d.Working) :
    ctx.Takes 0 [] [] (emitAll (slotAccess (.load d) k)) fun _ => True := by
  refine takes_emitAll (.slotLoad hk hd) fun i hi n => ?_
  rw [slotAccess] at hi
  split at hi <;> simp at hi <;> rcases hi with rfl | rfl <;> rfl

theorem takes_slotStore {k : Nat} (hk : k < ctx.frame.slots.length) (s : Reg) :
    ctx.Takes 0 [] [] (emitAll (slotAccess (.store s) k)) fun _ => True := by
  refine takes_emitAll (.slotStore hk s) fun i hi n => ?_
  rw [slotAccess] at hi
  split at hi <;> simp at hi <;> rcases hi with rfl | rfl <;> rfl

theorem takes_immediate {d : Reg} (hd : d.Working) (value : Int64) :
    ctx.Takes 0 [] [] (emitAll (immediate d value)) fun _ => True := by
  refine takes_modest fun i hi => ?_
  rw [immediate] at hi
  split at hi
  · rw [List.mem_singleton.1 hi]
    exact modest_of_destination rfl hd fun _ => rfl
  · rcases List.mem_cons.1 hi with rfl | hi
    · exact modest_of_destination rfl hd fun _ => rfl
    · obtain ⟨shift, -, rfl⟩ := List.mem_map.1 hi
      exact modest_of_destination rfl hd fun _ => rfl

/-- The address of a symbol, which is not that of a conditional move. -/
theorem takes_address {d : Reg} (hd : d.Working) {s : Symbol} (hs : ∀ n, s.later n = s) :
    ctx.Takes 0 [] [] (emitAll [.page d s, .addPageOffset d d s]) fun _ => True := by
  refine takes_modest fun i hi => ?_
  rcases List.mem_pair.1 hi with rfl | rfl
  · exact modest_of_destination rfl hd fun n => by rw [Line.later, hs]
  · exact modest_of_destination rfl hd fun n => by rw [Line.later, hs]

/-- A change of the state that neither concerns the registers in use nor what is different later in a program. -/
theorem takes_saved (saved : Bool) : ctx.Takes 0 [] [] (modify fun g => { g with saved } : Emit PUnit) fun _ => True :=
  fun _ hg _ => .done rfl (fun _ _ => rfl) ⟨hg.parameters, hg.busy, hg.held, hg.low, hg.apart, hg.nodup, hg.few⟩
    .nil rfl ⟨trivial, Nat.le_refl _⟩

/-! ### Values and addresses -/

theorem takes_load : ctx.Takes 1 (ctx.unlocated r) [] (ctx.load r) fun _ => True := by
  refine (Takes.locate_bind fun l hl => ?_).of_eq (List.append_nil _) rfl
  cases l with
  | parameter i => exact .pure trivial
  | slot k =>
    exact takes_acquire.bind fun d hd =>
      (takes_slotLoad (Frame.lt_of_slot hl) hd.working).bind fun _ _ => .pure trivial

theorem takes_loadOperand (operand : Linear.Operand) :
    ctx.Takes 1 (operand.registers.flatMap ctx.unlocated) [] (ctx.loadOperand operand) fun _ => True := by
  cases operand with
  | reg r => exact takes_load.of_eq (List.append_nil _).symm rfl
  | imm value =>
    exact takes_acquire.bind fun d hd => (takes_immediate hd.working value).bind fun _ _ => .pure trivial

theorem takes_memory (address : Linear.Address) :
    ctx.Takes 2 (address.registers.flatMap ctx.unlocated) [] (ctx.memory address) fun _ => True := by
  cases address with
  | indexed base offset =>
    exact takes_load.bind fun _ _ => takes_load.bind fun _ _ => .pure trivial
  | displaced base offset | direct base => exact takes_load.bind fun _ _ => .pure trivial
  | global name =>
    exact takes_acquire.bind fun d hd => (takes_address hd.working fun _ => rfl).bind fun _ _ => .pure trivial

theorem takes_destination : ctx.Takes 1 [] [] (ctx.destination r) (Reg.Low 11) := by
  rw [destination]
  split
  · next i _ =>
    refine .get_bind (fun _ _ _ => rfl) fun g => ?_
    split
    · exact takes_acquire
    · exact .pure i.low_reg
  · exact takes_acquire

theorem takes_loadInto {d : Reg} (hd : d.Working) :
    ctx.Takes 0 (ctx.unlocated r) [] (ctx.loadInto r d) fun _ => True := by
  refine (Takes.locate_bind fun l hl => ?_).of_eq (List.append_nil _) rfl
  cases l with
  | slot k => exact takes_slotLoad (Frame.lt_of_slot hl) hd
  | parameter i =>
    refine .get_bind (fun _ _ _ => rfl) fun g => ?_
    split
    · exact takes_emit (modest_of_destination rfl hd fun _ => rfl)
    · split
      · exact takes_emit (modest_of_destination rfl hd fun _ => rfl)
      · exact .pure trivial

theorem takes_store {s : Reg} : ctx.Takes 0 (ctx.unlocated r) [] (ctx.store r s) fun _ => True := by
  refine (Takes.locate_bind fun l hl => ?_).of_eq (List.append_nil _) rfl
  cases l with
  | slot k => exact takes_slotStore (Frame.lt_of_slot hl) s
  | parameter i =>
    refine .get_bind (fun _ _ _ => rfl) fun g => ?_
    split
    · exact takes_emit (modest_of_none rfl fun _ => rfl)
    · split
      · exact takes_emit (modest_of_destination rfl i.low_reg.working fun _ => rfl)
      · exact .pure trivial

theorem takes_homeAddress {d : Reg} (hd : d.Working) :
    ctx.Takes 0 (ctx.unlocated r) [] (ctx.homeAddress r d) fun _ => True := by
  refine (Takes.locate_bind fun l hl => ?_).of_eq (List.append_nil _) rfl
  cases l with
  | slot k | parameter i => exact takes_emit (modest_of_destination rfl hd fun _ => rfl)

theorem takes_formatAddress (f : Format) {d : Reg} (hd : d.Working) :
    ctx.Takes 0 [] [f] (formatAddress f d) fun _ => True := by
  have hmark : ctx.Takes 0 [] [f] (modify fun g => { g with formats := g.formats.mark f } : Emit PUnit)
      fun _ => True := by
    intro g hg _
    refine .done rfl (fun n used => ?_)
      ⟨hg.parameters, hg.busy, hg.held, hg.low, hg.apart, hg.nodup, hg.few⟩ .nil rfl ⟨trivial, Nat.le_refl _⟩
    simp only [Journal.modify_run, Generator.later, Formats.foldl_mark_mark, List.map_nil]
  exact hmark.bind fun _ _ => takes_address hd fun _ => rfl

/-! ### Around a call -/

theorem takes_saveParameters (words : Nat) : ctx.Takes 0 [] [] (ctx.saveParameters words) fun _ => True := by
  rw [saveParameters]
  split
  · exact .pure trivial
  · refine (takes_emit (modest_of_destination rfl (.inl rfl) fun _ => rfl)).bind fun _ _ => ?_
    refine (takes_modest fun i hi => ?_).bind fun _ _ => (takes_saved _).bind fun _ _ => .pure trivial
    obtain ⟨a, -, rfl⟩ := List.mem_map.1 hi
    exact modest_of_none rfl fun _ => rfl

theorem takes_restoreParameters (area : Nat) :
    ctx.Takes 0 [] [] (ctx.restoreParameters area) fun _ => True := by
  rw [restoreParameters]
  split
  · refine (takes_modest fun i hi => ?_).bind fun _ _ => ?_
    · obtain ⟨a, -, rfl⟩ := List.mem_map.1 hi
      exact modest_of_destination rfl a.low_reg.working fun _ => rfl
    · exact (takes_emit (modest_of_destination rfl (.inl rfl) fun _ => rfl)).bind fun _ _ => takes_saved _
  · exact .pure trivial

/-- **Library routines.** What is in the way of the arguments, and then of the results. -/
theorem takes_callRoutine {routine : String} {arguments results : Emit Unit}
    (harguments : ctx.Takes 0 es fs arguments fun _ => True)
    (hresults : ctx.Takes 0 es' fs' results fun _ => True) :
    ctx.Takes 0 (es ++ es') (fs ++ fs') (ctx.callRoutine routine arguments results) fun _ => True := by
  have hcall : ctx.Takes 0 [] [] (emit (.call (.name routine))) fun _ => True :=
    takes_emit (modest_of_none rfl fun _ => rfl)
  refine Takes.of_eq (?_ : ctx.Takes 0 ([] ++ (es ++ ([] ++ (es' ++ [])))) ([] ++ (fs ++ ([] ++ (fs' ++ [])))) _ _)
    (by simp) (by simp)
  exact (takes_saveParameters 0).bind fun area _ => harguments.bind fun _ _ => hcall.bind fun _ _ =>
    hresults.bind fun _ _ => takes_restoreParameters area

theorem takes_print (source : VReg) (f : Format) :
    ctx.Takes 0 (ctx.unlocated source) [f] (ctx.print source f) fun _ => True := by
  refine (takes_callRoutine ((takes_loadInto (Reg.Low.working ⟨1, by decide, rfl⟩)).bind fun _ _ =>
    takes_formatAddress f (Reg.Low.working ⟨0, by decide, rfl⟩)) (.pure trivial)).of_eq ?_ rfl
  rw [List.append_nil, List.append_nil]

theorem takes_push (arguments : List VReg) (callee : String) :
    ctx.Takes 0 (ctx.obstacles (.push arguments callee)) [] (ctx.push arguments callee) fun _ => True := by
  have hobstacles : ctx.obstacles (.push arguments callee)
      = (Linear.Instr.push arguments callee).oversized?.toList.map .limit ++ arguments.flatMap ctx.unlocated := by
    simp [obstacles, Linear.Instr.sources, Linear.Instr.word?, Linear.Instr.target?]
  rw [hobstacles, push, Linear.Instr.oversized?]
  split
  · exact .fail _
  · next hfits =>
    have hzip : ((Argument.all.zip arguments).flatMap fun a => ctx.unlocated a.2)
        = arguments.flatMap ctx.unlocated := by
      have hsnd : (Argument.all.zip arguments).map Prod.snd = arguments := by
        refine List.map_snd_zip ?_
        rw [Argument.all, List.length_finRange]
        exact Nat.not_lt.1 hfits
      rw [← hsnd, List.flatMap_map]
      simp [hsnd]
    refine ((takes_saveParameters arguments.length).bind fun _ _ => Takes.forM fun a _ => ?_).of_eq hzip rfl
    refine ((takes_loadInto a.1.low_reg.working).bind fun _ _ => ?_).of_eq (List.append_nil _) rfl
    exact fun _ hg _ => .done rfl (fun _ _ => rfl) (hg.occupy a.1) .nil rfl ⟨trivial, Nat.le_refl _⟩

theorem takes_pop (count : Nat) : ctx.Takes 3 [] [] (ctx.pop count) fun _ => True := by
  refine (takes_restoreParameters _).bind fun _ _ g hg hroom => ?_
  have hscratch : g.scratch = [] := List.eq_nil_of_length_eq_zero (by omega)
  exact .done rfl (fun _ _ => rfl) (hg.releaseArguments hscratch count) .nil rfl ⟨trivial, Nat.le_add_right ..⟩

/-! ### Instructions -/

theorem takes_compare (left : VReg) (right : Linear.Operand) :
    ctx.Takes 2 (ctx.unlocated left ++ right.registers.flatMap ctx.unlocated) [] (ctx.compare left right)
      fun _ => True := by
  refine takes_load.bind fun a _ => ?_
  have hcmp : ctx.Takes 1 (right.registers.flatMap ctx.unlocated) [] (do emit (.cmp a (← ctx.loadOperand right)))
      fun _ => True :=
    ((takes_loadOperand right).bind fun b _ => takes_emit (modest_of_none rfl fun _ => rfl)).of_eq
      (List.append_nil _) rfl
  cases right with
  | reg r => exact hcmp
  | imm value =>
    show ctx.Takes 1 _ _ (if _ then _ else _) _
    split
    · exact (takes_emit (modest_of_none rfl fun _ => rfl)).mono (Nat.zero_le _)
    · exact hcmp

/-- A jump over what a computation writes. -/
def skipping (c : Linear.Cond) (m : Emit Unit) : Emit Unit := do
  let skip ← nextSkip
  emit (.branchOn c skip)
  m
  emitLabel skip

theorem skipping_ok {m : Emit Unit} {g t : Generator} {w : List Line} (c : Linear.Cond)
    (h : m.run { g with skips := g.skips + 1 } = ⟨.ok (), t, w⟩) :
    (skipping c m).run g
      = ⟨.ok (), t, .instr (.branchOn c (.skip g.skips)) :: (w ++ [.label (.skip g.skips)])⟩ := by
  refine Journal.bind_eq_ok_iff.2 ⟨.skip g.skips, _, [], _, rfl, ?_, rfl⟩
  refine Journal.bind_eq_ok_iff.2 ⟨(), _, [_], _, rfl, ?_, rfl⟩
  exact Journal.bind_eq_ok_iff.2 ⟨(), t, w, _, h, rfl, rfl⟩

theorem skipping_error {m : Emit Unit} {g t : Generator} {w : List Line} (c : Linear.Cond) {e : Failure}
    (h : m.run { g with skips := g.skips + 1 } = ⟨.error e, t, w⟩) :
    (skipping c m).run g = ⟨.error e, t, .instr (.branchOn c (.skip g.skips)) :: w⟩ := by
  refine Journal.bind_eq_error_iff.2 (.inr ⟨.skip g.skips, _, [], _, rfl, ?_, rfl⟩)
  refine Journal.bind_eq_error_iff.2 (.inr ⟨(), _, [_], _, rfl, ?_, rfl⟩)
  exact Journal.bind_eq_error_iff.2 (.inl h)

theorem Takes.skipping {m : Emit Unit} (h : ctx.Takes j es fs m fun _ => True) (c : Linear.Cond) :
    ctx.Takes j es fs (skipping c m) fun _ => True := by
  intro g hg hroom
  have hg₁ : Generator.Guarded { g with skips := g.skips + 1 } ctx.frame :=
    ⟨hg.parameters, hg.busy, hg.held, hg.low, hg.apart, hg.nodup, hg.few⟩
  have hjump : ∀ r ∈ (Instr.branchOn c (.skip g.skips)).destinations, r.Working := nofun
  cases h hg₁ hroom with
  | done hrun hdelays hguarded htidy hformats hQ =>
    refine .done (skipping_ok c hrun) (fun n used => ?_) hguarded
      (.instr hjump (htidy.append (.label .nil))) hformats hQ
    have hlater := hdelays n used
    rw [hrun] at hlater
    rw [skipping_ok c hrun, skipping_ok (g := g.later n used) c hlater]
    simp [Line.later, Symbol.later, Generator.later]
  | failed hrun hdelays hguarded htidy =>
    refine .failed (skipping_error c hrun) (fun n used => ?_) hguarded (.instr hjump htidy)
    have hlater := hdelays n used
    rw [hrun] at hlater
    rw [skipping_error c hrun, skipping_error (g := g.later n used) c hlater]
    simp [Line.later, Symbol.later, Generator.later]

theorem move_on_eq (target : VReg) (source : Linear.Operand) (c : Linear.Cond) :
    ctx.move target source (.on c) = skipping c.inverse (do
      let s ← ctx.loadOperand source
      ctx.store target s) := by
  simp only [move, Context.skipping, bind_assoc]

theorem takes_move (target : VReg) (source : Linear.Operand) (guard : Linear.Guard) :
    ctx.Takes 2 (source.registers.flatMap ctx.unlocated ++ ctx.unlocated target) [] (ctx.move target source guard)
      fun _ => True := by
  cases guard with
  | always =>
    refine takes_destination.bind fun d hd => ?_
    cases source with
    | reg r =>
      refine (takes_load.bind fun a _ => (takes_emit ?_).bind fun _ _ => takes_store).of_eq ?_ rfl
      · exact modest_of_destination rfl hd.working fun _ => rfl
      · simp [Linear.Operand.registers]
    | imm value => exact ((takes_immediate hd.working value).bind fun _ _ => takes_store).mono (Nat.zero_le _)
  | on c =>
    rw [move_on_eq]
    exact (((takes_loadOperand source).bind fun s _ => takes_store).skipping _).mono (by decide)

theorem takes_leave (value : Option Linear.Operand) :
    ctx.Takes 0 ((Linear.Instr.ret value).sources.flatMap ctx.unlocated) [] (ctx.leave value) fun _ => True := by
  have hjump : ctx.Takes 0 [] [] (emit (.branch (.exit ctx.name))) fun _ => True :=
    takes_emit (modest_of_none rfl fun _ => rfl)
  have hresult : Reg.result.Working := Reg.Low.working ⟨0, by decide, rfl⟩
  cases value with
  | none => exact hjump
  | some operand =>
    cases operand with
    | reg r => exact (takes_loadInto hresult).bind fun _ _ => hjump
    | imm value => exact (takes_immediate hresult value).bind fun _ _ => hjump

/-- **Instructions.** The code of an instruction takes at most three scratch registers, and only the obstacles that
were named can be in its way. -/
theorem takes_instr (i : Linear.Instr) :
    ctx.Takes 3 (ctx.obstacles i) i.format?.toList (ctx.instr i) fun _ => True := by
  cases i with
  | binary op target left right =>
    refine Takes.of_eq (takes_load.bind fun a _ => (takes_loadOperand right).bind fun b _ =>
      takes_destination.bind fun d hd => (takes_emit ?_).bind fun _ _ => takes_store) ?_ rfl
    · exact modest_of_destination rfl hd.working fun _ => rfl
    · rw [obstacles_of_target rfl rfl rfl]
      simp [Linear.Instr.sources]
  | not target operand =>
    refine Takes.of_eq ((takes_load.bind fun a _ => takes_destination.bind fun d hd =>
      (takes_emit ?_).bind fun _ _ => takes_store).mono (by decide)) ?_ rfl
    · exact modest_of_destination rfl hd.working fun _ => rfl
    · rw [obstacles_of_target rfl rfl rfl]
      simp [Linear.Instr.sources]
  | cmp left right =>
    refine ((takes_compare left right).mono (by decide)).of_eq ?_ rfl
    rw [obstacles_of_sources rfl rfl rfl]
    rfl
  | branch guard l =>
    cases guard with
    | always | on c => exact (takes_emit (modest_of_none rfl fun _ => rfl)).mono (by decide)
  | label l =>
    exact fun g hg _ => .done rfl (fun _ _ => rfl) hg (.label .nil) rfl ⟨trivial, Nat.le_add_right ..⟩
  | load target address =>
    refine Takes.of_eq ((takes_memory address).bind fun m _ => takes_destination.bind fun d hd =>
      (takes_emit ?_).bind fun _ _ => takes_store) ?_ rfl
    · exact modest_of_destination rfl hd.working fun _ => rfl
    · rw [obstacles_of_target rfl rfl rfl]
      simp [Linear.Instr.sources]
  | store value address =>
    refine Takes.of_eq (takes_load.bind fun s _ => (takes_memory address).bind fun m _ =>
      takes_emit (modest_of_none rfl fun _ => rfl)) ?_ rfl
    rw [obstacles_of_sources rfl rfl rfl]
    simp [Linear.Instr.sources]
  | loadField target base field index =>
    refine Takes.of_eq ((takes_load.bind fun b _ => takes_destination.bind fun d hd =>
      (takes_displacement index).bind fun offset _ => (takes_emit ?_).bind fun _ _ => takes_store).mono
        (by decide)) ?_ rfl
    · exact modest_of_destination rfl hd.working fun _ => rfl
    · rw [obstacles_of_word rfl rfl]
      simp [Linear.Instr.sources, Linear.Instr.target?]
  | storeField value base field index =>
    refine Takes.of_eq ((takes_load.bind fun s _ => takes_load.bind fun b _ =>
      (takes_displacement index).bind fun offset _ => takes_emit (modest_of_none rfl fun _ => rfl)).mono
        (by decide)) ?_ rfl
    rw [obstacles_of_word rfl rfl]
    simp [Linear.Instr.sources, Linear.Instr.target?]
  | alloc target struct fields =>
    refine Takes.of_eq ((takes_callRoutine ((takes_displacement fields).bind fun size _ =>
      takes_immediate (Reg.Low.working ⟨0, by decide, rfl⟩) size) takes_store).mono (by decide)) ?_ rfl
    rw [obstacles_of_word rfl rfl]
    simp [Linear.Instr.sources, Linear.Instr.target?]
  | free pointer =>
    refine Takes.of_eq ((takes_callRoutine (takes_loadInto (Reg.Low.working ⟨0, by decide, rfl⟩))
      (.pure trivial)).mono (by decide)) ?_ rfl
    rw [obstacles_of_sources rfl rfl rfl]
    simp [Linear.Instr.sources]
  | push arguments callee => exact (takes_push arguments callee).mono (by decide)
  | pop arguments callee => exact takes_pop arguments.length
  | mov target source guard =>
    refine ((takes_move target source guard).mono (by decide)).of_eq ?_ rfl
    rw [obstacles_of_target rfl rfl rfl]
    rfl
  | result target =>
    refine (takes_store.mono (by decide)).of_eq ?_ rfl
    rw [obstacles_of_target rfl rfl rfl]
    rfl
  | ret value =>
    refine ((takes_leave value).mono (by decide)).of_eq ?_ rfl
    rw [obstacles_of_sources rfl rfl rfl]
  | call callee => exact (takes_emit (modest_of_none rfl fun _ => rfl)).mono (by decide)
  | print source =>
    refine ((takes_print source .print).mono (by decide)).of_eq ?_ rfl
    rw [obstacles_of_sources rfl rfl rfl]
    simp [Linear.Instr.sources]
  | println source =>
    refine ((takes_print source .println).mono (by decide)).of_eq ?_ rfl
    rw [obstacles_of_sources rfl rfl rfl]
    simp [Linear.Instr.sources]
  | read target name =>
    refine Takes.of_eq ((takes_callRoutine ((takes_homeAddress (Reg.Low.working ⟨1, by decide, rfl⟩)).bind fun _ _ =>
      takes_formatAddress .read (Reg.Low.working ⟨0, by decide, rfl⟩)) (.pure trivial)).mono (by decide)) ?_ rfl
    rw [obstacles_of_target rfl rfl rfl]
    simp [Linear.Instr.sources]

/-! ### Bodies and blocks -/

/-- The code of an instruction, with its scratch registers given back. -/
theorem step_outcome {g : Generator} (hg : g.Guarded ctx.frame) (hscratch : g.scratch = []) (i : Linear.Instr) :
    ctx.Outcome (do
      ctx.instr i
      releaseScratch) g (fun _ t => t.scratch = []) (ctx.obstacles i) i.format?.toList := by
  have hinstr := takes_instr i hg (by rw [hscratch]; decide)
  have hrelease : ∀ t : Generator, t.Guarded ctx.frame →
      ctx.Outcome releaseScratch t (fun _ u => u.scratch = []) [] [] :=
    fun t ht => .done rfl (fun _ _ => rfl) ht.release .nil rfl rfl
  have hstep := hinstr.bind fun _ t ht _ => hrelease t ht
  rwa [List.append_nil, List.append_nil] at hstep

/-- **Bodies.** The obstacles in the way of a body's code are those of its instructions, in order. -/
theorem body_outcome (ctx : Context) {g : Generator} (hg : g.Guarded ctx.frame) (hscratch : g.scratch = [])
    (code : List Linear.Instr) :
    ctx.Outcome (ctx.body code) g (fun _ t => t.scratch = []) (code.flatMap ctx.obstacles)
      (code.filterMap Linear.Instr.format?) := by
  induction code generalizing g with
  | nil => exact .done rfl (fun _ _ => rfl) hg .nil rfl hscratch
  | cons i code ih =>
    have hformats : (i :: code).filterMap Linear.Instr.format?
        = i.format?.toList ++ code.filterMap Linear.Instr.format? := by
      rw [List.filterMap_cons]
      cases i.format? with
      | none => rfl
      | some f => rfl
    rw [hformats, List.flatMap_cons]
    exact (step_outcome hg hscratch i).bind fun _ t ht hnil => ih ht hnil

theorem tidy_prologue (ctx : Context) : ctx.frame.Tidy ctx.prologue := by
  refine .directive (.directive (.directive (.label (.instrs fun i hi r hr => ?_))))
  simp only [Frame.opening, List.mem_cons, List.not_mem_nil, or_false] at hi
  rcases hi with rfl | rfl | rfl | rfl <;> simp_all [Instr.destinations, Reg.Working]

theorem tidy_epilogue (ctx : Context) (returns : Ty) : ctx.frame.Tidy (ctx.epilogue returns) := by
  refine .label (.append (.instrs fun i hi r hr => ?_) (.directive .nil))
  rcases List.mem_append.1 hi with hi | hi
  · rcases ctx.status_cases returns with h | h <;> rw [h] at hi
    · cases hi
    · rw [List.mem_singleton.1 hi] at hr
      rw [List.mem_singleton.1 hr]
      exact Reg.Low.working ⟨0, by decide, rfl⟩
  · simp only [Frame.closing, List.mem_cons, List.not_mem_nil, or_false] at hi
    rcases hi with rfl | rfl | rfl | rfl <;> simp_all [Instr.destinations, Reg.Working]
    rcases hr with rfl | rfl <;> simp

theorem later_prologue (ctx : Context) : ∀ line ∈ ctx.prologue, ∀ n, line.later n = line := by
  intro line hline n
  simp only [prologue, Frame.opening, List.map_cons, List.map_nil, List.cons_append, List.nil_append,
    List.mem_cons, List.not_mem_nil, or_false] at hline
  rcases hline with rfl | rfl | rfl | rfl | rfl | rfl | rfl | rfl <;> rfl

theorem later_epilogue (ctx : Context) (returns : Ty) :
    ∀ line ∈ ctx.epilogue returns, ∀ n, line.later n = line := by
  intro line hline n
  rcases ctx.status_cases returns with h | h
  all_goals
    simp only [epilogue, h, Frame.closing, List.map_cons, List.map_nil, List.cons_append, List.nil_append,
      List.mem_cons, List.not_mem_nil, or_false] at hline
    rcases hline with rfl | hline
    · rfl
  · rcases hline with rfl | rfl | rfl | rfl | rfl <;> rfl
  · rcases hline with rfl | rfl | rfl | rfl | rfl | rfl <;> rfl

/-- **Blocks.** Prologue and epilogue are never in the way. -/
theorem block_outcome (ctx : Context) {g : Generator} (hg : g.Guarded ctx.frame) (hscratch : g.scratch = [])
    (code : List Linear.Instr) (returns : Ty) :
    ctx.Outcome (ctx.block code returns) g (fun _ t => t.scratch = []) (code.flatMap ctx.obstacles)
      (code.filterMap Linear.Instr.format?) := by
  have hprologue := Outcome.recordAll hg ctx.tidy_prologue ctx.later_prologue
  have hblock := hprologue.bind fun _ t _ ht =>
    (ctx.body_outcome (ht ▸ hg) (ht ▸ hscratch) code).bind fun _ u hu hnil =>
      (Outcome.recordAll hu (ctx.tidy_epilogue returns) (ctx.later_epilogue returns)).mono
        (P := fun _ v => v.scratch = []) fun _ v hv => hv ▸ hnil
  simp only [List.nil_append, List.append_nil] at hblock
  exact hblock

end Context

end Arm64

end Spillway
