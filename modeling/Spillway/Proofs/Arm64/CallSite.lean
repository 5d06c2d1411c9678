import Spillway.Arm64.Assembly
import Spillway.Proofs.Arm64.Saved

/-!
# Call sites

A call site saves the parameters, loads the arguments, calls, takes the result and restores the
parameters. At the call every argument register has the value of its argument, all at the same time. A
callee that gives the frame pointer, the stack pointer and the stack back may do what it likes with
everything else: after the call site every virtual register is in its home again.

* `CallSite` — the forms of linear code that call something.
* `Machine.Returns` — what a callee has to keep.
* `Context.Calls` — lines that pass the right values and lose nothing.
* `Context.callSite_loses_nothing` — the code of every call site.
-/

namespace Spillway.Arm64

/-- Linear code that calls something. -/
inductive CallSite where
  /-- A call of a function, which takes the result if there is a target. -/
  | function (arguments : List VReg) (callee : String) (target : Option VReg)
  | alloc (target : VReg) (struct : String) (fields : Nat)
  | free (pointer : VReg)
  | print (source : VReg)
  | println (source : VReg)
  | read (target : VReg) (name : String)
  deriving DecidableEq, Repr

/-- The callee has returned. It has kept the frame pointer, the stack pointer and the stack, except for
the word that it was given to write. -/
structure Machine.Returns (given : Option Word) (m m' : Machine) : Prop where
  fp : m'.regs .fp = m.regs .fp
  sp : m'.regs .sp = m.regs .sp
  mem : ∀ a, m.OnStack a → (∀ b, given = some b → ¬ Memory.InWord b a) → m'.mem a = m.mem a

namespace CallSite

/-- The instructions of a call site. -/
def instrs : CallSite → List Linear.Instr
  | .function arguments callee none => [.push arguments callee, .call callee, .pop arguments callee]
  | .function arguments callee (some target) =>
    [.push arguments callee, .call callee, .result target, .pop arguments callee]
  | .alloc target struct fields => [.alloc target struct fields]
  | .free pointer => [.free pointer]
  | .print source => [.print source]
  | .println source => [.println source]
  | .read target name => [.read target name]

/-- The registers that a call site reads or writes. -/
def registers (site : CallSite) : List VReg :=
  site.instrs.flatMap fun i => i.sources ++ i.target?.toList

/-- The arguments fit into the argument registers, and the size of a struct into a word. -/
def Fits : CallSite → Prop
  | .function arguments _ _ => arguments.length ≤ Limit.maxArguments
  | .alloc _ _ fields => (Word.bytes * fields : Int) ≤ Int64.maxValue.toInt
  | _ => True

/-- What is called. -/
def callee : CallSite → String
  | .function _ callee _ => callee
  | .alloc .. => "malloc"
  | .free _ => "free"
  | .print _ | .println _ => "printf"
  | .read .. => "scanf"

/-- The argument registers are as the callee expects them. -/
def Passes (place : Symbol → Word) (f : Frame) (regs : VReg → Word) (m : Machine) : CallSite → Prop
  | .function arguments _ _ =>
    ∀ (i : Argument) (r : VReg), arguments[i.val]? = some r → m.regs i.reg = regs r
  | .alloc _ _ fields => m.regs (.x 0) = BitVec.ofNat 64 (Word.bytes * fields)
  | .free pointer => m.regs (.x 0) = regs pointer
  | .print source => m.regs (.x 1) = regs source ∧ m.regs (.x 0) = place (.format .print)
  | .println source => m.regs (.x 1) = regs source ∧ m.regs (.x 0) = place (.format .println)
  | .read target _ =>
    (∃ l, f.location? target = some l ∧ m.regs (.x 1) = m.home l) ∧
      m.regs (.x 0) = place (.format .read)

/-- The word on the stack that the callee is given to write. -/
def given (m : Machine) : CallSite → Option Word
  | .read .. => some (m.regs (.x 1))
  | _ => none

/-- The virtual registers after a call site: `m` is the machine at the call, `m'` after it. -/
def after (regs : VReg → Word) (m m' : Machine) : CallSite → VReg → Word
  | .function _ _ (some target) | .alloc target _ _ => Function.update regs target (m'.regs .result)
  | .read target _ => Function.update regs target (m'.mem.word (m.regs (.x 1)))
  | _ => regs

end CallSite

/-! ### What survives a call -/

namespace Frame

variable {f : Frame} {place : Symbol → Word} {regs : VReg → Word} {area : Nat} {m m' : Machine}
  {r : VReg} {l : Location} {given : Option Word}

/-- A word that shares no byte with the word that the callee is given is as before. -/
theorem Parked.word_of_returns (hf : f.Bounded) (hroom : f.Room area) (h : f.Parked regs area m)
    (hreturns : m.Returns given m') (hr : f.location? r = some l)
    (hgiven : ∀ b, given = some b → ∀ a, Memory.InWord (m.home l) a → ¬ Memory.InWord b a) :
    m'.mem.word (m'.home l) = regs r := by
  rw [Machine.home_congr hreturns.fp hreturns.sp, ← h.word hr]
  refine Memory.word_congr fun a ha => hreturns.mem a ?_ fun b hb => hgiven b hb a ha
  exact onStack_of_inWord_home hf hroom h.reserves (within_of_location? hr) ha

theorem Reserves.of_returns (h : f.Reserves area m) (hreturns : m.Returns given m') :
    f.Reserves area m' := by
  rw [Reserves, hreturns.sp, hreturns.fp, h]

/-- A callee that is given no word keeps every virtual register. -/
theorem Parked.returns (hf : f.Bounded) (hroom : f.Room area) (h : f.Parked regs area m)
    (hreturns : m.Returns none m') : f.Parked regs area m' :=
  ⟨h.reserves.of_returns hreturns, fun _ _ hr => h.word_of_returns hf hroom hreturns hr nofun⟩

/-- A callee that is given the word of a virtual register gives that register a value, and keeps the
others. -/
theorem Parked.returns_given (hf : f.Bounded) (hroom : f.Room area) (h : f.Parked regs area m)
    (hr : f.location? r = some l) (hreturns : m.Returns (some (m.home l)) m') :
    f.Parked (Function.update regs r (m'.mem.word (m.home l))) area m' := by
  refine ⟨h.reserves.of_returns hreturns, fun r' l' hr' => ?_⟩
  by_cases hne : r' = r
  · subst hne
    rw [hr] at hr'
    cases hr'
    rw [Function.update_self, Machine.home_congr hreturns.fp hreturns.sp]
  · have hll : l' ≠ l := by
      rintro rfl
      exact hne (location?_injective hr' hr)
    rw [Function.update_of_ne hne]
    refine h.word_of_returns hf hroom hreturns hr' fun b hb a ha => ?_
    cases hb
    exact not_inWord_home hf hroom h.reserves (within_of_location? hr') (within_of_location? hr) hll ha

/-- Lines load the arguments of a call site. -/
def Prepares (f : Frame) (place : Symbol → Word) (area : Nat) (site : CallSite) (w : List Line) : Prop :=
  ∀ ⦃regs m⦄, f.Parked regs area m → ∃ m₁, Does place w m m₁ ∧ m.Steady m₁ ∧
    site.Passes place f regs m₁

/-- After the callee has returned, lines take what a call site wants from it. They write nothing outside
the stack. -/
def Takes (f : Frame) (place : Symbol → Word) (area : Nat) (site : CallSite) (w : List Line) : Prop :=
  ∀ ⦃regs m₁ m₂⦄, f.Parked regs area m₁ → site.Passes place f regs m₁ →
    m₁.Returns (site.given m₁) m₂ → ∃ m', Does place w m₂ m' ∧
      f.Parked (site.after regs m₁ m₂) area m' ∧ m'.regs .fp = m₂.regs .fp ∧
      ∀ a, ¬ m₁.OnStack a → m'.mem a = m₂.mem a

/-- Nothing is taken from a callee that returns nothing. -/
theorem takes_nil (hf : f.Bounded) (hroom : f.Room area) {site : CallSite}
    (hgiven : ∀ m, site.given m = none) (hafter : ∀ regs m m', site.after regs m m' = regs) :
    f.Takes place area site [] := by
  intro regs m₁ m₂ hm _ hreturns
  rw [hgiven] at hreturns
  rw [hafter]
  exact ⟨m₂, Does.nil place m₂, hm.returns hf hroom hreturns, rfl, fun _ _ => rfl⟩

/-- The result of a callee is stored where the target is. -/
theorem takes_store (hf : f.Bounded) (hroom : f.Room area) {site : CallSite} {w : List Line}
    (hr : f.location? r = some l) (hgiven : ∀ m, site.given m = none)
    (hafter : ∀ regs m m', site.after regs m m' = Function.update regs r (m'.regs .result))
    (hw : ∀ m, ∃ m', Does place w m m' ∧ m.Stores (m.home l) (m.regs .result) m') :
    f.Takes place area site w := by
  intro regs m₁ m₂ hm _ hreturns
  rw [hgiven] at hreturns
  rw [hafter]
  have hparked := hm.returns hf hroom hreturns
  obtain ⟨m', hrun, hstores⟩ := hw m₂
  refine ⟨m', hrun, hparked.stores hf hroom hr hstores, hstores.regs _ (by decide), fun a ha => ?_⟩
  rw [hstores.mem, Memory.setWord_of_not_inWord]
  intro hin
  apply ha
  have hstack := onStack_of_inWord_home hf hroom hparked.reserves (within_of_location? hr) hin
  rwa [Machine.OnStack, hreturns.fp, hreturns.sp] at hstack

/-- What the callee has written is where the target is. -/
theorem takes_read (hf : f.Bounded) (hroom : f.Room area) (target : VReg) (name : String) :
    f.Takes place area (.read target name) [] := by
  intro regs m₁ m₂ hm hpasses hreturns
  obtain ⟨⟨l, hl, haddress⟩, -⟩ := hpasses
  rw [CallSite.given, haddress] at hreturns
  rw [CallSite.after, haddress]
  exact ⟨m₂, Does.nil place m₂, hm.returns_given hf hroom hl hreturns, rfl, fun _ _ => rfl⟩

end Frame

/-! ### Call sites put together -/

namespace Context

variable {ctx : Context} {place : Symbol → Word} {g : Generator} {area : Nat} {site : CallSite}

/-- From every machine that has each virtual register in its home, lines come to one call, with the right
arguments and with the stack as it was. Whatever the callee does outside the stack, every virtual register
is in its home in the end, the target with its new value. -/
def Calls (ctx : Context) (place : Symbol → Word) (site : CallSite) (w : List Line) : Prop :=
  ∀ ⦃regs m⦄, ctx.frame.Holds regs m → m.regs .sp = m.regs .fp - BitVec.ofNat 64 ctx.frame.bytes →
    ∃ m₁ rest, run place w none m = (m₁, .call (.name site.callee) rest) ∧
      site.Passes place ctx.frame regs m₁ ∧ m₁.regs .fp = m.regs .fp ∧
      (∀ a, (m₁.OnStack a → m.OnStack a) → m₁.mem a = m.mem a) ∧
      ∀ m₂, m₁.Returns (site.given m₁) m₂ → ∃ m₃, run place rest none m₂ = (m₃, .fell) ∧
        ctx.frame.Holds (site.after regs m₁ m₂) m₃ ∧
        m₃.regs .fp = m.regs .fp ∧ m₃.regs .sp = m.regs .sp ∧
        ∀ a, ¬ m₁.OnStack a → m₃.mem a = m₂.mem a

/-- **A call site** is made of lines that save, prepare, call, take and restore. -/
theorem calls_of_parts {w₁ w₂ w₃ w₄ : List Line} (hparks : ctx.frame.Parks place area w₁)
    (hprepares : ctx.frame.Prepares place area site w₂) (htakes : ctx.frame.Takes place area site w₃)
    (hunparks : ctx.frame.Unparks place area w₄) :
    ctx.Calls place site
      (w₁ ++ (w₂ ++ ([.instr (.call (.name site.callee))] ++ (w₃ ++ w₄)))) := by
  intro regs m hm hsp
  obtain ⟨m₀, hrun₀, hparked₀, hfp₀, hmem₀⟩ := hparks hm hsp
  obtain ⟨m₁, hrun₁, hsteady, hpasses⟩ := hprepares hparked₀
  have hstack : ∀ a, m₁.OnStack a ↔ m₀.OnStack a := by
    intro a
    rw [Machine.OnStack, Machine.OnStack, hsteady.fp, hsteady.sp]
  refine ⟨m₁, w₃ ++ w₄, ?_, hpasses, hsteady.fp.trans hfp₀, fun a ha => ?_, fun m₂ hreturns => ?_⟩
  · rw [hrun₀, hrun₁]
    rfl
  · rw [hsteady.mem, hmem₀ a fun h => ha ((hstack a).2 h)]
  · -- The result is taken before the parameters are restored, so it is not lost if it is one of them.
    obtain ⟨m', hrun', hparked', hfp', hmem'⟩ := htakes (hparked₀.steady hsteady) hpasses hreturns
    obtain ⟨m₃, hrun₃, hholds, hreserves, hfp₃, hmem₃⟩ := hunparks hparked'
    have hfp : m₃.regs .fp = m.regs .fp := by
      rw [hfp₃, hfp', hreturns.fp, hsteady.fp, hfp₀]
    refine ⟨m₃, Does.run_eq (hrun'.trans hrun₃), hholds, hfp, ?_, fun a ha => ?_⟩
    · rw [hreserves, hfp, hsp]
      rfl
    · rw [hmem₃, hmem' a ha]

/-- A call of a library routine. -/
theorem callRoutine_yields (hf : ctx.frame.Bounded) (hg : g.saved = false) {routine : String}
    {arguments results : Emit Unit} (hcallee : routine = site.callee)
    (harguments : ∀ area ⦃g⦄, ctx.Saved g → arguments.Yields g fun _ g' w =>
      ctx.Saved g' ∧ ctx.frame.Prepares place area site w)
    (hresults : ∀ ⦃area g⦄, ctx.frame.Room area → ctx.Saved g → results.Yields g fun _ g' w =>
      ctx.Saved g' ∧ ctx.frame.Takes place area site w) :
    (ctx.callRoutine routine arguments results).Yields g fun _ g' w =>
      g'.saved = false ∧ ctx.Calls place site w := by
  subst hcallee
  refine (saveParameters_yields place hf hg (Nat.zero_le _)).bind fun area g₁ w₁ h₁ => ?_
  obtain ⟨harea, hg₁, hparks⟩ := h₁
  have hroom : ctx.frame.Room area := harea ▸ Frame.room_areaBytes hf (Nat.zero_le _)
  refine (harguments area hg₁).bind fun _ g₂ w₂ ⟨hg₂, hprepares⟩ => ?_
  refine (emit_yields _ g₂).bind fun _ g₃ w₃ ⟨hg₃, hw₃⟩ => ?_
  subst hg₃ hw₃
  refine (hresults hroom hg₂).bind fun _ g₄ w₄ ⟨hg₄, htakes⟩ => ?_
  refine (restoreParameters_yields place hg₄ hroom).mono fun _ g₅ w₅ ⟨hg₅, hunparks⟩ => ⟨hg₅, ?_⟩
  exact calls_of_parts hparks hprepares htakes hunparks

theorem alloc_yields (hf : ctx.frame.Bounded) (hg : g.saved = false) {target : VReg} {struct : String}
    {fields : Nat} {l : Location} (hl : ctx.frame.location? target = some l)
    (hfits : (Word.bytes * fields : Int) ≤ Int64.maxValue.toInt) :
    (ctx.instr (.alloc target struct fields)).Yields g fun _ g' w =>
      g'.saved = false ∧ ctx.Calls place (.alloc target struct fields) w := by
  obtain ⟨size, hsize, hpure⟩ := displacement_eq_pure hfits
  have hword : size.toBitVec = BitVec.ofNat 64 (Word.bytes * fields) := by
    rw [← BitVec.ofInt_toInt (x := size.toBitVec), Int64.toInt_toBitVec, hsize]
    exact BitVec.ofInt_natCast ..
  rw [instr]
  refine callRoutine_yields hf hg rfl (fun area g' hg' => ?_) fun area g' hroom hg' => ?_
  · rw [hpure, pure_bind]
    refine (emitAll_yields _ g').mono fun _ g₁ w ⟨hg₁, hw⟩ => ⟨hg₁ ▸ hg', fun regs m hm => ?_⟩
    have hgets := Machine.Gets.set m .result size.toBitVec
    refine ⟨_, hw ▸ does_immediate .result size m, hgets.steady (by decide) (by decide), ?_⟩
    exact hgets.value.trans hword
  · refine (store_parked place hl hg' (by decide)).mono fun _ g₁ w ⟨hg₁, hw⟩ => ⟨hg₁ ▸ hg', ?_⟩
    exact Frame.takes_store hf hroom hl (fun _ => rfl) (fun _ _ _ => rfl) hw

theorem free_yields (hf : ctx.frame.Bounded) (hg : g.saved = false) {pointer : VReg} {l : Location}
    (hl : ctx.frame.location? pointer = some l) :
    (ctx.instr (.free pointer)).Yields g fun _ g' w =>
      g'.saved = false ∧ ctx.Calls place (.free pointer) w := by
  rw [instr]
  refine callRoutine_yields hf hg rfl (fun area g' hg' => ?_) fun area g' hroom hg' => ?_
  · refine (loadInto_parked place area hl hg' .result).mono fun _ g₁ w ⟨hg₁, hw⟩ =>
      ⟨hg₁ ▸ hg', fun regs m hm => ?_⟩
    obtain ⟨m₁, hrun, hgets⟩ := hw hm
    exact ⟨m₁, hrun, hgets.steady (by decide) (by decide), hgets.value⟩
  · exact ⟨(), g', [], rfl, hg', Frame.takes_nil hf hroom (fun _ => rfl) fun _ _ _ => rfl⟩

/-- A value is put into the second argument register, and the address of a format string into the first. -/
theorem passing_yields (f : Format) {first : Emit Unit} {value : (VReg → Word) → Machine → Word}
    (hg : ctx.Saved g)
    (hfirst : first.Yields g fun _ g' w => g' = g ∧ ∀ ⦃regs m⦄, ctx.frame.Parked regs area m →
      ∃ m', Does place w m m' ∧ m.Gets (.x 1) (value regs m) m') :
    (do
      first
      formatAddress f .result : Emit Unit).Yields g fun _ g' w => ctx.Saved g' ∧
        ∀ ⦃regs m⦄, ctx.frame.Parked regs area m → ∃ m', Does place w m m' ∧ m.Steady m' ∧
          m'.regs (.x 1) = value regs m ∧ m'.regs (.x 0) = place (.format f) := by
  refine hfirst.bind fun _ g₁ w₁ ⟨hg₁, hw₁⟩ => ?_
  subst hg₁
  refine (formatAddress_yields place f .result).mono fun _ g₂ w₂ ⟨hg₂, hw₂⟩ =>
    ⟨hg₂.trans hg, fun regs m hm => ?_⟩
  obtain ⟨m₁, hrun₁, hgets₁⟩ := hw₁ hm
  obtain ⟨m₂, hrun₂, hgets₂⟩ := hw₂ m₁
  have hsteady : m.Steady m₂ :=
    (hgets₁.steady (by decide) (by decide)).trans (hgets₂.steady (by decide) (by decide))
  refine ⟨m₂, hrun₁.trans hrun₂, hsteady, ?_, hgets₂.value⟩
  rw [hgets₂.others _ (by decide) (by decide), hgets₁.value]

/-- The value and the format string are passed. -/
theorem print_yields (hf : ctx.frame.Bounded) (hg : g.saved = false) {source : VReg} {l : Location}
    (hl : ctx.frame.location? source = some l) (f : Format) (hcallee : f.routine = site.callee)
    (hpasses : ∀ {regs m}, m.regs (.x 1) = regs source → m.regs (.x 0) = place (.format f) →
      site.Passes place ctx.frame regs m)
    (hgiven : ∀ m, site.given m = none) (hafter : ∀ regs m m', site.after regs m m' = regs) :
    (ctx.print source f).Yields g fun _ g' w => g'.saved = false ∧ ctx.Calls place site w := by
  rw [print]
  refine callRoutine_yields hf hg hcallee (fun area g' hg' => ?_) fun area g' hroom hg' => ?_
  · have hpassing := passing_yields f hg' (loadInto_parked place area hl hg' (.x 1))
    refine hpassing.mono fun _ g₁ w ⟨hg₁, hw⟩ => ⟨hg₁, fun regs m hm => ?_⟩
    obtain ⟨m₁, hrun, hsteady, hvalue, hformat⟩ := hw hm
    exact ⟨m₁, hrun, hsteady, hpasses hvalue hformat⟩
  · exact ⟨(), g', [], rfl, hg', Frame.takes_nil hf hroom hgiven hafter⟩

theorem read_yields (hf : ctx.frame.Bounded) (hg : g.saved = false) {target : VReg} {name : String}
    {l : Location} (hl : ctx.frame.location? target = some l) :
    (ctx.instr (.read target name)).Yields g fun _ g' w =>
      g'.saved = false ∧ ctx.Calls place (.read target name) w := by
  rw [instr]
  refine callRoutine_yields hf hg rfl (fun area g' hg' => ?_) fun area g' hroom hg' => ?_
  · have hfirst := (homeAddress_yields (g := g') place hl (.x 1)).mono fun _ g₁ w ⟨hg₁, hw⟩ =>
      (⟨hg₁, fun _ m _ => hw m⟩ : g₁ = g' ∧ ∀ ⦃regs m⦄, ctx.frame.Parked regs area m →
        ∃ m', Does place w m m' ∧ m.Gets (.x 1) (m.home l) m')
    refine (passing_yields .read hg' hfirst).mono fun _ g₁ w ⟨hg₁, hw⟩ => ⟨hg₁, fun regs m hm => ?_⟩
    obtain ⟨m₁, hrun, hsteady, haddress, hformat⟩ := hw hm
    refine ⟨m₁, hrun, hsteady, ⟨l, hl, ?_⟩, hformat⟩
    rw [haddress, Machine.home_congr hsteady.fp hsteady.sp]
  · exact ⟨(), g', [], rfl, hg', Frame.takes_read hf hroom target name⟩

/-! ### Calls of functions -/

/-- **Arguments.** Every argument register gets the value of its argument. An argument that was a
parameter is loaded from where it is saved, so that no argument gets the value of one before it. -/
theorem arguments_yields (place : Symbol → Word) (area : Nat) {is : List Argument} (hnodup : is.Nodup)
    {arguments : List VReg} (hlocated : ∀ r ∈ arguments, ∃ l, ctx.frame.location? r = some l)
    (hg : ctx.Saved g) :
    ((is.zip arguments).forM fun a => do
      ctx.loadInto a.2 a.1.reg
      occupy a.1 : Emit Unit).Yields g fun _ g' w => ctx.Saved g' ∧
        ∀ ⦃regs m⦄, ctx.frame.Parked regs area m → ∃ m', Does place w m m' ∧ m.Steady m' ∧
          (∀ q ∈ is.zip arguments, m'.regs q.1.reg = regs q.2) ∧
          ∀ i ∉ is, m'.regs i.reg = m.regs i.reg := by
  induction is generalizing arguments g with
  | nil =>
    exact ⟨(), g, [], rfl, hg, fun _ m _ => ⟨m, Does.nil place m, .refl m, nofun, fun _ _ => rfl⟩⟩
  | cons i is ih =>
    cases arguments with
    | nil =>
      exact ⟨(), g, [], rfl, hg, fun _ m _ => ⟨m, Does.nil place m, .refl m, nofun, fun _ _ => rfl⟩⟩
    | cons r arguments =>
      obtain ⟨hi, hnodup⟩ := List.nodup_cons.1 hnodup
      obtain ⟨l, hl⟩ := hlocated r (List.mem_cons_self ..)
      have hload : (do
          ctx.loadInto r i.reg
          occupy i : Emit Unit).Yields g fun _ g' w => ctx.Saved g' ∧
            ∀ ⦃regs m⦄, ctx.frame.Parked regs area m →
              ∃ m', Does place w m m' ∧ m.Gets i.reg (regs r) m' := by
        refine (loadInto_parked place area hl hg i.reg).bind fun _ g₁ w₁ ⟨hg₁, hw₁⟩ => ?_
        refine ⟨(), _, [], rfl, ?_, by rwa [List.append_nil]⟩
        exact hg₁ ▸ hg
      refine hload.bind fun _ g₁ w₁ ⟨hg₁, hw₁⟩ => ?_
      refine (ih hnodup (fun r' hr' => hlocated r' (List.mem_cons_of_mem _ hr')) hg₁).mono
        fun _ g₂ w₂ ⟨hg₂, hw₂⟩ => ⟨hg₂, fun regs m hm => ?_⟩
      obtain ⟨m₁, hrun₁, hgets⟩ := hw₁ hm
      have hsteady := hgets.steady (Argument.reg_ne_fp i) (Argument.reg_ne_sp i)
      -- The later arguments come from memory, which loading this one has not changed.
      obtain ⟨m₂, hrun₂, hsteady₂, hvalues, hothers⟩ := hw₂ (hm.steady hsteady)
      refine ⟨m₂, hrun₁.trans hrun₂, hsteady.trans hsteady₂, fun q hq => ?_, fun j hj => ?_⟩
      · rcases List.mem_cons.1 hq with rfl | hq
        · rw [hothers i hi, hgets.value]
        · exact hvalues q hq
      · rw [List.mem_cons, not_or] at hj
        rw [hothers j hj.2, hgets.others _ (fun e => hj.1 (Argument.reg_injective e))
          (Argument.reg_ne_far j)]

/-- The area around a call of a function. -/
def callArea (ctx : Context) (arguments : List VReg) : Nat :=
  Word.areaBytes (max arguments.length ctx.frame.parameterRegs.length)

theorem push_yields (place : Symbol → Word) (hf : ctx.frame.Bounded) (hg : g.saved = false)
    {arguments : List VReg} (hlocated : ∀ r ∈ arguments, ∃ l, ctx.frame.location? r = some l)
    (hfits : arguments.length ≤ Limit.maxArguments) (callee : String) (target : Option VReg) :
    (ctx.instr (.push arguments callee)).Yields g fun _ g' w => ctx.Saved g' ∧ ∃ w₁ w₂, w = w₁ ++ w₂ ∧
      ctx.frame.Parks place (ctx.callArea arguments) w₁ ∧
      ctx.frame.Prepares place (ctx.callArea arguments) (.function arguments callee target) w₂ := by
  rw [instr, push, if_neg (Nat.not_lt.2 hfits)]
  refine (saveParameters_yields place hf hg hfits).bind fun _ g₁ w₁ ⟨harea, hg₁, hparks⟩ => ?_
  rw [harea] at hparks
  refine (arguments_yields place (ctx.callArea arguments) (List.nodup_finRange _) hlocated hg₁).mono
    fun _ g₂ w₂ ⟨hg₂, hw₂⟩ => ⟨hg₂, w₁, w₂, rfl, hparks, fun regs m hm => ?_⟩
  obtain ⟨m₁, hrun, hsteady, hvalues, -⟩ := hw₂ hm
  refine ⟨m₁, hrun, hsteady, fun i r hr => hvalues (i, r) ?_⟩
  refine List.mem_of_getElem? (i := i.val) (List.getElem?_zip_eq_some.2 ⟨?_, hr⟩)
  simp

theorem pop_yields (place : Symbol → Word) (hf : ctx.frame.Bounded) (hg : ctx.Saved g)
    {arguments : List VReg} (hfits : arguments.length ≤ Limit.maxArguments) (callee : String) :
    (ctx.instr (.pop arguments callee)).Yields g fun _ g' w => g'.saved = false ∧
      ctx.frame.Unparks place (ctx.callArea arguments) w := by
  rw [instr, pop]
  refine (restoreParameters_yields place hg (Frame.room_areaBytes hf hfits)).bind
    fun _ g₁ w₁ ⟨hg₁, hunparks⟩ => ?_
  exact ⟨(), _, [], rfl, hg₁, by rwa [List.append_nil]⟩

/-- The code of an instruction and of those after it. -/
theorem body_cons_yields {i : Linear.Instr} {is : List Linear.Instr} {Q : Generator → List Line → Prop}
    {R : Generator → List Line → Prop} (h : (ctx.instr i).Yields g fun _ g' w => Q g' w)
    (hrest : ∀ ⦃g' g'' w⦄, Q g' w → g''.saved = g'.saved →
      (ctx.body is).Yields g'' fun _ g₁ w' => R g₁ (w ++ w')) :
    (ctx.body (i :: is)).Yields g fun _ g' w => R g' w := by
  have hstep : (do
      ctx.instr i
      releaseScratch : Emit Unit).Yields g fun _ g' w => ∃ g₀, Q g₀ w ∧ g'.saved = g₀.saved :=
    h.bind fun _ g₀ w hQ => ⟨(), _, [], rfl, g₀, by rwa [List.append_nil], rfl⟩
  exact hstep.bind fun _ g'' w ⟨g₀, hQ, hsaved⟩ => hrest hQ hsaved

theorem body_single_yields {i : Linear.Instr} {Q : List Line → Prop}
    (h : (ctx.instr i).Yields g fun _ g' w => g'.saved = false ∧ Q w) :
    (ctx.body [i]).Yields g fun _ g' w => g'.saved = false ∧ Q w :=
  body_cons_yields h fun _ g'' w hQ hsaved =>
    ⟨(), g'', [], rfl, hsaved.trans hQ.1, by rw [List.append_nil]; exact hQ.2⟩

/-- What follows the call: the result is stored if it is wanted, and the parameters are restored. -/
theorem taking_yields (place : Symbol → Word) (hf : ctx.frame.Bounded) (hg : ctx.Saved g)
    {arguments : List VReg} (hfits : arguments.length ≤ Limit.maxArguments) (callee : String)
    {target : Option VReg} (hlocated : ∀ r ∈ target, ∃ l, ctx.frame.location? r = some l) :
    (ctx.body ((CallSite.function arguments callee target).instrs.drop 2)).Yields g fun _ g' w =>
      g'.saved = false ∧ ∃ w₁ w₂, w = w₁ ++ w₂ ∧
        ctx.frame.Takes place (ctx.callArea arguments) (.function arguments callee target) w₁ ∧
        ctx.frame.Unparks place (ctx.callArea arguments) w₂ := by
  have hroom : ctx.frame.Room (ctx.callArea arguments) := Frame.room_areaBytes hf hfits
  have hpop : ∀ {g'}, ctx.Saved g' → (ctx.body [.pop arguments callee]).Yields g' fun _ g₁ w =>
      g₁.saved = false ∧ ctx.frame.Unparks place (ctx.callArea arguments) w := fun hg' =>
    body_single_yields (pop_yields place hf hg' hfits callee)
  cases target with
  | none =>
    refine (hpop hg).mono fun _ g₁ w ⟨hg₁, hunparks⟩ => ⟨hg₁, [], w, rfl, ?_, hunparks⟩
    exact Frame.takes_nil hf hroom (fun _ => rfl) fun _ _ _ => rfl
  | some r =>
    obtain ⟨l, hl⟩ := hlocated r rfl
    refine body_cons_yields (store_parked place hl hg (by decide)) fun g₁ g₂ w₁ ⟨hg₁, hw₁⟩ hsaved => ?_
    have hg₂ : ctx.Saved g₂ := hsaved.trans (hg₁ ▸ hg)
    refine (hpop hg₂).mono fun _ g₃ w₂ ⟨hg₃, hunparks⟩ => ⟨hg₃, w₁, w₂, rfl, ?_, hunparks⟩
    exact Frame.takes_store hf hroom hl (fun _ => rfl) (fun _ _ _ => rfl) hw₁

theorem function_yields (hf : ctx.frame.Bounded) (hg : g.saved = false) {arguments : List VReg}
    {callee : String} {target : Option VReg}
    (harguments : ∀ r ∈ arguments, ∃ l, ctx.frame.location? r = some l)
    (htarget : ∀ r ∈ target, ∃ l, ctx.frame.location? r = some l)
    (hfits : arguments.length ≤ Limit.maxArguments) :
    (ctx.body (CallSite.function arguments callee target).instrs).Yields g fun _ g' w =>
      g'.saved = false ∧ ctx.Calls place (.function arguments callee target) w := by
  have hsplit : (CallSite.function arguments callee target).instrs =
      .push arguments callee :: .call callee ::
        (CallSite.function arguments callee target).instrs.drop 2 := by
    cases target <;> rfl
  rw [hsplit]
  refine body_cons_yields (push_yields place hf hg harguments hfits callee target)
    fun g₁ g₂ w₁ hpush hsaved₁ => ?_
  obtain ⟨hg₁, wp, wq, rfl, hparks, hprepares⟩ := hpush
  refine body_cons_yields (emit_yields (.call (.name callee)) g₂) fun g₃ g₄ w₂ ⟨hg₃, hw₂⟩ hsaved₂ => ?_
  subst hg₃ hw₂
  have hg₄ : ctx.Saved g₄ := hsaved₂.trans (hsaved₁.trans hg₁)
  refine (taking_yields place hf hg₄ hfits callee htarget).mono fun _ g₅ w₃ htaking => ?_
  obtain ⟨hg₅, wr, ws, rfl, htakes, hunparks⟩ := htaking
  refine ⟨hg₅, ?_⟩
  rw [List.append_assoc]
  exact calls_of_parts hparks hprepares htakes hunparks

/-- **Call sites.** Take a frame that was laid out and a call site that fits and whose registers have
homes. From a generator where the parameters are in their registers the code of the call site is
generated, with the parameters in their registers afterwards, and it passes the right values and loses
nothing. -/
theorem callSite_loses_nothing {name : String} {body : List Linear.Instr} {parameters : List VReg}
    {frame : Frame} (hlayout : Frame.layout name body parameters = .ok frame) {site : CallSite}
    (hlocated : ∀ r ∈ site.registers, ∃ l, frame.location? r = some l) (hfits : site.Fits)
    {g : Generator} (hg : g.saved = false) (place : Symbol → Word) :
    ∃ g' lines, (Context.body ⟨name, frame⟩ site.instrs).run g = ⟨.ok (), g', lines⟩ ∧
      g'.saved = false ∧ Context.Calls ⟨name, frame⟩ place site lines := by
  obtain ⟨-, hf⟩ := Frame.bounded_of_layout hlayout
  have hyields : (Context.body ⟨name, frame⟩ site.instrs).Yields g fun _ g' w =>
      g'.saved = false ∧ Context.Calls ⟨name, frame⟩ place site w := by
    cases site with
    | function arguments callee target =>
      refine function_yields hf hg (fun r hr => hlocated r ?_) (fun r hr => hlocated r ?_) hfits
      · cases target <;> exact List.mem_append_left _ (List.mem_append_left _ hr)
      · cases hr
        simp [CallSite.registers, CallSite.instrs, Linear.Instr.target?]
    | alloc target struct fields =>
      obtain ⟨l, hl⟩ := hlocated target (List.mem_singleton_self _)
      exact body_single_yields (alloc_yields hf hg hl hfits)
    | free pointer =>
      obtain ⟨l, hl⟩ := hlocated pointer (List.mem_singleton_self _)
      exact body_single_yields (free_yields hf hg hl)
    | print source =>
      obtain ⟨l, hl⟩ := hlocated source (List.mem_singleton_self _)
      exact body_single_yields (print_yields hf hg hl .print rfl (fun hx₁ hx₀ => ⟨hx₁, hx₀⟩)
        (fun _ => rfl) fun _ _ _ => rfl)
    | println source =>
      obtain ⟨l, hl⟩ := hlocated source (List.mem_singleton_self _)
      exact body_single_yields (print_yields hf hg hl .println rfl (fun hx₁ hx₀ => ⟨hx₁, hx₀⟩)
        (fun _ => rfl) fun _ _ _ => rfl)
    | read target name =>
      obtain ⟨l, hl⟩ := hlocated target (List.mem_singleton_self _)
      exact body_single_yields (read_yields hf hg hl)
  obtain ⟨_, g', w, hrun, hg', hcalls⟩ := hyields
  exact ⟨g', w, hrun, hg', hcalls⟩

/-- A function with the parameters 10 and 20 calls another with the two exchanged, and takes the result
into its first parameter. -/
theorem callSite_loses_nothing_exchanged :
    ∃ g' lines m₁ rest, (Context.body ⟨"f", ⟨[⟨0⟩, ⟨1⟩], []⟩⟩
        [.push [⟨1⟩, ⟨0⟩] "g", .call "g", .result ⟨0⟩, .pop [⟨1⟩, ⟨0⟩] "g"]).run {}
          = ⟨.ok (), g', lines⟩ ∧
      run (fun _ => 0) lines none
        ⟨fun r => if r = .x 0 then 10 else if r = .x 1 then 20 else 4096, .ofCompare 0 0, fun _ => 0⟩
          = (m₁, .call (.name "g") rest) ∧
      m₁.regs (.x 0) = 20 ∧ m₁.regs (.x 1) = 10 ∧
      ∀ m₂, m₁.Returns none m₂ → ∃ m₃, run (fun _ => 0) rest none m₂ = (m₃, .fell) ∧
        m₃.regs (.x 0) = m₂.regs (.x 0) ∧ m₃.regs (.x 1) = 20 ∧ m₃.regs .sp = 4096 := by
  have hlayout : Frame.layout "f" [] [⟨0⟩, ⟨1⟩] = .ok ⟨[⟨0⟩, ⟨1⟩], []⟩ := rfl
  have hlocated : ∀ r ∈ (CallSite.function [⟨1⟩, ⟨0⟩] "g" (some ⟨0⟩)).registers,
      (Frame.location? ⟨[⟨0⟩, ⟨1⟩], []⟩ r).isSome := by decide
  obtain ⟨g', lines, hrun, -, hcalls⟩ := callSite_loses_nothing hlayout
    (fun r hr => Option.isSome_iff_exists.1 (hlocated r hr)) (show 2 ≤ 8 by decide) (g := {}) rfl
    fun _ => 0
  have hholds : Frame.Holds ⟨[⟨0⟩, ⟨1⟩], []⟩ (fun r => if r = ⟨0⟩ then 10 else 20)
      ⟨fun r => if r = .x 0 then 10 else if r = .x 1 then 20 else 4096, .ofCompare 0 0,
        fun _ => 0⟩ := by
    refine ⟨fun hr => absurd (Frame.lt_of_slot hr) (Nat.not_lt_zero _), fun {r i} hr => ?_⟩
    have hget := Frame.getElem?_of_parameter? (Frame.parameter?_of_location? hr)
    match i with
    | ⟨0, _⟩ => cases hget; rfl
    | ⟨1, _⟩ => cases hget; rfl
    | ⟨n + 2, _⟩ => cases hget
  obtain ⟨m₁, rest, hcall, hpasses, -, -, hreturn⟩ := hcalls hholds rfl
  refine ⟨g', lines, m₁, rest, hrun, hcall, hpasses ⟨0, by decide⟩ ⟨1⟩ rfl,
    hpasses ⟨1, by decide⟩ ⟨0⟩ rfl, fun m₂ hreturns => ?_⟩
  obtain ⟨m₃, hrest, hend, -, hsp, -⟩ := hreturn m₂ hreturns
  exact ⟨m₃, hrest, hend.parameter (r := ⟨0⟩) (i := ⟨0, by decide⟩) rfl,
    hend.parameter (r := ⟨1⟩) (i := ⟨1, by decide⟩) rfl, hsp⟩

end Context

end Spillway.Arm64
