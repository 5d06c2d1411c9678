import Mathlib.Logic.Function.Iterate
import Mathlib.Order.Defs.LinearOrder
import Spillway.Proofs.Arm64.Renaming
import Spillway.Proofs.Lowering.Branches
import Spillway.Proofs.Lowering.Shift
import Spillway.Proofs.Program.Assembled
import Spillway.Proofs.Session.Compile

/-!
# What the counters of a session show

A session goes on drawing registers and labels from where the last program left off. The registers that
it draws do not show in the assembly at all. The labels do, by their numbers, and nothing else does: a
program that is compiled again has the same assembly with other numbers in its labels. This is so as long
as the counters, which have 32 bits, do not run out, and if the registers of the program's variables had
been drawn before.

* `Shift.generate_run` — code generation from the same program lowered from two pairs of counters.
* `Session.counters_show_only_in_numbers` — lowering, code generation and repeated compilation.
* `Session.counters_show_in_sumDown` — neither of the two conditions can be left out.
-/

namespace Spillway

open Linear (Fragment)

/-! ### Draws with 32 bits -/

/-- A draw that is counted is the draw of a counter of 32 bits. -/
theorem Lowering.freshRegister_counted {c : Counters} (h : c.Countable) :
    freshRegister.counted.eval c = (c.nextRegister.map Prod.fst).mapError .trap := by
  rw [Journal.counted_eval, Counters.nextRegister]
  show (if (⟨c.registers + 1, c.labels⟩ : Counters).Countable then _ else _) = _
  by_cases hnext : c.registers + 1 < Counters.capacity
  · rw [if_pos ⟨hnext, h.2⟩, if_pos hnext]
    rfl
  · rw [if_neg fun hend => hnext hend.1, if_neg hnext]
    rfl

theorem Lowering.freshLabel_counted {c : Counters} (h : c.Countable) (stem : String) :
    (freshLabel stem).counted.eval c = ((c.nextLabel stem).map Prod.fst).mapError .trap := by
  rw [Journal.counted_eval, Counters.nextLabel]
  show (if (⟨c.registers, c.labels + 1⟩ : Counters).Countable then _ else _) = _
  by_cases hnext : c.labels + 1 < Counters.capacity
  · rw [if_pos ⟨h.1, hnext⟩, if_pos hnext]
    rfl
  · rw [if_neg fun hend => hnext hend.2, if_neg hnext]
    rfl

/-! ### One renaming after another -/

theorem Failure.rename_rename (f g : VReg → VReg) (e : Failure) :
    (e.rename f).rename g = e.rename (g ∘ f) := by
  rcases e with _ | _ | d
  · rfl
  · rfl
  · cases d <;> rfl

namespace Arm64

theorem Symbol.relabel_relabel (f g : Label → Label) (s : Symbol) :
    (s.relabel f).relabel g = s.relabel (g ∘ f) := by
  cases s <;> rfl

theorem Line.relabel_comp (f g : Label → Label) : Line.relabel g ∘ Line.relabel f = Line.relabel (g ∘ f) := by
  funext l
  show (l.relabel f).relabel g = l.relabel (g ∘ f)
  rcases l with i | s | d
  · cases i <;> simp [Line.relabel, Instr.relabel, Symbol.relabel_relabel]
  · simp [Line.relabel, Symbol.relabel_relabel]
  · cases d <;> simp [Line.relabel, Symbol.relabel_relabel]

theorem Notice.rename_comp (f g : VReg → VReg) : Notice.rename g ∘ Notice.rename f = Notice.rename (g ∘ f) := by
  funext n
  cases n <;> rfl

/-- Generated code under one renaming and then another is generated code under both. -/
theorem generation_comp (ρ σ : Renaming) (r : Run Failure Generator Notice (List Line)) :
    (generation ρ).run (List.map (Line.relabel ρ.label))
        ((generation σ).run (List.map (Line.relabel σ.label)) r)
      = (generation (ρ.comp σ)).run (List.map (Line.relabel (ρ.comp σ).label)) r := by
  have hnotices : (r.entries.map (Notice.rename σ.reg)).map (Notice.rename ρ.reg)
      = r.entries.map (Notice.rename (ρ.reg ∘ σ.reg)) := by
    rw [List.map_map, Notice.rename_comp]
  refine Run.ext ?_ rfl hnotices
  rcases r with ⟨e | lines, g, ns⟩
  · exact congrArg Except.error (e.rename_rename σ.reg ρ.reg)
  · show Except.ok ((lines.map (Line.relabel σ.label)).map (Line.relabel ρ.label)) = _
    rw [List.map_map, Line.relabel_comp]
    rfl

end Arm64

/-! ### Shifts to and fro -/

namespace Shift

variable {s : Shift}

/-- The shift the other way. -/
def back (s : Shift) : Shift := ⟨s.target, s.source⟩

theorem id_reg (s : Shift) (r : VReg) : (s.reg r).id =
    if r.id < s.source.registers then r.id else r.id + s.target.registers - s.source.registers :=
  apply_ite VReg.id ..

theorem reg_injective (h : s.source.registers ≤ s.target.registers) : Function.Injective s.reg := by
  intro r r' hr
  have hid : (s.reg r).id = (s.reg r').id := congrArg VReg.id hr
  rw [id_reg, id_reg] at hid
  apply VReg.ext
  split at hid <;> split at hid <;> omega

theorem back_reg_reg (h : s.source.registers ≤ s.target.registers) : s.back.reg ∘ s.reg = id := by
  funext r
  apply VReg.ext
  show (s.back.reg (s.reg r)).id = r.id
  rw [id_reg, id_reg]
  show (if _ < s.target.registers then _ else _ + s.source.registers - s.target.registers) = r.id
  split <;> split <;> omega

theorem rename_symbols {t : SymbolTable} (h : t.Below s.source.registers) : t.rename s.reg = t :=
  SymbolTable.rename_eq_self fun hv => reg_of_lt (h hv)

/-- **Code generation after a shift.** The two lists of fragments are each other's shift. If registers
are moved up, no two become the same, and the names of registers do not matter. If they are moved down,
the same is true of the way back. -/
theorem generate_run {t : SymbolTable} (hsource : t.Below s.source.registers)
    (htarget : t.Below s.target.registers) {fragments : List Fragment}
    (hback : (fragments.map (Fragment.rename s.moves)).map (Fragment.rename s.back.moves) = fragments)
    (g : Arm64.Generator) :
    (Arm64.generate (fragments.map (Fragment.rename s.moves)) t).run g
      = (Arm64.generation s.moves).run (List.map (Arm64.Line.relabel s.label))
        ((Arm64.generate fragments t).run g) := by
  rcases Nat.le_total s.source.registers s.target.registers with hle | hle
  · obtain ⟨-, hrun⟩ := Arm64.generate_carries (ρ := s.moves) (reg_injective hle) fragments t g trivial
    rw [show t.rename s.moves.reg = t from rename_symbols hsource] at hrun
    exact hrun
  · -- back and forth, registers are where they were, so that only labels are renamed
    have hcomp : s.moves.comp s.back.moves = .labels (s.label ∘ s.back.label) := by
      show Renaming.mk (s.reg ∘ s.back.reg) _ = _
      rw [show s.reg ∘ s.back.reg = id from back_reg_reg (s := s.back) hle]
      rfl
    generalize hmoved : fragments.map (Fragment.rename s.moves) = moved at hback ⊢
    obtain ⟨-, hrun⟩ := Arm64.generate_carries (ρ := s.back.moves) (reg_injective hle) moved t g trivial
    rw [hback, show t.rename s.back.moves.reg = t from rename_symbols htarget] at hrun
    have hlabels : moved.map (Fragment.rename (.labels (s.label ∘ s.back.label))) = moved := by
      calc moved.map (Fragment.rename (.labels (s.label ∘ s.back.label)))
          = (moved.map (Fragment.rename s.back.moves)).map (Fragment.rename s.moves) := by
            rw [← hcomp, List.map_map]
            exact List.map_congr_left fun frag _ => frag.rename_rename.symm
        _ = moved := by rw [hback, hmoved]
    obtain ⟨-, hrun'⟩ := Arm64.generate_carries (ρ := .labels (s.label ∘ s.back.label))
      Function.injective_id moved t g trivial
    rw [hlabels, show t.rename (Renaming.labels _).reg = t from SymbolTable.rename_eq_self fun _ => rfl,
      ← hcomp, ← Arm64.generation_comp] at hrun'
    exact hrun'.trans (congrArg _ hrun.symm)

end Shift

/-- Every label in lowered code is one that was drawn for it. -/
theorem Program.label_drawn {p : Program} {c c' : Counters} {fragments : List Fragment}
    {w : List Lowering.Notice} (h : p.lower.run c = ⟨.ok fragments, c', w⟩) {frag : Fragment}
    (hfrag : frag ∈ fragments) {i : Linear.Instr} (hi : i ∈ frag.body) {l : Label} (hl : i.label? = some l) :
    ∃ stem n, l = .numbered stem n ∧ c.labels ≤ n := by
  obtain ⟨-, ⟨ns, hns, hdraws⟩, hresolved⟩ := labels_of_lower h
  have hdefined : l ∈ Linear.labels frag.body := by
    cases i with
    | label l' =>
      cases hl
      exact List.mem_filterMap.2 ⟨_, hi, rfl⟩
    | branch guard l' =>
      cases hl
      exact (hresolved frag hfrag).within (List.Subset.refl _) (List.mem_filterMap.2 ⟨_, hi, rfl⟩)
    | _ => cases hl
  have hmem : l ∈ Linear.labels (fragments.flatMap (·.body)) := by
    obtain ⟨i', hi', hl'⟩ := List.mem_filterMap.1 hdefined
    exact List.mem_filterMap.2 ⟨i', List.mem_flatMap.2 ⟨frag, hfrag, hi'⟩, hl'⟩
  have hnumber : l.number? ∈ ns.map some := by
    rw [← hns]
    exact List.mem_map_of_mem hmem
  obtain ⟨n, hn, hln⟩ := List.mem_map.1 hnumber
  cases l with
  | named text => cases hln
  | numbered stem m =>
    cases hln
    exact ⟨stem, n, rfl, ((hdraws.2 n).1 hn).1⟩

/-- Counters from which this many more registers and labels were drawn. -/
def Counters.plus (c : Counters) (registers labels : Nat) : Counters :=
  ⟨c.registers + registers, c.labels + labels⟩

theorem Counters.plus_reaches (c : Counters) (n m : Nat) {j k : Nat} (h : j ≤ k) :
    (c.plus (j * n) (j * m)).Reaches (c.plus (k * n) (k * m)) :=
  ⟨Nat.add_le_add_left (Nat.mul_le_mul_right n h) _, Nat.add_le_add_left (Nat.mul_le_mul_right m h) _⟩

namespace Program

variable {p : Program} {s : Shift}

/-- Lowering from the one pair of counters and from the other. -/
theorem lower_shift (f : VReg → VReg) (h : p.symbols.Below s.source.registers) :
    (s.lowering f).covers (p.lower.run s.source).state ∧
      p.lower.run s.target
        = (s.reporting f).run (List.map (Fragment.rename s.moves)) (p.lower.run s.source) := by
  have hstart : s.counters s.source = s.target := by
    unfold Shift.counters
    ext <;> dsimp only <;> omega
  obtain ⟨hcovers, hrun⟩ := lower_carries (f := f) h s.source ⟨Nat.le_refl _, Nat.le_refl _⟩
  rw [show (s.reporting f).state s.source = s.target from hstart] at hrun
  exact ⟨hcovers, hrun⟩

/-- **Fragments** are moved, or else the report is the same. It names no register, so that it may as well be
given under other names. -/
theorem lower_eval (f : VReg → VReg) (h : p.symbols.Below s.source.registers) :
    p.lower.eval s.target
      = ((p.lower.eval s.source).map (List.map (Fragment.rename s.moves))).mapError (Defect.rename f) :=
  congrArg Run.result (lower_shift f h).2

theorem lower_eval_same (h : p.symbols.Below s.source.registers) :
    p.lower.eval s.target = (p.lower.eval s.source).map (List.map (Fragment.rename s.moves)) := by
  rw [lower_eval id h]
  cases p.lower.eval s.source with
  | error d => cases d <;> rfl
  | ok fragments => rfl

/-- The same with counters of 32 bits, if they are large enough. -/
theorem lower_counted_eval (h : p.symbols.Below s.source.registers) (hsource : (p.lower.run s.source).state.Countable)
    (htarget : (p.lower.run s.target).state.Countable) :
    p.lower.counted.eval s.target = (p.lower.counted.eval s.source).map (List.map (Fragment.rename s.moves)) := by
  rw [Journal.counted_eval, Journal.counted_eval, if_pos hsource, if_pos htarget, lower_eval_same h]
  cases p.lower.eval s.source <;> rfl

/-- As much is drawn from the one pair of counters as from the other. -/
theorem lower_state (h : p.symbols.Below s.source.registers) : ∃ n m,
    (p.lower.run s.source).state = s.source.plus n m ∧ (p.lower.run s.target).state = s.target.plus n m := by
  obtain ⟨⟨hregisters, hlabels⟩, hrun⟩ := lower_shift id h
  have hend : (p.lower.run s.target).state = s.counters (p.lower.run s.source).state :=
    congrArg Run.state hrun
  refine ⟨(p.lower.run s.source).state.registers - s.source.registers,
    (p.lower.run s.source).state.labels - s.source.labels, ?_, ?_⟩
  · unfold Counters.plus
    ext <;> dsimp only <;> omega
  · rw [hend]
    unfold Counters.plus Shift.counters
    ext <;> dsimp only <;> omega

/-- **Assembly** of the fragments that a program is lowered to from the other counters. -/
theorem generate_eval (hsource : p.symbols.Below s.source.registers)
    (htarget : p.symbols.Below s.target.registers) {fragments : List Fragment}
    (h : p.lower.eval s.source = .ok fragments) (g : Arm64.Generator) :
    (Arm64.generate (fragments.map (Fragment.rename s.moves)) p.symbols).eval g
      = (((Arm64.generate fragments p.symbols).eval g).map (List.map (Arm64.Line.relabel s.label))).mapError
        (Failure.rename s.reg) := by
  have hback : p.lower.eval s.source = (p.lower.eval s.target).map (List.map (Fragment.rename s.back.moves)) :=
    lower_eval_same (s := s.back) htarget
  rw [lower_eval_same hsource, h] at hback
  exact congrArg Run.result (Shift.generate_run hsource htarget (Except.ok.inj hback).symm g)

end Program

/-! ### Sessions -/

namespace Session

/-- An error with the registers under other names. -/
def Error.rename (f : VReg → VReg) : Error → Error
  | .failure e => .failure (e.rename f)
  | .create path cause => .create path cause

/-- **Compilation** from the other counters. Where the assembly is written does not matter. -/
theorem compile_eval {p : Program} {s : Shift} (hsource : p.symbols.Below s.source.registers)
    (htarget : p.symbols.Below s.target.registers) (hfirst : (p.lower.run s.source).state.Countable)
    (hsecond : (p.lower.run s.target).state.Countable) (config : Config) :
    (compile p).eval ⟨config, s.target⟩
      = (((compile p).eval ⟨config, s.source⟩).map (List.map (Arm64.Line.relabel s.label))).mapError
        (Error.rename s.reg) := by
  have hplain : (compile p).eval ⟨{}, s.target⟩
      = (((compile p).eval ⟨{}, s.source⟩).map (List.map (Arm64.Line.relabel s.label))).mapError
        (Error.rename s.reg) := by
    rw [(compile_run p ⟨{}, s.target⟩).2, (compile_run p ⟨{}, s.source⟩).2]
    dsimp only
    rw [Journal.counted_eval, Journal.counted_eval, if_pos hfirst, if_pos hsecond, Program.lower_eval s.reg hsource]
    cases hlower : p.lower.eval s.source with
    | error d => rfl
    | ok fragments =>
      show (((Arm64.generate (fragments.map (Fragment.rename s.moves)) p.symbols).eval {}).mapError
        Error.failure >>= fun lines => return lines) = _
      rw [Program.generate_eval hsource htarget hlower]
      show _ = Except.mapError (Error.rename s.reg) (Except.map (List.map (Arm64.Line.relabel s.label))
        (((Arm64.generate fragments p.symbols).eval {}).mapError Error.failure >>= fun lines => return lines))
      cases (Arm64.generate fragments p.symbols).eval {} <;> rfl
  rw [compile_eval_output p config s.target, compile_eval_output p config s.source, hplain]
  cases (compile p).eval ⟨{}, s.source⟩ with
  | error e => rfl
  | ok lines =>
    rcases config.output with _ | path
    · rfl
    · show ((create path).mapError (Error.create path) >>= fun _ => return lines.map (Arm64.Line.relabel s.label))
        = Except.mapError (Error.rename s.reg) (Except.map (List.map (Arm64.Line.relabel s.label))
          ((create path).mapError (Error.create path) >>= fun _ => return lines))
      cases create path <;> rfl

/-- A program that draws too much does not compile. -/
theorem compile_overflow {p : Program} {c : Counters} (h : ¬ (p.lower.run c).state.Countable) (config : Config) :
    (compile p).eval ⟨config, c⟩ = .error (.failure (.fault (.trap .addOverflow))) := by
  rw [(compile_run p ⟨config, c⟩).2]
  dsimp only
  rw [Journal.counted_eval, if_neg h]
  rfl

theorem state_plus {p : Program} {c : Counters} {n m : Nat} (h : p.symbols.Below c.registers)
    (hstate : (p.lower.run c).state = c.plus n m) (k : Nat) :
    (p.lower.run (c.plus (k * n) (k * m))).state = c.plus ((k + 1) * n) ((k + 1) * m) := by
  obtain ⟨n', m', hfirst, hlater⟩ := Program.lower_state (s := ⟨c, c.plus (k * n) (k * m)⟩) h
  obtain ⟨rfl, rfl⟩ : n' = n ∧ m' = m := by
    rw [hstate] at hfirst
    simpa [Counters.plus, eq_comm] using hfirst
  rw [hlater, Nat.succ_mul, Nat.succ_mul]
  simp only [Counters.plus, Nat.add_assoc]

/-- Compiling the same program time and again draws as much each time. -/
theorem iterate_compile {p : Program} {c : Counters} {n m : Nat} (h : p.symbols.Below c.registers)
    (hstate : (p.lower.run c).state = c.plus n m) (config : Config) {k : Nat}
    (hk : (c.plus (k * n) (k * m)).Countable) :
    (fun t => ((compile p).run t).state)^[k] ⟨config, c⟩ = ⟨config, c.plus (k * n) (k * m)⟩ := by
  induction k with
  | zero => simp [Counters.plus]
  | succ k ih =>
    have hend := state_plus h hstate k
    have hbefore : (c.plus (k * n) (k * m)).Countable := hk.of_reaches (Counters.plus_reaches c n m (Nat.le_succ k))
    rw [Function.iterate_succ_apply', ih hbefore, (compile_run p _).1]
    dsimp only
    rw [Journal.counted_run_of_countable (by rwa [hend]), hend]

/-- **The counters show only in the numbers of labels.** Take a program and two pairs of counters, with the registers
of its variables below both. Lowered from the one as from the other, it draws `n` registers and `m` labels. If a
counter of 32 bits cannot hold that, there is an overflow. If both pairs can, there is the same report, or the
fragments are the same with the registers that are drawn and all labels moved from the first pair to the second; the
assembly is the same with the labels moved, or the failure is the same with its register moved. And a program that is
compiled again and again has the same assembly each time, with its labels moved by as many as a compilation draws,
until the counters overflow. -/
theorem counters_show_only_in_numbers {p : Program} {s : Shift} (hsource : p.symbols.Below s.source.registers)
    (htarget : p.symbols.Below s.target.registers) : ∃ n m,
    (∀ c ∈ [s.source, s.target], (p.lower.run c).state = c.plus n m ∧
      ((c.plus n m).Countable → (p.lower.counted.run c).state = c.plus n m) ∧
      (¬ (c.plus n m).Countable → p.lower.counted.eval c = .error (.trap .addOverflow))) ∧
    ((s.source.plus n m).Countable → (s.target.plus n m).Countable →
      p.lower.counted.eval s.target
        = (p.lower.counted.eval s.source).map (List.map (Fragment.rename s.moves)) ∧
      ∀ fragments, p.lower.counted.eval s.source = .ok fragments →
        (∀ frag ∈ fragments, ∀ i ∈ frag.body, ∀ l, i.label? = some l →
          ∃ stem number, l = .numbered stem number ∧ s.source.labels ≤ number) ∧
        ∀ g, (Arm64.generateCounted (fragments.map (Fragment.rename s.moves)) p.symbols).eval g
          = (((Arm64.generateCounted fragments p.symbols).eval g).map
              (List.map (Arm64.Line.relabel s.label))).mapError (Failure.rename s.reg)) ∧
    ∀ (config : Config) (k : Nat),
      ((s.source.plus (k * n) (k * m)).Countable →
        (fun t => ((compile p).run t).state)^[k] ⟨config, s.source⟩
          = ⟨config, s.source.plus (k * n) (k * m)⟩) ∧
      ((s.source.plus ((k + 1) * n) ((k + 1) * m)).Countable →
        (compile p).eval ⟨config, s.source.plus (k * n) (k * m)⟩
          = (((compile p).eval ⟨config, s.source⟩).map (List.map (Arm64.Line.relabel
              (Shift.label ⟨s.source, s.source.plus (k * n) (k * m)⟩)))).mapError
            (Error.rename (Shift.reg ⟨s.source, s.source.plus (k * n) (k * m)⟩))) ∧
      (¬ (s.source.plus ((k + 1) * n) ((k + 1) * m)).Countable →
        (compile p).eval ⟨config, s.source.plus (k * n) (k * m)⟩
          = .error (.failure (.fault (.trap .addOverflow)))) := by
  obtain ⟨n, m, hfirst, hsecond⟩ := Program.lower_state hsource
  refine ⟨n, m, ?_, ?_, ?_⟩
  · have hdrawn : ∀ c ∈ [s.source, s.target], (p.lower.run c).state = c.plus n m := by simp [hfirst, hsecond]
    intro c hc
    refine ⟨hdrawn c hc, fun hcount => ?_, fun hcount => ?_⟩
    · rw [Journal.counted_run_of_countable (by rwa [hdrawn c hc]), hdrawn c hc]
    · rw [Journal.counted_eval, if_neg (by rwa [hdrawn c hc])]
  · intro hcount hcount'
    rw [← hfirst] at hcount
    rw [← hsecond] at hcount'
    have hmoved := Program.lower_counted_eval hsource hcount hcount'
    refine ⟨hmoved, fun fragments hfragments => ?_⟩
    have hlower : p.lower.eval s.source = .ok fragments := by
      rw [Journal.counted_eval, if_pos hcount] at hfragments
      exact Journal.mapError_eq_ok_iff.1 hfragments
    refine ⟨fun frag hfrag i hi l hl => Program.label_drawn (Run.ext hlower rfl rfl) hfrag hi hl, fun g => ?_⟩
    rw [hfragments] at hmoved
    unfold Journal.eval
    rw [generateCounted_run hmoved, generateCounted_run hfragments]
    exact Program.generate_eval hsource htarget hlower g
  · intro config k
    have hend := state_plus hsource hfirst k
    refine ⟨iterate_compile hsource hfirst config, fun hcount => ?_, fun hcount => ?_⟩
    · refine compile_eval (s := ⟨s.source, s.source.plus (k * n) (k * m)⟩) hsource (fun hv => ?_) ?_ ?_ config
      · exact Nat.lt_of_lt_of_le (hsource hv) (Nat.le_add_right ..)
      · have hone := Counters.plus_reaches s.source n m (Nat.succ_le_succ (Nat.zero_le k))
        rw [Nat.one_mul, Nat.one_mul] at hone
        show (p.lower.run s.source).state.Countable
        rw [hfirst]
        exact hcount.of_reaches hone
      · show (p.lower.run (s.source.plus (k * n) (k * m))).state.Countable
        rwa [hend]
    · exact compile_overflow (by rwa [hend]) config

/-- `Draft.sumDown` has the registers 0 and 1 for its variables, and draws five registers and two labels when it
is compiled. So do the second and the third time, which moves its labels by four. -/
theorem counters_show_only_in_numbers_sumDown :
    Draft.sumDown.program.symbols.Below 2 ∧ Draft.sumDown.program.symbols.Below 9 ∧ ∃ fragments lines,
      Draft.sumDown.program.lower.counted.eval ⟨2, 0⟩ = .ok fragments ∧
      Draft.sumDown.program.lower.counted.eval ⟨9, 7⟩
        = .ok (fragments.map (Fragment.rename (Shift.moves ⟨⟨2, 0⟩, ⟨9, 7⟩⟩))) ∧
      (compile Draft.sumDown.program).eval ⟨{}, ⟨2, 0⟩⟩ = .ok lines ∧
      (fun t => ((compile Draft.sumDown.program).run t).state)^[2] ⟨{}, ⟨2, 0⟩⟩ = ⟨{}, ⟨12, 4⟩⟩ ∧
      (compile Draft.sumDown.program).eval ⟨{}, ⟨12, 4⟩⟩
        = .ok (lines.map (Arm64.Line.relabel (Shift.label ⟨⟨2, 0⟩, ⟨12, 4⟩⟩))) := by
  have hsource : Draft.sumDown.program.symbols.Below 2 := fun hv =>
    (Draft.Built.fresh (Draft.built_sumDown Draft.Onward)).below hv
  have htarget : Draft.sumDown.program.symbols.Below 9 := fun hv => Nat.lt_trans (hsource hv) (by decide)
  obtain ⟨n, m, hdrawn, hlower, hagain⟩ :=
    counters_show_only_in_numbers (s := ⟨⟨2, 0⟩, ⟨9, 7⟩⟩) hsource htarget
  obtain ⟨rfl, rfl⟩ : 5 = n ∧ 2 = m := by
    have hstate : (Draft.sumDown.program.lower.run ⟨2, 0⟩).state = ⟨7, 2⟩ := rfl
    have heq := hstate.symm.trans (hdrawn _ (List.mem_cons_self ..)).1
    simp [Counters.plus] at heq
    omega
  obtain ⟨hiterate, hlines, -⟩ := hagain {} 2
  refine ⟨hsource, htarget, _, _, rfl, (hlower (by decide) (by decide)).1, rfl, hiterate (by decide),
    hlines (by decide)⟩

/-- **The counters show otherwise in two cases.** Near the end of the counters `Draft.sumDown` cannot be lowered,
although the registers of its variables are below. And in a session whose counters start at zero it is lowered to
registers that its variables have, but not so the second time: it then needs a larger frame and more lines. -/
theorem counters_show_in_sumDown :
    (Draft.sumDown.program.symbols.Below 2 ∧ Draft.sumDown.program.symbols.Below 4294967295 ∧
      (∃ fragments, Draft.sumDown.program.lower.counted.eval ⟨2, 0⟩ = .ok fragments) ∧
      Draft.sumDown.program.lower.counted.eval ⟨4294967295, 0⟩ = .error (.trap .addOverflow)) ∧
    ∃ lines lines',
      (compile Draft.sumDown.program).eval {} = .ok lines ∧
      (compile Draft.sumDown.program).eval ((compile Draft.sumDown.program).run {}).state = .ok lines' ∧
      ∀ f, lines' ≠ lines.map (Arm64.Line.relabel f) := by
  have hbelow : Draft.sumDown.program.symbols.Below 2 := fun hv =>
    (Draft.Built.fresh (Draft.built_sumDown Draft.Onward)).below hv
  refine ⟨⟨hbelow, fun hv => Nat.lt_trans (hbelow hv) (by decide), ⟨_, rfl⟩, rfl⟩, ?_⟩
  obtain ⟨lines, lines', hfirst, hsecond, hlength⟩ : ∃ lines lines',
      (compile Draft.sumDown.program).eval {} = .ok lines ∧
      (compile Draft.sumDown.program).eval ((compile Draft.sumDown.program).run {}).state = .ok lines' ∧
      lines'.length = 61 ∧ lines.length = 59 := ⟨_, _, rfl, rfl, by decide +kernel⟩
  refine ⟨lines, lines', hfirst, hsecond, fun f heq => ?_⟩
  have hsame := congrArg List.length heq
  rw [List.length_map, hlength.1, hlength.2] at hsame
  cases hsame

end Session

end Spillway
