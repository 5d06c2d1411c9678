import Spillway.Proofs.Arm64.Skips
import Spillway.Session.Compile

/-!
# One compilation

A program is compiled in three stages: it is lowered with the counters of the session, code is generated for the
fragments with a new generator, and the assembly is written. The counters are those that lowering leaves.

* `Session.compile_run` — how a compilation ends, stage by stage.
* `Session.compile_eval_output` — where the assembly is written does not show in its lines.
-/

namespace Spillway.Session

open Linear (Fragment)

/-- How writing the assembly ends. -/
def writing : Option String → Except Error Unit
  | none => .ok ()
  | some path => (create path).mapError (.create path)

/-- What is done with the assembly: it is printed and written if that is asked for. -/
def deliver (lines : List Arm64.Line) : Step (List Arm64.Line) := do
  let config := (← get).config
  if config.showAssembly then
    Journal.record (.print ("=== ARM64 ===\n" ++ fileText (lines.map Arm64.Line.text)))
  match config.output with
  | some path => writeLines path (lines.map Arm64.Line.text)
  | none => pure ()
  return lines

theorem compile_eq (p : Program) :
    compile p = (lower p >>= fun fragments => generate fragments p.symbols >>= deliver) := rfl

theorem writeLines_run (path : String) (lines : List String) (s : Session) :
    ∃ w, (writeLines path lines).run s = ⟨writing (some path), s, w⟩ := by
  rw [writeLines, writing]
  cases create path <;> exact ⟨_, rfl⟩

theorem deliver_run (lines : List Arm64.Line) (s : Session) :
    ((deliver lines).run s).state = s ∧
      (deliver lines).eval s = (writing s.config.output).map fun _ => lines := by
  rcases s with ⟨⟨showLinear, showAssembly, output⟩, counters⟩
  cases output with
  | none => cases showAssembly <;> exact ⟨rfl, rfl⟩
  | some path =>
    obtain ⟨w, hwrite⟩ := writeLines_run path (lines.map Arm64.Line.text)
      ⟨⟨showLinear, showAssembly, some path⟩, counters⟩
    have hlast : (writeLines path (lines.map Arm64.Line.text) >>= fun _ => pure lines).run
          ⟨⟨showLinear, showAssembly, some path⟩, counters⟩
        = ⟨(writing (some path)).map fun _ => lines, ⟨⟨showLinear, showAssembly, some path⟩, counters⟩, w⟩ := by
      rw [Journal.bind_run, hwrite]
      cases writing (some path) <;> simp [Except.map]
    cases showAssembly <;> exact ⟨congrArg Run.state hlast, congrArg Run.result hlast⟩

theorem lower_run (p : Program) (s : Session) :
    ((lower p).run s).state = ⟨s.config, (p.lower.counted.run s.counters).state⟩ ∧
      (lower p).eval s = (p.lower.counted.eval s.counters).mapError fun f => .failure (.fault f) := by
  rcases s with ⟨⟨showLinear, showAssembly, output⟩, counters⟩
  unfold lower Journal.eval
  rw [Journal.bind_run, Journal.zoom_run, Journal.mapError_run, Journal.mapEntries_run]
  rcases p.lower.counted.run counters with ⟨f | fragments, c, w⟩
  · exact ⟨rfl, rfl⟩
  · cases showLinear <;> exact ⟨rfl, rfl⟩

/-- A program that is lowered in a session leaves enough numbers for its conditional moves. -/
theorem generateCounted_run {p : Program} {c : Counters} {fragments : List Fragment}
    (h : p.lower.counted.eval c = .ok fragments) (symbols : SymbolTable) (g : Arm64.Generator) :
    (Arm64.generateCounted fragments symbols).run g = (Arm64.generate fragments symbols).run g := by
  obtain ⟨c', w, hrun⟩ := Journal.eval_eq_ok_iff.1 h
  obtain ⟨hlower, hcountable⟩ := Journal.counted_eq_ok_iff.1 hrun
  exact Program.generateCounted_run hlower hcountable.1 symbols g

/-- **One compilation.** The counters are those that lowering leaves, however it ends. -/
theorem compile_run (p : Program) (s : Session) :
    ((compile p).run s).state = ⟨s.config, (p.lower.counted.run s.counters).state⟩ ∧
      (compile p).eval s = (do
        let fragments ← (p.lower.counted.eval s.counters).mapError fun f => .failure (.fault f)
        let lines ← ((Arm64.generate fragments p.symbols).eval {}).mapError .failure
        writing s.config.output
        return lines) := by
  obtain ⟨hstate, hresult⟩ := lower_run p s
  rw [compile_eq, Journal.eval, Journal.bind_run, ← hresult, Journal.eval]
  generalize hlower : (lower p).run s = r at hstate
  rcases r with ⟨e | fragments, s', w⟩
  · exact ⟨hstate, rfl⟩
  · obtain rfl : s' = ⟨s.config, (p.lower.counted.run s.counters).state⟩ := hstate
    have hcounted : p.lower.counted.eval s.counters = .ok fragments := by
      rw [Journal.eval, hlower] at hresult
      exact Journal.mapError_eq_ok_iff.1 hresult.symm
    rw [Journal.andThen_ok, generate, Journal.bind_run, Journal.zoom_run, Journal.mapError_run,
      Journal.mapEntries_run, generateCounted_run hcounted]
    show _ ∧ _ = (((Arm64.generate fragments p.symbols).run {}).result.mapError Error.failure >>= _)
    rcases (Arm64.generate fragments p.symbols).run {} with ⟨e | lines, g, w'⟩
    · exact ⟨rfl, rfl⟩
    · obtain ⟨hstate', hresult'⟩ := deliver_run lines ⟨s.config, (p.lower.counted.run s.counters).state⟩
      refine ⟨hstate', hresult'.trans ?_⟩
      show _ = (writing s.config.output >>= fun _ => return lines)
      cases writing s.config.output <;> rfl

/-- A program that compiles was lowered, and then code was generated with a new generator. -/
theorem compile_ok {p : Program} {s s' : Session} {lines : List Arm64.Line} {effects : List Effect}
    (h : (compile p).run s = ⟨.ok lines, s', effects⟩) :
    ∃ fragments c w g w', p.lower.run s.counters = ⟨.ok fragments, c, w⟩ ∧
      (Arm64.generate fragments p.symbols).run {} = ⟨.ok lines, g, w'⟩ := by
  have heval : (compile p).eval s = .ok lines := Journal.eval_eq_ok_iff.2 ⟨s', effects, h⟩
  rw [(compile_run p s).2] at heval
  obtain ⟨fragments, hfragments, h₁⟩ := Journal.except_bind_ok.1 heval
  obtain ⟨lines', hlines, h₂⟩ := Journal.except_bind_ok.1 h₁
  obtain ⟨_, -, hpure⟩ := Journal.except_bind_ok.1 h₂
  cases hpure
  obtain ⟨c, w, hcounted⟩ := Journal.eval_eq_ok_iff.1 (Journal.mapError_eq_ok_iff.1 hfragments)
  obtain ⟨g, w', hgenerate⟩ := Journal.eval_eq_ok_iff.1 (Journal.mapError_eq_ok_iff.1 hlines)
  exact ⟨fragments, c, w, g, w', (Journal.counted_eq_ok_iff.1 hcounted).1, hgenerate⟩

/-- **Where the assembly is written** does not show in its lines, nor does what is printed: a configuration decides
only whether the file can be written. -/
theorem compile_eval_output (p : Program) (config : Config) (c : Counters) :
    (compile p).eval ⟨config, c⟩ = (do
      let lines ← (compile p).eval ⟨{}, c⟩
      writing config.output
      return lines) := by
  rw [(compile_run p ⟨config, c⟩).2, (compile_run p ⟨{}, c⟩).2]
  dsimp only
  cases (p.lower.counted.eval c).mapError fun f => Error.failure (.fault f) with
  | error e => rfl
  | ok fragments =>
    show (((Arm64.generate fragments p.symbols).eval {}).mapError Error.failure >>= _)
      = (((Arm64.generate fragments p.symbols).eval {}).mapError Error.failure >>= _) >>= _
    cases ((Arm64.generate fragments p.symbols).eval {}).mapError Error.failure <;> rfl

end Spillway.Session
