import Spillway.Arm64.Assembly

/-!
# Generating code for one program after the other

A code generator that is kept from call to call has its lines in a buffer, so a call that fails leaves there what it
had written, and with it registers in use, scratch registers that are held, saved parameters and marks. The next call
clears all of it first.

* `Backend` — a generator with its buffer of lines, and how it generates code.
* `Backend.generate_run` — the buffer does not show: the outcome is that of `Arm64.generate`.
* `Backend.serve_eq_fresh` — of a sequence of calls each has the outcome of a call on a new generator.
-/

namespace Spillway

/-- What the caller of a computation gets to see: its result, and what it reported. -/
def Run.seen {ε σ ω α : Type} (r : Run ε σ ω α) : Except ε α × List ω := (r.result, r.entries)

namespace Arm64

open Linear (Fragment)

/-! ### A generator with a buffer -/

/-- A generator that is kept from call to call, and the lines that it has written. -/
structure Backend extends Generator where
  lines : List Line := []

namespace Backend

/-- A computation on a backend that reports what it does. -/
abbrev Work := Journal Failure Backend Notice

/-- Everything is as in a new backend. -/
def reset (b : Backend) : Backend :=
  { b with pool := .fresh, formats := [], skips := 0, scratch := [], saved := false, lines := [] }

/-- Does something that writes no lines. -/
def prepare {α : Type} (m : Generate α) : Work α :=
  m.zoom toGenerator fun b g => { b with toGenerator := g }

/-- Writes lines after those that are there. If it fails, the lines written up to there stay. -/
def write (m : Emit Unit) : Work Unit := fun b =>
  let r := m.run b.toGenerator
  ⟨r.result, { toGenerator := r.state, lines := b.lines ++ r.entries },
    (r.state.formats.drop b.formats.length).map .format⟩

/-- Writes the block of one function. -/
def function (symbols : SymbolTable) (fragment : Fragment) : Work Unit := do
  match ← symbols.function? fragment.label with
  | none => Journal.fail (.fault (.defect (.undeclaredFunction fragment.label)))
  | some signature =>
    let parameters ← symbols.parameters signature.scope
    let frame ← prepare (layout fragment (parameters.map (·.register)))
    prepare (modify fun g => g.enter frame)
    write (Context.block ⟨fragment.label, frame⟩ fragment.body signature.returns)

/-- Writes the format strings in use, and takes all lines out of the buffer. -/
def finish : Work (List Line) := do
  write (Journal.recordAll (← get).formats.lines)
  modifyGet fun b => (b.lines, { b with lines := [] })

/-- Writes the assembly of a program, after everything was cleared. -/
def generate (fragments : List Fragment) (symbols : SymbolTable) : Work (List Line) := do
  modify reset
  match fragments with
  | [] => Journal.fail (.fault (.defect .noFragments))
  | globals :: functions =>
    if globals.isGlobals then
      write (Journal.recordAll (header globals))
      functions.forM (function symbols)
      finish
    else
      Journal.fail (.fault (.defect (.missingGlobals globals.label)))

/-! ### The buffer does not show -/

/-- Two runs that do the same: one writes its lines after those in the buffer, the other hands them to its caller. A
run that fails has written some lines by then. -/
inductive Buffered (lines : List Line) :
    Run Failure Backend Notice Unit → Run Failure Generator Notice (List Line) → Prop
  | ok {written : List Line} {g : Generator} {w : List Notice} :
      Buffered lines ⟨.ok (), ⟨g, lines ++ written⟩, w⟩ ⟨.ok written, g, w⟩
  | error {e : Failure} {written : List Line} {g : Generator} {w : List Notice} :
      Buffered lines ⟨.error e, ⟨g, lines ++ written⟩, w⟩ ⟨.error e, g, w⟩

/-- A computation that writes its lines into the buffer does the same as one that hands them to its caller. -/
def Buffers (m : Work Unit) (m' : Generate (List Line)) : Prop :=
  ∀ b : Backend, Buffered b.lines (m.run b) (m'.run b.toGenerator)

section Buffers

variable {α : Type} {f : α → Work Unit} {f' : α → Generate (List Line)}

theorem Buffered.unwritten_error (e : Failure) (b : Backend) (w : List Notice) :
    Buffered b.lines ⟨.error e, b, w⟩ ⟨.error e, b.toGenerator, w⟩ := by
  have herror : Buffered b.lines ⟨.error e, ⟨b.toGenerator, b.lines ++ []⟩, w⟩ ⟨.error e, b.toGenerator, w⟩ := .error
  rwa [List.append_nil] at herror

theorem Buffers.fail (e : Failure) : Buffers (Journal.fail e) (Journal.fail e) :=
  fun b => .unwritten_error e b []

theorem Buffers.ofExcept {x : Except Failure α} (h : ∀ a, Buffers (f a) (f' a)) :
    Buffers (Journal.ofExcept x >>= f) (Journal.ofExcept x >>= f') := by
  cases x with
  | error e => exact .fail e
  | ok a => exact h a

/-- Notices may come before. -/
theorem Buffered.after {lines : List Line} {r : Run Failure Backend Notice Unit}
    {r' : Run Failure Generator Notice (List Line)} (h : Buffered lines r r') (w : List Notice) :
    Buffered lines ⟨r.result, r.state, w ++ r.entries⟩ ⟨r'.result, r'.state, w ++ r'.entries⟩ := by
  cases h with
  | ok => exact .ok
  | error => exact .error

/-- What writes no lines may come before. -/
theorem Buffers.prepare {m : Generate α} (h : ∀ a, Buffers (f a) (f' a)) :
    Buffers (Backend.prepare m >>= f) (m >>= f') := by
  intro b
  rw [Journal.bind_run, Journal.bind_run, Backend.prepare, Journal.zoom_run]
  rcases m.run b.toGenerator with ⟨e | a, g, w⟩
  · exact .unwritten_error e ⟨g, b.lines⟩ w
  · exact (h a ⟨g, b.lines⟩).after w

theorem buffers_write (m : Emit Unit) : Buffers (write m) (narrate m) := by
  intro b
  have hwrite : (write m).run b = ⟨(m.run b.toGenerator).result,
      ⟨(m.run b.toGenerator).state, b.lines ++ (m.run b.toGenerator).entries⟩,
      ((m.run b.toGenerator).state.formats.drop b.formats.length).map .format⟩ := rfl
  have hnarrate : (narrate m).run b.toGenerator = ⟨(m.run b.toGenerator).result.map fun _ =>
      (m.run b.toGenerator).entries, (m.run b.toGenerator).state,
      ((m.run b.toGenerator).state.formats.drop b.formats.length).map .format⟩ := rfl
  rw [hwrite, hnarrate]
  cases (m.run b.toGenerator).result with
  | error e => exact .error
  | ok u => exact .ok

/-- The lines of two computations stand one after the other. -/
theorem Buffers.seq {m n : Work Unit} {m' n' : Generate (List Line)} (hm : Buffers m m') (hn : Buffers n n') :
    Buffers (m >>= fun _ => n) (m' >>= fun lines => n' >>= fun rest => pure (lines ++ rest)) := by
  intro b
  have hfirst := hm b
  rw [Journal.bind_run, Journal.bind_run]
  generalize m.run b = r, m'.run b.toGenerator = r' at hfirst
  cases hfirst with
  | error => exact .error
  | @ok lines g w =>
    have hsecond := hn ⟨g, b.lines ++ lines⟩
    rw [Journal.andThen_ok, Journal.andThen_ok, Journal.bind_run]
    generalize n.run ⟨g, b.lines ++ lines⟩ = q, n'.run g = q' at hsecond
    cases hsecond with
    | error =>
      rw [List.append_assoc]
      exact .error
    | ok =>
      rw [List.append_assoc, Journal.andThen_ok, Journal.pure_run, List.append_nil]
      exact .ok

/-- **One function.** Its lines come after those that are in the buffer. -/
theorem buffers_function (symbols : SymbolTable) (fragment : Fragment) :
    Buffers (function symbols fragment) (generateFunction symbols fragment) := by
  refine .ofExcept fun signature => ?_
  cases signature with
  | none => exact .fail _
  | some signature =>
    exact .ofExcept fun parameters => .prepare fun frame => .prepare fun _ => buffers_write _

/-- **One function after the other.** -/
theorem buffers_functions (symbols : SymbolTable) (functions : List Fragment) :
    Buffers (functions.forM (function symbols))
      (functions.mapM (generateFunction symbols) >>= fun blocks => pure blocks.flatten) := by
  induction functions with
  | nil =>
    intro b
    have hnone : Buffered b.lines ⟨.ok (), ⟨b.toGenerator, b.lines ++ []⟩, []⟩ ⟨.ok [], b.toGenerator, []⟩ := .ok
    rwa [List.append_nil] at hnone
  | cons fragment functions ih =>
    have hcons : ((fragment :: functions).mapM (generateFunction symbols) >>= fun blocks => pure blocks.flatten)
        = generateFunction symbols fragment >>= fun lines =>
          (functions.mapM (generateFunction symbols) >>= fun blocks => pure blocks.flatten) >>= fun rest =>
            pure (lines ++ rest) := by
      simp only [List.mapM_cons, bind_assoc, pure_bind, List.flatten_cons]
    rw [hcons]
    exact (buffers_function symbols fragment).seq ih

end Buffers

theorem finish_run (b : Backend) :
    finish.run b = ⟨.ok (b.lines ++ b.formats.lines), { b with lines := [] }, []⟩ := by
  show Run.mk _ _ ([] ++ ((b.formats.drop b.formats.length).map Notice.format ++ [])) = _
  rw [List.drop_length]
  rfl

/-- **Programs.** Whatever a backend holds, the assembly that it generates is that of a generator without a buffer, and
so are the failures and the notices, and what is left of the generator. -/
theorem generate_run (b : Backend) (fragments : List Fragment) (symbols : SymbolTable) (g : Generator) :
    ((generate fragments symbols).run b).seen = ((Arm64.generate fragments symbols).run g).seen ∧
      ((generate fragments symbols).run b).state.toGenerator
        = ((Arm64.generate fragments symbols).run g).state := by
  cases fragments with
  | nil => exact ⟨rfl, rfl⟩
  | cons globals functions =>
    rw [generate, Arm64.generate]
    cases globals.isGlobals with
    | false => exact ⟨rfl, rfl⟩
    | true =>
      simp only [if_true]
      -- both go on from a new generator; the buffer has the header by then
      have hrun : ((modify reset : Work PUnit) >>= fun _ => write (Journal.recordAll (header globals)) >>= fun _ =>
          functions.forM (function symbols) >>= fun _ => finish).run b
            = ((functions.forM (function symbols)).run ⟨{}, header globals⟩).andThen fun _ => finish := rfl
      have hrun' : ((set ({} : Generator) : Generate PUnit) >>= fun _ =>
          functions.mapM (generateFunction symbols) >>= fun blocks => (do
            return header globals ++ blocks.flatten ++ (← get).formats.lines)).run g
            = ((functions.mapM (generateFunction symbols)).run {}).andThen fun blocks => (do
              return header globals ++ blocks.flatten ++ (← get).formats.lines) := rfl
      have hbuffered : Buffered (header globals) ((functions.forM (function symbols)).run ⟨{}, header globals⟩)
          (((functions.mapM (generateFunction symbols)).run {}).andThen fun blocks => pure blocks.flatten) :=
        buffers_functions symbols functions ⟨{}, header globals⟩
      rw [hrun, hrun']
      generalize (functions.forM (function symbols)).run ⟨{}, header globals⟩ = r,
        (functions.mapM (generateFunction symbols)).run {} = r' at hbuffered ⊢
      rcases r' with ⟨e | blocks, g', w⟩
      · cases hbuffered
        exact ⟨rfl, rfl⟩
      · rw [Journal.andThen_ok, Journal.pure_run, List.append_nil] at hbuffered
        cases hbuffered
        rw [Journal.andThen_ok, finish_run]
        exact ⟨rfl, rfl⟩

/-! ### Calls one after the other -/

/-- What a backend is called for. -/
structure Job where
  fragments : List Fragment
  symbols : SymbolTable

/-- What the caller sees of a call on a new generator. -/
def Job.fresh (j : Job) : Except Failure (List Line) × List Notice :=
  ((Arm64.generate j.fragments j.symbols).run {}).seen

/-- What the callers see of one call after the other. Each finds the backend as the call before left it, however that
call ended. -/
def serve : Backend → List Job → List (Except Failure (List Line) × List Notice)
  | _, [] => []
  | b, j :: js =>
    let r := (generate j.fragments j.symbols).run b
    r.seen :: serve r.state js

/-- **A backend may be used again.** Let a backend hold whatever it may, such as what a call left in it that was stopped
at some point. Of a sequence of calls on it each has the outcome of a call on a new generator: the same lines, or the
same failure, and the same notices. -/
theorem serve_eq_fresh (b : Backend) (jobs : List Job) : b.serve jobs = jobs.map Job.fresh := by
  induction jobs generalizing b with
  | nil => rfl
  | cons j jobs ih => rw [serve, ih, (generate_run b j.fragments j.symbols {}).1, List.map_cons, Job.fresh]

/-- A function with one parameter, in register 0. -/
def oneParameter : SymbolTable :=
  ⟨⟨#[{ name := "global", parent := none, entries := Dict.empty.insert "f" (.function ⟨.void, 1⟩) },
    { name := "f", parent := some 0, entries := Dict.empty.insert "p" (.var ⟨.int, none, ⟨0⟩⟩),
      parameterNames := ["p"], parameterTypes := [.int] }]⟩⟩

/-- Code in which a call is begun, and then a register is read that has no home. -/
def stopsInCall : List Fragment :=
  [⟨Fragment.globalsLabel, []⟩,
    ⟨"f", [.print ⟨0⟩, .mov ⟨1⟩ (.imm 5) .always, .cmp ⟨0⟩ (.reg ⟨1⟩), .mov ⟨1⟩ (.imm 6) (.on .eq),
      .push [⟨1⟩, ⟨0⟩] "f", .binary .add ⟨2⟩ ⟨1⟩ (.reg ⟨9⟩)]⟩]

-- nothing in the backend is as it was at the start
example :
    let r := (generate stopsInCall oneParameter).run {}
    r.result = .error (.fault (.defect (.unlocated ⟨9⟩))) ∧ r.state.pool.busyRegs.map Fin.val = [0, 1, 2, 16, 17, 18] ∧
      r.state.formats = [.print] ∧ r.state.skips = 1 ∧ r.state.scratch.map Fin.val = [2] ∧ r.state.saved = true ∧
      r.state.lines.length = 31 :=
  ⟨rfl, rfl, rfl, rfl, rfl, rfl, rfl⟩

end Backend

end Arm64

end Spillway
