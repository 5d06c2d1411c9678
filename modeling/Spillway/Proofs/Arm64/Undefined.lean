import Spillway.Proofs.Arm64.Generation

/-!
# Registers that are never written

A register that an instruction reads has a home exactly if it is a parameter or if some instruction of the function
writes it, wherever that instruction stands. So a function whose frame is laid out, whose calls pass no more
arguments than there are registers and whose words can be reached fails only for a register that has no home, and
the report names the first one that is read: `undefined_register_reported`.
-/

namespace Spillway

open Linear (Fragment)

/-- The register is a parameter, or some instruction writes it. -/
def Linear.Fragment.Defines (parameters : List VReg) (body : List Linear.Instr) (r : VReg) : Prop :=
  r ∈ parameters ∨ ∃ i ∈ body, i.target? = some r

instance (parameters : List VReg) (body : List Linear.Instr) (r : VReg) :
    Decidable (Fragment.Defines parameters body r) :=
  inferInstanceAs (Decidable (r ∈ parameters ∨ ∃ i ∈ body, i.target? = some r))

namespace Arm64

open Linear.Fragment (Defines)

variable {name : String} {body : List Linear.Instr} {parameters : List VReg} {frame : Frame} {r : VReg}

/-- A register that is neither a parameter nor ever written has no home. -/
theorem Frame.location?_eq_none_iff (h : Frame.layout name body parameters = .ok frame) :
    frame.location? r = none ↔ ¬ Defines parameters body r := by
  obtain ⟨rfl, hbounded⟩ := Frame.bounded_of_layout h
  rw [← not_iff_not, not_not, ← ne_eq, Option.ne_none_iff_exists']
  constructor
  · rintro ⟨l, hl⟩
    cases l with
    | parameter i =>
      have hget := Frame.getElem?_of_parameter? (Frame.parameter?_of_location? hl)
      exact .inl (List.mem_of_getElem? hget)
    | slot k =>
      have hmem := List.mem_of_getElem? (Frame.slot_of_location? hl)
      rw [Frame.slots_spill, List.mem_eraseDups, List.mem_filter] at hmem
      exact .inr (List.mem_filterMap.1 hmem.1)
  · rintro (hparam | ⟨i, hi, htarget⟩)
    · obtain ⟨a, ha⟩ := Frame.exists_parameter? hbounded hparam
      exact ⟨.parameter a, by rw [Frame.location?, ha]⟩
    · exact Frame.located_of_layout h hi htarget

theorem Context.unlocated_eq_nil_iff (h : Frame.layout name body parameters = .ok frame) :
    Context.unlocated ⟨name, frame⟩ r = [] ↔ Defines parameters body r := by
  rw [← not_iff_not, ← Frame.location?_eq_none_iff h, Context.unlocated]
  cases frame.location? r with
  | none => simp
  | some l => simp

theorem Context.unlocated_of_undefined (h : Frame.layout name body parameters = .ok frame)
    (hr : ¬ Defines parameters body r) :
    Context.unlocated ⟨name, frame⟩ r = [.fault (.defect (.unlocated r))] := by
  rw [Context.unlocated, (Frame.location?_eq_none_iff h).2 hr]

/-- Only what an instruction reads can be in the way of its code. -/
theorem Context.obstacles_eq_sources (h : Frame.layout name body parameters = .ok frame) {i : Linear.Instr}
    (hi : i ∈ body) (hsize : i.oversized? = none) (hword : ∀ k, i.word? = some k → ∃ v, Word.displacement k = .ok v) :
    Context.obstacles ⟨name, frame⟩ i = i.sources.flatMap (Context.unlocated ⟨name, frame⟩) := by
  have hoverflow : i.word?.toList.flatMap Context.overflow = [] := by
    cases hk : i.word? with
    | none => rfl
    | some k =>
      obtain ⟨v, hv⟩ := hword k hk
      simp [Context.overflow, hv]
  have htarget : i.target?.toList.flatMap (Context.unlocated ⟨name, frame⟩) = [] := by
    cases hr : i.target? with
    | none => rfl
    | some r => simpa using (Context.unlocated_eq_nil_iff h).2 (.inr ⟨i, hi, hr⟩)
  simp [Context.obstacles, hsize, hoverflow, htarget]

/-- What is in the way of the code of a body because of the registers that it reads. -/
def Context.exposed (ctx : Context) (body : List Linear.Instr) : List Failure :=
  (body.flatMap Linear.Instr.sources).flatMap ctx.unlocated

theorem Context.flatMap_obstacles (h : Frame.layout name body parameters = .ok frame)
    (hsize : ∀ i ∈ body, i.oversized? = none)
    (hword : ∀ i ∈ body, ∀ k, i.word? = some k → ∃ v, Word.displacement k = .ok v) :
    body.flatMap (Context.obstacles ⟨name, frame⟩) = Context.exposed ⟨name, frame⟩ body := by
  rw [Context.exposed, List.flatMap_assoc]
  exact List.flatMap_congr fun i hi => Context.obstacles_eq_sources h hi (hsize i hi) (hword i hi)

/-- It is the registers that are read and not defined. -/
theorem Context.mem_exposed_iff (h : Frame.layout name body parameters = .ok frame) {e : Failure} :
    e ∈ Context.exposed ⟨name, frame⟩ body ↔
      ∃ i ∈ body, ∃ r ∈ i.sources, ¬ Defines parameters body r ∧ e = .fault (.defect (.unlocated r)) := by
  constructor
  · intro he
    obtain ⟨r, hr, he⟩ := List.mem_flatMap.1 he
    obtain ⟨i, hi, hr⟩ := List.mem_flatMap.1 hr
    have hundefined : ¬ Defines parameters body r := by
      intro hdefined
      rw [(Context.unlocated_eq_nil_iff h).2 hdefined] at he
      cases he
    rw [Context.unlocated_of_undefined h hundefined] at he
    exact ⟨i, hi, r, hr, hundefined, List.mem_singleton.1 he⟩
  · rintro ⟨i, hi, r, hr, hundefined, rfl⟩
    refine List.mem_flatMap.2 ⟨r, List.mem_flatMap.2 ⟨i, hi, hr⟩, ?_⟩
    rw [Context.unlocated_of_undefined h hundefined]
    exact List.mem_singleton_self _

/-- The first of them is the first that is read, by instructions and then by the order of an instruction's sources. -/
theorem Context.head?_exposed (h : Frame.layout name body parameters = .ok frame) {before after : List Linear.Instr}
    {i : Linear.Instr} {earlier later : List VReg} (hbody : body = before ++ i :: after)
    (hsources : i.sources = earlier ++ r :: later) (hr : ¬ Defines parameters body r)
    (hbefore : ∀ j ∈ before, ∀ r' ∈ j.sources, Defines parameters body r')
    (hearlier : ∀ r' ∈ earlier, Defines parameters body r') :
    (Context.exposed ⟨name, frame⟩ body).head? = some (.fault (.defect (.unlocated r))) := by
  have hsplit : body.flatMap Linear.Instr.sources
      = (before.flatMap Linear.Instr.sources ++ earlier) ++ r :: (later ++ after.flatMap Linear.Instr.sources) := by
    rw [hbody]
    simp [hsources]
  have hnil : (before.flatMap Linear.Instr.sources ++ earlier).flatMap (Context.unlocated ⟨name, frame⟩) = [] := by
    rw [List.flatMap_eq_nil_iff]
    intro r' hr'
    rw [Context.unlocated_eq_nil_iff h]
    rcases List.mem_append.1 hr' with hr' | hr'
    · obtain ⟨j, hj, hr'⟩ := List.mem_flatMap.1 hr'
      exact hbefore j hj r' hr'
    · exact hearlier r' hr'
  rw [Context.exposed, hsplit, List.flatMap_append, List.flatMap_cons, hnil, Context.unlocated_of_undefined h hr]
  rfl

/-- **Undefined registers are reported, and nothing else is.** Wherever generating a program comes to a function
whose frame is laid out, whose calls pass at most eight arguments and whose words have displacements, it panics
exactly if an instruction reads a register that is neither a parameter nor written by any instruction. The report
then names the first such register, by instructions and then by the order in which an instruction reads. Otherwise
the function gets its block. -/
theorem undefined_register_reported {symbols : SymbolTable} {fragments : List Fragment} {frag : Fragment}
    {g : Generator} {signature : Signature} {parameters : List Variable} {frame : Frame}
    (hcomes : Comes symbols fragments frag g)
    (hfunction : symbols.function? frag.label = .ok (some signature))
    (hparameters : symbols.parameters signature.scope = .ok parameters)
    (hframe : Frame.layout frag.label frag.body (parameters.map (·.register)) = .ok frame)
    (hpush : ∀ arguments callee, .push arguments callee ∈ frag.body → arguments.length ≤ 8)
    (hword : ∀ i ∈ frag.body, ∀ k, i.word? = some k → ∃ v, Word.displacement k = .ok v) :
    ((∃ fault, (generateFunction symbols frag).eval g = .error (.fault fault)) ↔
      ∃ i ∈ frag.body, ∃ r ∈ i.sources, ¬ Defines (parameters.map (·.register)) frag.body r) ∧
    (∀ before i after earlier r later, frag.body = before ++ i :: after → i.sources = earlier ++ r :: later →
      ¬ Defines (parameters.map (·.register)) frag.body r →
      (∀ j ∈ before, ∀ r' ∈ j.sources, Defines (parameters.map (·.register)) frag.body r') →
      (∀ r' ∈ earlier, Defines (parameters.map (·.register)) frag.body r') →
      (generateFunction symbols frag).eval g = .error (.fault (.defect (.unlocated r))) ∧
        (Defect.unlocated r).report = "r" ++ toString r.id ++ " is read before any write or parameter binding") ∧
    ((∀ i ∈ frag.body, ∀ r ∈ i.sources, Defines (parameters.map (·.register)) frag.body r) →
      ∃ block, (generateFunction symbols frag).eval g = .ok block) := by
  have hlays : Lays symbols frag frame signature.returns :=
    ⟨signature, parameters, hfunction, hparameters, hframe, rfl⟩
  have hsize : ∀ i ∈ frag.body, i.oversized? = none := by
    intro i hi
    cases i with
    | push arguments callee => exact if_neg (Nat.not_lt.2 (hpush arguments callee hi))
    | _ => rfl
  have herror : ∀ {e}, (generateFunction symbols frag).eval g = .error e ↔
      (Context.exposed ⟨frag.label, frame⟩ frag.body).head? = some e := by
    intro e
    rw [hlays.eval_error_iff hcomes.scratch, Context.flatMap_obstacles hframe hsize hword]
  -- Whatever is reported is a register that is read and not defined.
  have hread : ∀ {e}, (generateFunction symbols frag).eval g = .error e → ∃ i ∈ frag.body, ∃ r ∈ i.sources,
      ¬ Defines (parameters.map (·.register)) frag.body r ∧ e = .fault (.defect (.unlocated r)) :=
    fun he => (Context.mem_exposed_iff hframe).1 (List.mem_of_mem_head? (herror.1 he))
  refine ⟨⟨?_, ?_⟩, ?_, ?_⟩
  · rintro ⟨fault, hfault⟩
    obtain ⟨i, hi, r, hr, hundefined, -⟩ := hread hfault
    exact ⟨i, hi, r, hr, hundefined⟩
  · rintro ⟨i, hi, r, hr, hundefined⟩
    have hne := List.ne_nil_of_mem ((Context.mem_exposed_iff hframe).2 ⟨i, hi, r, hr, hundefined, rfl⟩)
    obtain ⟨e, es, hexposed⟩ := List.exists_cons_of_ne_nil hne
    have heval := herror.2 (show _ = some e by rw [hexposed, List.head?_cons])
    obtain ⟨_, _, r', _, _, rfl⟩ := hread heval
    exact ⟨_, heval⟩
  · intro before i after earlier r later hbody hsources hundefined hbefore hearlier
    exact ⟨herror.2 (Context.head?_exposed hframe hbody hsources hundefined hbefore hearlier), rfl⟩
  · intro hdefined
    cases heval : (generateFunction symbols frag).eval g with
    | ok block => exact ⟨block, rfl⟩
    | error e =>
      obtain ⟨i, hi, r, hr, hundefined, -⟩ := hread heval
      exact absurd (hdefined i hi r hr) hundefined

/-- The function of `Draft.sumDown` with a body that reads two registers which nothing writes. -/
def sumOfUnknown : Fragment :=
  ⟨"sum", [.push [⟨5⟩, ⟨0⟩] "f", .loadField ⟨6⟩ ⟨5⟩ "next" 3, .binary .add ⟨5⟩ ⟨6⟩ (.reg ⟨7⟩), .print ⟨8⟩]⟩

/-- The first of the two is reported. Another register is read before it is written, and that is not reported. -/
theorem undefined_register_reported_sumOfUnknown :
    ∃ frame, Comes Draft.sumDown.program.symbols [⟨Fragment.globalsLabel, []⟩, sumOfUnknown] sumOfUnknown {} ∧
      Frame.layout "sum" sumOfUnknown.body [⟨0⟩] = .ok frame ∧ Defines [⟨0⟩] sumOfUnknown.body ⟨5⟩ ∧
      ¬ Defines [⟨0⟩] sumOfUnknown.body ⟨7⟩ ∧ ¬ Defines [⟨0⟩] sumOfUnknown.body ⟨8⟩ ∧
      (generateFunction Draft.sumDown.program.symbols sumOfUnknown).eval {}
        = .error (.fault (.defect (.unlocated ⟨7⟩))) ∧
      (Defect.unlocated ⟨7⟩).report = "r7 is read before any write or parameter binding" := by
  have hcomes : Comes Draft.sumDown.program.symbols [⟨Fragment.globalsLabel, []⟩, sumOfUnknown] sumOfUnknown {} :=
    ⟨_, [], [], [], [], rfl, rfl, rfl⟩
  have hundefined : ¬ Defines [⟨0⟩] sumOfUnknown.body ⟨7⟩ := by decide
  have hpush : ∀ arguments callee, .push arguments callee ∈ sumOfUnknown.body → arguments.length ≤ 8 := by
    intro arguments callee h
    obtain ⟨rfl, -⟩ : arguments = [⟨5⟩, ⟨0⟩] ∧ callee = "f" := by simpa [sumOfUnknown] using h
    decide
  have hword : ∀ i ∈ sumOfUnknown.body, ∀ k, i.word? = some k → ∃ v, Word.displacement k = .ok v := by
    intro i hi k hk
    simp only [sumOfUnknown, List.mem_cons, List.not_mem_nil, or_false] at hi
    rcases hi with rfl | rfl | rfl | rfl <;> cases hk
    exact ⟨_, rfl⟩
  obtain ⟨-, hfirst, -⟩ := undefined_register_reported hcomes rfl rfl rfl hpush hword
  obtain ⟨heval, hreport⟩ := hfirst [.push [⟨5⟩, ⟨0⟩] "f", .loadField ⟨6⟩ ⟨5⟩ "next" 3]
    (.binary .add ⟨5⟩ ⟨6⟩ (.reg ⟨7⟩)) [.print ⟨8⟩] [⟨6⟩] ⟨7⟩ [] rfl rfl hundefined (by decide) (by decide)
  exact ⟨_, hcomes, rfl, by decide, hundefined, by decide, heval, hreport⟩

end Arm64

end Spillway
