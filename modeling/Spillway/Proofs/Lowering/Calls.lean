import Spillway.Proofs.Lowering.Function

/-!
# Calls in lowered code

The instructions of a call stand together: the arguments are passed, the function is called, its result is
taken if it is wanted, and the call is ended with the same arguments. Nothing else in lowered code has to do
with calls, so code generation can take the code apart into calls and single instructions:
`Program.Translates.bracketed`.
-/

namespace Spillway

namespace Linear

/-- Whether an instruction is a part of a call. -/
def Instr.isCallPart : Instr → Bool
  | .push .. | .call _ | .result _ | .pop .. => true
  | _ => false

/-- The number of the word that an instruction counts in a struct: that of a field, or how many there are. -/
def Instr.word? : Instr → Option Nat
  | .loadField _ _ _ index | .storeField _ _ _ index => some index
  | .alloc _ _ fields => some fields
  | _ => none

/-- The instructions of a call, which takes the result if there is a target. -/
def callCode (arguments : List VReg) (callee : String) (target : Option VReg) : List Instr :=
  .push arguments callee :: .call callee :: (target.toList.map .result ++ [.pop arguments callee])

/-- Code in which the instructions of a call stand together. The words that it counts are as required. -/
inductive Bracketed (fits : Nat → Prop) : List Instr → Prop
  | nil : Bracketed fits []
  | cons {i : Instr} {code : List Instr} :
      i.isCallPart = false → (∀ k, i.word? = some k → fits k) → Bracketed fits code →
      Bracketed fits (i :: code)
  | call {arguments : List VReg} {callee : String} (target : Option VReg) {code : List Instr} :
      Bracketed fits code → Bracketed fits (callCode arguments callee target ++ code)

namespace Bracketed

variable {fits : Nat → Prop} {code code' : List Instr} {i : Instr}

theorem append (h : Bracketed fits code) (h' : Bracketed fits code') : Bracketed fits (code ++ code') := by
  induction h with
  | nil => exact h'
  | cons hi hword _ ih => exact .cons hi hword ih
  | call target _ ih =>
    rw [List.append_assoc]
    exact .call target ih

/-- An instruction that counts no words. -/
theorem plain (hi : i.isCallPart = false) (hword : i.word? = none) (h : Bracketed fits code) :
    Bracketed fits (i :: code) := by
  refine .cons hi (fun k hk => ?_) h
  rw [hword] at hk
  cases hk

/-- An instruction that counts words. -/
theorem counting {k : Nat} (hi : i.isCallPart = false) (hword : i.word? = some k) (hk : fits k)
    (h : Bracketed fits code) : Bracketed fits (i :: code) := by
  refine .cons hi (fun k' hk' => ?_) h
  rw [hword] at hk'
  cases hk'
  exact hk

theorem one (hi : i.isCallPart = false) (hword : i.word? = none) : Bracketed fits [i] := plain hi hword .nil

end Bracketed

end Linear

namespace Lowering

open Linear (Instr Bracketed)

theorem bracketed_combination {fits : Nat → Prop} (op : BinOp) (target left right : VReg) :
    Bracketed fits (combination op target left right) := by
  rw [combination]
  cases Action.of op with
  | compare c => exact .plain rfl rfl (.plain rfl rfl (.one rfl rfl))
  | compute alu => exact .one rfl rfl

namespace Env

/-- The numbers of fields, and how many a struct has, are as required. -/
structure Fits (env : Env) (fits : Nat → Prop) : Prop where
  field : ∀ {ty ty' : Ty} {x : String} {k : Nat}, env.field ty x = .ok (k, ty') → fits k
  count : ∀ {struct : String} {n : Nat}, env.symbols.fieldCount struct = .ok (some n) → fits n

variable {env : Env} {fits : Nat → Prop} {c c' : Counters} {code : List Instr}

theorem Follows.bracketed {r r' : VReg} {ty : Ty} {path : List String}
    (h : env.Follows r ty path c code r' c') (hfits : env.Fits fits) : Bracketed fits code := by
  induction h with
  | nil => exact .nil
  | cons hk _ ih => exact .counting rfl rfl (hfits.field hk) ih

theorem Computes.bracketed {ph : Phrase} {rs : List VReg} (h : env.Computes ph c code rs c')
    (hfits : env.Fits fits) : Bracketed fits code := by
  induction h with
  | int | bool | nil | global => exact .one rfl rfl
  | own | linksNil | exprsNil => exact .nil
  | alloc _ _ hn => exact .counting rfl rfl (hfits.count hn) .nil
  | paren _ ih => exact ih
  | chain _ _ ih ih' | exprsCons _ _ ih ih' => exact ih.append ih'
  | not _ ih => exact ih.append (.one rfl rfl)
  | negate _ ih => exact ih.append (.plain rfl rfl (.one rfl rfl))
  | select _ _ hfollows ih => exact ih.append (hfollows.bracketed hfits)
  | @call name f arguments rs c c' code _ _ ih =>
    exact ih.append (.call (some ⟨c'.registers⟩) .nil)
  | linksCons _ _ ih ih' => exact (ih.append (bracketed_combination ..)).append ih'

theorem StoresPath.bracketed {value r : VReg} {ty : Ty} {x : String} {path : List String}
    (h : env.StoresPath value r ty x path c code c') (hfits : env.Fits fits) : Bracketed fits code := by
  induction h with
  | last hk => exact .counting rfl rfl (hfits.field hk) .nil
  | step hk _ ih => exact .counting rfl rfl (hfits.field hk) ih

theorem Stores.bracketed {value : VReg} {place : Place} (h : env.Stores value place c code c')
    (hfits : env.Fits fits) : Bracketed fits code := by
  cases h with
  | global | own => exact .one rfl rfl
  | field _ hread hpath => exact (hread.bracketed hfits).append (hpath.bracketed hfits)

/-- **Statements.** In the code of statements the instructions of each call stand together. -/
theorem Emits.bracketed {part : Part} (h : env.Emits part c code c') (hfits : env.Fits fits) :
    Bracketed fits code := by
  induction h with
  | assign hvalue hstores => exact (hvalue.bracketed hfits).append (hstores.bracketed hfits)
  | @print x newline r c c' code hread =>
    refine (hread.bracketed hfits).append ?_
    cases newline <;> exact .one rfl rfl
  | readGlobal => exact .plain rfl rfl (.one rfl rfl)
  | readOwn | leave => exact .one rfl rfl
  | when htest _ ih =>
    exact (((htest.bracketed hfits).append (.plain rfl rfl (.one rfl rfl))).append ih).append
      (.plain rfl rfl (.one rfl rfl))
  | choose htest _ _ ih ih' =>
    exact (((((htest.bracketed hfits).append (.plain rfl rfl (.one rfl rfl))).append ih).append
      (.plain rfl rfl (.one rfl rfl))).append ih').append (.one rfl rfl)
  | loop _ htest ih =>
    exact (((Bracketed.plain rfl rfl (.one rfl rfl)).append ih).append (.one rfl rfl)).append
      (htest.bracketed hfits) |>.append (.plain rfl rfl (.one rfl rfl))
  | give hvalue | free _ hvalue => exact (hvalue.bracketed hfits).append (.one rfl rfl)
  | alloc _ _ hn => exact .counting rfl rfl (hfits.count hn) .nil
  | call _ harguments => exact (harguments.bracketed hfits).append (.call none .nil)
  | nil => exact .nil
  | cons _ _ ih ih' => exact ih.append ih'

theorem Clears.bracketed {names : List String} (h : env.Clears names code) : Bracketed fits code := by
  induction h with
  | nil => exact .nil
  | cons hx _ ih =>
    obtain ⟨r, -, rfl⟩ := hx
    exact .plain rfl rfl ih

end Env

end Lowering

/-- **Functions.** In the code of a function the instructions of each call stand together. -/
theorem Program.Translates.bracketed {p : Program} {fits : Nat → Prop} {c c' : Counters} {f : FunctionDecl}
    {frag : Linear.Fragment} (h : p.Translates c f frag c') (hfits : (p.env f.scope).Fits fits) :
    Linear.Bracketed fits frag.body := by
  obtain ⟨-, clear, code, hbody, hclears, hemits⟩ := h
  rw [hbody]
  exact hclears.bracketed.append (hemits.bracketed hfits)

end Spillway
