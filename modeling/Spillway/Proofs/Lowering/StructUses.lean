import Spillway.Proofs.Lowering.Exact
import Spillway.Proofs.Program.Structs

/-!
# Structs in lowered code

What a function does with structs can be read off its statements: it reads and writes fields of the values of
expressions, and it makes new structs. In the order in which this happens there is one instruction for each, and no
other instruction of the code has to do with structs: `Env.Emits.does`. The instruction for a field stands right
behind the code of the expression whose value it is taken from, and names the place that the field has in the struct
which is the type of that expression. The instruction for a new struct names the number of its fields, so all fields
that are ever taken from it are inside: `Draft.Declared.struct_uses_inside`.
-/

namespace Spillway

open Linear (Instr Fragment)

/-! ### What is done with structs -/

/-- A field is read or written, of the struct that an expression points to, or there is a new struct. -/
inductive StructUse where
  | read (base : Expr) (field : String)
  | write (base : Expr) (field : String)
  | new (struct : String)

/-- The reads along a path of fields. Each but the first is from what the one before has read. -/
def Expr.readsAlong (base : Expr) : List String → List StructUse
  | [] => []
  | x :: path => .read base x :: (Expr.select base [x]).readsAlong path

/-- The reads along a path of fields and the write at its end. -/
def Expr.writesAlong (base : Expr) (x : String) : List String → List StructUse
  | [] => [.write base x]
  | y :: path => .read base x :: (Expr.select base [x]).writesAlong y path

/-- What a store into a place does with structs. -/
def Place.structUses (place : Place) : List StructUse :=
  match place.fields with
  | [] => []
  | x :: path => (Expr.name place.base).writesAlong x path

namespace Lowering.Env

/-- What a call does with structs, given what each of its arguments does. -/
def callUses (env : Env) (callee : String) (arguments : List Expr) (uses : List (List StructUse)) : List StructUse :=
  match env.callee callee with
  | .ok (.user _) => uses.flatten
  | .ok (.builtin .delete) => (uses.take 1).flatten
  | .ok (.builtin .new) =>
    match structArgument? arguments with
    | .ok (some struct) => [.new struct]
    | _ => []
  | .error _ => []

mutual

/-- What an expression does with structs, in this order. -/
def exprUses (env : Env) : Expr → List StructUse
  | .int _ | .bool _ | .nil | .name _ | .missing .. => []
  | .paren inner => env.exprUses inner
  | .chain head links => env.exprUses head ++ env.linkUses links
  | .unary _ operand => env.exprUses operand
  | .select base fields => env.exprUses base ++ base.readsAlong fields
  | .call callee arguments => env.callUses callee arguments (env.eachUses arguments)

def linkUses (env : Env) : List (BinOp × Expr) → List StructUse
  | [] => []
  | (_, e) :: rest => env.exprUses e ++ env.linkUses rest

def eachUses (env : Env) : List Expr → List (List StructUse)
  | [] => []
  | e :: rest => env.exprUses e :: env.eachUses rest

end

mutual

/-- What a statement does with structs, in this order. A loop tests its condition behind its body. -/
def stmtUses (env : Env) : Stmt → List StructUse
  | .assign target value => env.exprUses value ++ target.structUses
  | .print .. | .read _ | .ret none | .missing .. => []
  | .cond test thenBlock none => env.exprUses test ++ env.blockUses thenBlock
  | .cond test thenBlock (some elseBlock) =>
    env.exprUses test ++ env.blockUses thenBlock ++ env.blockUses elseBlock
  | .loop test body => env.blockUses body ++ env.exprUses test
  | .ret (some value) => env.exprUses value
  | .call callee arguments => env.callUses callee arguments (env.eachUses arguments)

def blockUses (env : Env) : List Stmt → List StructUse
  | [] => []
  | s :: rest => env.stmtUses s ++ env.blockUses rest

end

end Lowering.Env

/-! ### Instructions that have to do with structs -/

namespace Linear

/-- Whether an instruction reads or writes a field, or makes a new struct. -/
@[simp]
def Instr.usesStruct : Instr → Bool
  | .loadField .. | .storeField .. | .alloc .. => true
  | _ => false

/-- The instructions that have to do with structs, each with the code that stands before it. -/
def structSites (before : List Instr) : List Instr → List (List Instr × Instr)
  | [] => []
  | i :: code =>
    if i.usesStruct then (before, i) :: structSites (before ++ [i]) code else structSites (before ++ [i]) code

theorem structSites_append (before code code' : List Instr) :
    structSites before (code ++ code') = structSites before code ++ structSites (before ++ code) code' := by
  induction code generalizing before with
  | nil => simp [structSites]
  | cons i code ih =>
    rw [List.cons_append, structSites, structSites, ih, List.append_assoc, List.singleton_append]
    split <;> rfl

/-- Code that has nothing to do with structs. -/
theorem structSites_eq_nil {before code : List Instr} (h : ∀ i ∈ code, i.usesStruct = false) :
    structSites before code = [] := by
  induction code generalizing before with
  | nil => rfl
  | cons i code ih =>
    rw [structSites, h i (List.mem_cons_self ..), if_neg Bool.false_ne_true]
    exact ih fun j hj => h j (List.mem_cons_of_mem _ hj)

theorem mem_structSites (before : List Instr) {code : List Instr} {i : Instr} (hi : i ∈ code)
    (huses : i.usesStruct = true) : ∃ before', (before', i) ∈ structSites before code := by
  obtain ⟨front, back, rfl⟩ := List.append_of_mem hi
  refine ⟨before ++ front, ?_⟩
  rw [structSites_append, structSites, if_pos huses]
  exact List.mem_append_right _ (List.mem_cons_self ..)

end Linear

open Linear (structSites structSites_append structSites_eq_nil mem_structSites)

namespace Lowering

theorem usesStruct_combination (op : BinOp) (target left right : VReg) :
    ∀ i ∈ combination op target left right, i.usesStruct = false := by
  rw [combination]
  cases Action.of op <;> simp

namespace Env

/-- An instruction, with the code before it, does what is to be done with a struct of `n` fields. A field is taken by
its place from the register in which the code right before it has left the value of the expression. -/
inductive Realizes (env : Env) (struct : String) (n : Nat) : StructUse → List Instr × Instr → Prop
  | read {base : Expr} {x : String} {k : Nat} {e : Entry} {target r : VReg} {c c' : Counters}
      {before code : List Instr} :
      env.typeOf base = .ok (.struct struct) → env.symbols.field struct x = .ok (some (k, e)) → k < n →
      (env.expr base).run c = ⟨.ok r, c', code⟩ → code <:+ before →
      Realizes env struct n (.read base x) (before, .loadField target r x k)
  | write {base : Expr} {x : String} {k : Nat} {e : Entry} {value r : VReg} {c c' : Counters}
      {before code : List Instr} :
      env.typeOf base = .ok (.struct struct) → env.symbols.field struct x = .ok (some (k, e)) → k < n →
      (env.expr base).run c = ⟨.ok r, c', code⟩ → code <:+ before →
      Realizes env struct n (.write base x) (before, .storeField value r x k)
  | new {target : VReg} {before : List Instr} : Realizes env struct n (.new struct) (before, .alloc target struct n)

/-- An instruction does what is to be done with a struct. -/
def Realized (env : Env) (use : StructUse) (site : List Instr × Instr) : Prop :=
  ∃ struct n, env.symbols.fieldCount struct = .ok (some n) ∧ env.Realizes struct n use site

variable {env : Env} {c c' c₀ : Counters} {code before base : List Instr} {r value : VReg} {ty : Ty}
  {x : String} {e : Expr}

/-- The place of a field is one of those that are counted. -/
theorem fieldCount_of_field {k : Nat} {ty' : Ty} (h : env.field ty x = .ok (k, ty')) :
    ∃ struct found n, ty = .struct struct ∧ env.symbols.field struct x = .ok (some (k, found)) ∧
      env.symbols.fieldCount struct = .ok (some n) ∧ k < n := by
  obtain ⟨struct, found, rfl, hfield, -⟩ := field_ok h
  obtain ⟨i, s, hi, hs, hplace, -⟩ := SymbolTable.field_ok hfield
  exact ⟨struct, found, s.entries.size, rfl, hfield, SymbolTable.fieldCount_eq hi hs, Dict.lt_of_position? hplace⟩

theorem typeOf_select {k : Nat} {ty' : Ty} (hty : env.typeOf e = .ok ty) (hfield : env.field ty x = .ok (k, ty')) :
    env.typeOf (.select e [x]) = .ok ty' := by
  rw [typeOf, hty]
  simp only [bind, Except.bind, typeAlong, hfield]
  rfl

theorem realized_read {k : Nat} {ty' : Ty} (hty : env.typeOf e = .ok ty) (he : env.Computes (.expr e) c₀ base [r] c)
    (hbefore : base <:+ before) (hfield : env.field ty x = .ok (k, ty')) (target : VReg) :
    env.Realized (.read e x) (before, .loadField target r x k) := by
  obtain ⟨struct, found, n, rfl, hfound, hcount, hlt⟩ := fieldCount_of_field hfield
  exact ⟨struct, n, hcount, .read hty hfound hlt he.runs.expr_run hbefore⟩

theorem realized_write {k : Nat} {ty' : Ty} (hty : env.typeOf e = .ok ty) (he : env.Computes (.expr e) c₀ base [r] c)
    (hbefore : base <:+ before) (hfield : env.field ty x = .ok (k, ty')) :
    env.Realized (.write e x) (before, .storeField value r x k) := by
  obtain ⟨struct, found, n, rfl, hfound, hcount, hlt⟩ := fieldCount_of_field hfield
  exact ⟨struct, n, hcount, .write hty hfound hlt he.runs.expr_run hbefore⟩

/-! ### Paths -/

/-- **Reads along a path.** The code of the base stands before that of the path. Where one field has been read, both
together are the code of a longer base. -/
theorem Follows.realized {r' : VReg} {path : List String} (h : env.Follows r ty path c code r' c')
    (hty : env.typeOf e = .ok ty) (he : env.Computes (.expr e) c₀ base [r] c) (hbefore : base <:+ before) :
    List.Forall₂ env.Realized (e.readsAlong path) (structSites before code) := by
  induction h generalizing e base before with
  | nil => exact .nil
  | cons hfield _ ih =>
    exact .cons (realized_read hty he hbefore hfield _) (ih (typeOf_select hty hfield)
      (.select hty he (.cons hfield .nil)) (List.suffix_append_self_iff.2 hbefore))

theorem StoresPath.realized {path : List String} (h : env.StoresPath value r ty x path c code c')
    (hty : env.typeOf e = .ok ty) (he : env.Computes (.expr e) c₀ base [r] c) (hbefore : base <:+ before) :
    List.Forall₂ env.Realized (e.writesAlong x path) (structSites before code) := by
  induction h generalizing e base before with
  | last hfield => exact .cons (realized_write hty he hbefore hfield) .nil
  | step hfield _ ih =>
    exact .cons (realized_read hty he hbefore hfield _) (ih (typeOf_select hty hfield)
      (.select hty he (.cons hfield .nil)) (List.suffix_append_self_iff.2 hbefore))

/-! ### Expressions and statements -/

/-- What a phrase does with structs. -/
def phraseUses (env : Env) : Phrase → List StructUse
  | .expr e => env.exprUses e
  | .links _ rest => env.linkUses rest
  | .exprs es => (env.eachUses es).flatten

/-- The instructions in code that have to do with structs do these things with them, whatever stands before. -/
def Does (env : Env) (uses : List StructUse) (code : List Instr) : Prop :=
  ∀ before, List.Forall₂ env.Realized uses (structSites before code)

namespace Does

variable {uses uses' : List StructUse} {code' : List Instr}

/-- Code that has nothing to do with structs. -/
theorem nothing (h : ∀ i ∈ code, i.usesStruct = false) : env.Does [] code := by
  intro before
  rw [structSites_eq_nil h]
  exact .nil

theorem append (h : env.Does uses code) (h' : env.Does uses' code') : env.Does (uses ++ uses') (code ++ code') := by
  intro before
  rw [structSites_append]
  exact List.rel_append (h before) (h' _)

/-- Code behind which there is something that has nothing to do with structs. -/
theorem append_plain (h : env.Does uses code) (h' : ∀ i ∈ code', i.usesStruct = false) :
    env.Does uses (code ++ code') := by
  have hboth := h.append (nothing h')
  rwa [List.append_nil] at hboth

/-- Code before which there is something that has nothing to do with structs. -/
theorem plain_append (h : ∀ i ∈ code, i.usesStruct = false) (h' : env.Does uses code') :
    env.Does uses (code ++ code') := (nothing h).append h'

end Does

theorem does_alloc {struct name : String} {arguments : List Expr} {n : Nat} (uses : List (List StructUse))
    (hnew : env.callee name = .ok (.builtin .new)) (hstruct : structArgument? arguments = .ok (some struct))
    (hn : env.symbols.fieldCount struct = .ok (some n)) :
    env.Does (env.callUses name arguments uses) [.alloc r struct n] := by
  simp only [callUses, hnew, hstruct]
  exact fun before => .cons ⟨struct, n, hn, .new⟩ .nil

/-- **Expressions.** The code of an expression does with structs what the expression does. -/
theorem Computes.does {ph : Phrase} {rs : List VReg} (h : env.Computes ph c code rs c') :
    env.Does (env.phraseUses ph) code := by
  induction h with
  | int | bool | nil | global | own | linksNil | exprsNil =>
    simp only [phraseUses, exprUses, linkUses, eachUses]
    exact .nothing (by simp)
  | paren _ ih => simpa only [phraseUses, exprUses] using ih
  | chain _ _ ih ih' =>
    rw [phraseUses, exprUses]
    exact ih.append ih'
  | not _ ih | negate _ ih =>
    rw [phraseUses, exprUses]
    exact ih.append_plain (by simp)
  | select hty hbase hfollows ih =>
    intro before
    rw [phraseUses, exprUses, structSites_append]
    exact List.rel_append (ih before) (hfollows.realized hty hbase (List.suffix_append ..))
  | alloc hnew hstruct hn =>
    rw [phraseUses, exprUses]
    exact does_alloc _ hnew hstruct hn
  | call huser _ ih =>
    simp only [phraseUses, exprUses, callUses, huser]
    exact ih.append_plain (by simp)
  | linksCons _ _ ih ih' =>
    rw [phraseUses, linkUses]
    exact (ih.append_plain (usesStruct_combination _ _ _ _)).append ih'
  | exprsCons _ _ ih ih' =>
    rw [phraseUses, eachUses, List.flatten_cons]
    exact ih.append ih'

theorem Stores.does {place : Place} (h : env.Stores value place c code c') : env.Does place.structUses code := by
  cases h with
  | global | own => exact .nothing (by simp)
  | @field x y ys v r c c₁ c₂ code code' hv hread hpath =>
    have hty : env.typeOf (.name x) = .ok v.ty := by
      rw [typeOf, hv]
      rfl
    intro before
    rw [structSites_append]
    have hname : List.Forall₂ env.Realized (env.exprUses (.name x)) (structSites before code) := hread.does before
    rw [exprUses] at hname
    exact List.rel_append hname (hpath.realized hty hread (List.suffix_append ..))

/-- What statements do with structs. -/
def partUses (env : Env) : Part → List StructUse
  | .stmt s => env.stmtUses s
  | .block ss => env.blockUses ss

/-- **Statements.** The code of statements does with structs what they do. -/
theorem Emits.does {part : Part} (h : env.Emits part c code c') : env.Does (env.partUses part) code := by
  induction h with
  | assign hvalue hstores =>
    rw [partUses, stmtUses]
    exact hvalue.does.append hstores.does
  | @print x newline r c c' code hread =>
    rw [partUses, stmtUses]
    have hname : env.Does (env.exprUses (.name x)) code := hread.does
    rw [exprUses] at hname
    exact hname.append_plain (by cases newline <;> simp)
  | readGlobal | readOwn | leave | nil =>
    simp only [partUses, stmtUses, blockUses]
    exact .nothing (by simp)
  | when htest _ ih =>
    rw [partUses, stmtUses]
    exact ((htest.does.append_plain (by simp)).append ih).append_plain (by simp)
  | choose htest _ _ ih ih' =>
    rw [partUses, stmtUses]
    exact ((((htest.does.append_plain (by simp)).append ih).append_plain
      (by simp)).append ih').append_plain (by simp)
  | loop _ htest ih =>
    rw [partUses, stmtUses]
    refine Does.append_plain (.append (.append_plain (.plain_append ?_ ih) ?_) htest.does) ?_ <;> simp
  | give hvalue =>
    rw [partUses, stmtUses]
    exact hvalue.does.append_plain (by simp)
  | alloc hnew hstruct hn =>
    rw [partUses, stmtUses]
    exact does_alloc _ hnew hstruct hn
  | @free name e rest r c c' code hdelete hvalue =>
    have huses : env.partUses (.stmt (.call name (e :: rest))) = env.exprUses e := by
      simp [partUses, stmtUses, callUses, hdelete, eachUses]
    rw [huses]
    exact hvalue.does.append_plain (by simp)
  | call huser harguments =>
    simp only [partUses, stmtUses, callUses, huser]
    exact harguments.does.append_plain (by simp)
  | cons _ _ ih ih' =>
    rw [partUses, blockUses]
    exact ih.append ih'

theorem Clears.usesStruct {names : List String} (h : env.Clears names code) : ∀ i ∈ code, i.usesStruct = false := by
  induction h with
  | nil => exact List.forall_mem_nil _
  | cons hx _ ih =>
    obtain ⟨r, -, rfl⟩ := hx
    exact List.forall_mem_cons.2 ⟨rfl, ih⟩

theorem Resets.usesStruct {names : List String} (h : env.Resets names code) : ∀ i ∈ code, i.usesStruct = false := by
  induction h with
  | nil => exact List.forall_mem_nil _
  | cons _ _ ih => exact List.forall_mem_cons.2 ⟨rfl, List.forall_mem_cons.2 ⟨rfl, ih⟩⟩

end Env

end Lowering

/-! ### Programs -/

open Lowering (Env)

/-- The code of a function does with structs what the function does. -/
theorem Program.Translates.does {p : Program} {c c' : Counters} {f : FunctionDecl} {frag : Fragment}
    (h : p.Translates c f frag c') : (p.env f.scope).Does ((p.env f.scope).blockUses (p.body f)) frag.body := by
  obtain ⟨-, clear, code, hbody, hclears, hemits⟩ := h
  rw [hbody]
  exact .plain_append hclears.usesStruct hemits.does

/-- A new struct has the number of fields that the table counts. -/
theorem Lowering.Env.Does.fieldCount_of_alloc {env : Env} {uses : List StructUse} {code : List Instr} {r : VReg}
    {struct : String} {n : Nat} (h : env.Does uses code) (hi : .alloc r struct n ∈ code) :
    env.symbols.fieldCount struct = .ok (some n) := by
  obtain ⟨before, hsite⟩ := mem_structSites [] hi rfl
  have hrealized : ∀ site ∈ structSites [] code, ∃ use, env.Realized use site := by
    have hsites := h []
    clear h
    generalize structSites [] code = sites at hsites
    induction hsites with
    | nil => exact List.forall_mem_nil _
    | cons huse _ ih => exact List.forall_mem_cons.2 ⟨⟨_, huse⟩, ih⟩
  obtain ⟨use, struct', n', hcount, hrealizes⟩ := hrealized _ hsite
  cases hrealizes
  exact hcount

/-- The code of a function does with structs what the function does. Each of them has as many words, wherever it is
allocated in this code, as it has fields. -/
def Program.UsesInside (p : Program) (fragments : List Fragment) (f : FunctionDecl) (frag : Fragment) : Prop :=
  List.Forall₂ (fun use site => ∃ struct n,
      p.symbols.fieldCount struct = .ok (some n) ∧ (p.env f.scope).Realizes struct n use site ∧
      ∀ other ∈ fragments, ∀ r m, .alloc r struct m ∈ other.body → m = n)
    ((p.env f.scope).blockUses (p.body f)) (structSites [] frag.body)

namespace Draft

variable {d : Draft}

/-- **Fields are inside.** A struct can be declared with any list of fields, and keeps the layout of the list until its
name is declared again. Where the program is lowered, there is one instruction for each thing that a function does with
structs, in this order, and no other instruction has to do with them. The place of a field is below the number of words
that every allocation of its struct has. All this rests on what a `Dict` says of positions: a field that is declared
again keeps its place. -/
theorem Declared.struct_uses_inside (h : d.Declared) :
    (∀ struct fields, ∃ d₁ w, (Draft.declareStruct struct fields).run d = ⟨.ok (), d₁, w⟩ ∧
      ∀ d₂, d₁.DeclaredSince struct d₂ → d₂.program.symbols.LaysOut struct fields) ∧
    ∀ c fragments c' w, d.program.lower.run c = ⟨.ok fragments, c', w⟩ →
      ∃ globals functions, fragments = globals :: functions ∧ structSites [] globals.body = [] ∧
        List.Forall₂ (d.program.UsesInside fragments) d.program.functions.toList functions := by
  refine ⟨h.laysOut, fun c fragments c' w hlower => ?_⟩
  obtain ⟨globals, functions, rfl, -, hresets, hchain⟩ := Program.translates_of_lower hlower
  have hnone : ∀ i ∈ globals.body, i.usesStruct = false := hresets.usesStruct
  -- Every allocation counts the fields that the table counts, in whatever function it is.
  have hcount : ∀ other ∈ globals :: functions, ∀ r struct m, .alloc r struct m ∈ other.body →
      d.program.symbols.fieldCount struct = .ok (some m) := by
    intro other hother r struct m halloc
    obtain rfl | hother := List.mem_cons.1 hother
    · cases hnone _ halloc
    · obtain ⟨f, -, c₁, c₂, htranslates⟩ := hchain.exists_of_mem_right other hother
      exact htranslates.does.fieldCount_of_alloc halloc
  refine ⟨globals, functions, rfl, structSites_eq_nil hnone, hchain.forall₂ fun htranslates => ?_⟩
  refine (htranslates.does []).imp fun use site hrealized => ?_
  obtain ⟨struct, n, hn, hrealizes⟩ := hrealized
  refine ⟨struct, n, hn, hrealizes, fun other hother r m halloc => ?_⟩
  exact Option.some.inj (Except.ok.inj ((hcount other hother r struct m halloc).symm.trans hn))

/-- The fields of a pair. The link was given twice, first with a type that has no fields. -/
def pairFields : List (String × Ty) := [("next", .int), ("value", .int), ("next", .struct "Pair")]

/-- Nodes of a function that makes a new pair, gets another from a call, and reads and writes through links. -/
def extendNodes : Nodes :=
  ⟨⟨#[.name "Pair", .call "new" [0], .name "p", .call "extend" [2], .select 3 ["next"], .int 1]⟩,
    ⟨#[.assign ⟨"p", []⟩ 1, .assign ⟨"p", ["next"]⟩ 4, .assign ⟨"p", ["next", "value"]⟩ 5, .ret (some 2)]⟩⟩

/-- The nodes, before anything is declared. -/
def extendStart : Draft := ⟨{ nodes := extendNodes }, {}⟩

/-- The function, declared after the pair. -/
def extendPairs : Draft :=
  ((do
    declareStruct "Pair" pairFields
    let k ← declareFunction "extend" [("p", .struct "Pair")] (.struct "Pair")
    pushStatement k 0
    pushStatement k 1
    pushStatement k 2
    pushStatement k 3 : Extend Unit).run extendStart).state

/-- The code of the function. -/
def extendCode : List Instr :=
  [.alloc ⟨4⟩ "Pair" 2, .mov ⟨3⟩ (.reg ⟨4⟩) .always, .push [⟨3⟩] "extend", .call "extend", .result ⟨5⟩,
    .pop [⟨3⟩] "extend", .loadField ⟨6⟩ ⟨5⟩ "next" 0, .storeField ⟨6⟩ ⟨3⟩ "next" 0, .mov ⟨7⟩ (.imm 1) .always,
    .loadField ⟨8⟩ ⟨3⟩ "next" 0, .storeField ⟨7⟩ ⟨8⟩ "value" 1, .ret (some (.reg ⟨3⟩))]

/-- The pair has two fields, though it was given three, and the places of both are below two in all the code. -/
theorem struct_uses_inside_extendPairs :
    extendStart.Declared ∧ extendPairs.Declared ∧ extendPairs.program.symbols.LaysOut "Pair" pairFields ∧
    (∃ c w, extendPairs.program.lower.run extendPairs.counters
      = ⟨.ok [⟨Fragment.globalsLabel, []⟩, ⟨"extend", extendCode⟩], c, w⟩) ∧
    ∃ f, extendPairs.program.functions.toList = [f] ∧ extendPairs.program.UsesInside
      [⟨Fragment.globalsLabel, []⟩, ⟨"extend", extendCode⟩] f ⟨"extend", extendCode⟩ := by
  have hstart : extendStart.Declared := (Built.ofNodes Onward extendNodes {}).assembled.declared
  obtain ⟨d₁, w₁, hpair, hkeeps⟩ := hstart.struct_uses_inside.1 "Pair" pairFields
  have hd₁ : d₁ = ((declareStruct "Pair" pairFields).run extendStart).state := by rw [hpair]
  have hfunction := (Grows.nil : Grows (.sparing "Pair") d₁ [] d₁).add (.declareFunction
    (show (declareFunction "extend" [("p", .struct "Pair")] (.struct "Pair")).run d₁ = _ from by rw [hd₁]; rfl))
    (show "extend" ≠ "Pair" by decide)
  have hassign := hfunction.add (.pushStatement (show (pushStatement 0 0).run _ = _ from rfl)) trivial
  have hlink := hassign.add (.pushStatement (show (pushStatement 0 1).run _ = _ from rfl)) trivial
  have hvalue := hlink.add (.pushStatement (show (pushStatement 0 2).run _ = _ from rfl)) trivial
  have hsince : d₁.DeclaredSince "Pair" extendPairs :=
    ⟨_, hvalue.add (.pushStatement (show (pushStatement 0 3).run _ = _ from rfl)) trivial⟩
  have hextend : extendPairs.Declared := hsince.declared (hstart.add (.declareStruct hpair) trivial)
  have hlower : ∃ c w, extendPairs.program.lower.run extendPairs.counters
      = ⟨.ok [⟨Fragment.globalsLabel, []⟩, ⟨"extend", extendCode⟩], c, w⟩ := ⟨_, _, rfl⟩
  obtain ⟨c, w, hrun⟩ := hlower
  obtain ⟨globals, functions, hfragments, -, hinside⟩ := hextend.struct_uses_inside.2 _ _ _ _ hrun
  cases hfragments
  cases hinside with
  | cons hf _ => exact ⟨hstart, hextend, hkeeps extendPairs hsince, ⟨c, w, hrun⟩, _, rfl, hf⟩

end Draft

end Spillway
