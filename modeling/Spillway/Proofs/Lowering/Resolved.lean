import Spillway.Proofs.Lowering.Exact
import Spillway.Proofs.Lowering.Globals
import Spillway.Proofs.Program.Names
import Spillway.Proofs.Source.Unfolds
import Spillway.Proofs.Symbol.Callee

/-!
# Programs that can be lowered

Lowering fails on a name that stands for nothing of the right kind, and on a field that is not there. What has
to hold is said here of the program alone, with the nearest bindings of names and with the types that fields
are selected from: `Program.Resolved`. The condition is exact, `Draft.Declared.lower_ok_iff_resolved`.

The type of an expression is worked out before its code is. Both look at the same names, so the types of
resolved expressions are always found: `Env.Resolves.hasType` and `Env.HasType.typeOf_eq`.

* `SymbolTable.Nearest` — the nearest binding of a name on the chain of scopes.
* `Env.HasType` — the type of an expression, as far as fields are concerned.
* `Env.Resolves`, `Env.StmtResolves` — expressions and statements whose names and fields are all there.
* `Env.Computes.resolves`, `Env.Resolves.computes` — those are the ones that there is code for.
-/

namespace Spillway

open Linear (Instr Fragment)

/-! ### Bindings and fields -/

namespace SymbolTable

/-- The nearest binding of a name on the chain of scopes that starts here. -/
inductive Nearest (t : SymbolTable) (x : String) : ScopeId → Entry → Prop
  | here {i : ScopeId} {e : Entry} : t.bound? i x = some e → Nearest t x i e
  | outward {i j : ScopeId} {s : Scope} {e : Entry} :
      t.scopes.get? i = some s → t.bound? i x = none → s.parent = some j → Nearest t x j e →
      Nearest t x i e

/-- There is a global struct of this name. -/
def HasStruct (t : SymbolTable) (struct : String) : Prop := ∃ i, t.bound? global struct = some (.struct i)

/-- The global struct of this name has a field of this type. -/
def HasField (t : SymbolTable) (struct x : String) (ty : Ty) : Prop :=
  ∃ i e, t.bound? global struct = some (.struct i) ∧ t.bound? i x = some e ∧ e.ty?.getD .unknown = ty

/-- A path of fields leads from one type to another: before each field the type is that of a struct which has it. -/
inductive Path (t : SymbolTable) : Ty → List String → Ty → Prop
  | nil {ty : Ty} : Path t ty [] ty
  | cons {struct x : String} {xs : List String} {ty ty' : Ty} :
      t.HasField struct x ty → Path t ty xs ty' → Path t (.struct struct) (x :: xs) ty'

variable {t : SymbolTable} {struct x : String}

theorem fieldCount_ok_iff (hopen : t.StructsOpen) :
    (∃ n, t.fieldCount struct = .ok (some n)) ↔ t.HasStruct struct := by
  constructor
  · intro h
    obtain ⟨n, hn⟩ := h
    obtain ⟨i, _, hi, -⟩ := fieldCount_ok hn
    exact ⟨i, hi⟩
  · intro h
    obtain ⟨i, hi⟩ := h
    obtain ⟨s, hs⟩ := hopen struct i hi
    exact ⟨s.entries.size, fieldCount_eq hi hs⟩

theorem field_of_bound? {i : ScopeId} {e : Entry} (hi : t.bound? global struct = some (.struct i))
    (he : t.bound? i x = some e) : ∃ k, t.field struct x = .ok (some (k, e)) := by
  obtain ⟨s, hs, hget⟩ := scope_of_bound? he
  have hkey : x ∈ s.entries.keys := by
    by_contra hx
    rw [(Dict.get?_eq_none_iff _ _).2 hx] at hget
    cases hget
  obtain ⟨k, hk⟩ : ∃ k, s.entries.position? x = some k := by
    rw [Dict.position?_eq]
    exact Option.isSome_iff_exists.1 (List.isSome_idxOf?.2 hkey)
  exact ⟨k, field_eq hi hs hk hget⟩

end SymbolTable

namespace Lowering.Env

/-! ### Resolved expressions and statements -/

/-- What a name means: its nearest binding. -/
def Means (env : Env) (x : String) (e : Entry) : Prop := env.symbols.Nearest x env.scope e

/-- A name calls a built-in operation: it is the operation's name, and no function has it. -/
def CallsBuiltin (env : Env) (x : String) (b : Builtin) : Prop :=
  x = b.name ∧ ∀ f, ¬ env.Means x (.function f)

/-- The type of an expression. That of a chain is the result of its first operator. -/
inductive HasType (env : Env) : Expr → Ty → Prop
  | int {v : Int64} : HasType env (.int v) .int
  | bool {b : Bool} : HasType env (.bool b) .bool
  | nil : HasType env .nil .unknown
  | name {x : String} {v : Variable} : env.Means x (.var v) → HasType env (.name x) v.ty
  | paren {e : Expr} {ty : Ty} : HasType env e ty → HasType env (.paren e) ty
  | lone {head : Expr} {ty : Ty} : HasType env head ty → HasType env (.chain head []) ty
  | chain {head e : Expr} {op : BinOp} {rest : List (BinOp × Expr)} :
      HasType env (.chain head ((op, e) :: rest)) op.resultType
  | unary {op : UnOp} {e : Expr} : HasType env (.unary op e) op.resultType
  | select {base : Expr} {fields : List String} {ty ty' : Ty} :
      HasType env base ty → env.symbols.Path ty fields ty' → HasType env (.select base fields) ty'
  | call {x : String} {f : Signature} {arguments : List Expr} :
      env.Means x (.function f) → HasType env (.call x arguments) f.returns
  | new {x struct : String} {rest : List Expr} :
      env.CallsBuiltin x .new → HasType env (.call x (.name struct :: rest)) (.struct struct)

/-- All names and fields in an expression are there. The arguments of an allocation are not looked at, but the first
one has to name a global struct. -/
inductive Resolves (env : Env) : Expr → Prop
  | int {v : Int64} : Resolves env (.int v)
  | bool {b : Bool} : Resolves env (.bool b)
  | nil : Resolves env .nil
  | name {x : String} {v : Variable} : env.Means x (.var v) → Resolves env (.name x)
  | paren {e : Expr} : Resolves env e → Resolves env (.paren e)
  | chain {head : Expr} {links : List (BinOp × Expr)} :
      Resolves env head → (∀ l ∈ links, Resolves env l.2) → Resolves env (.chain head links)
  | unary {op : UnOp} {e : Expr} : Resolves env e → Resolves env (.unary op e)
  | select {base : Expr} {fields : List String} {ty ty' : Ty} :
      Resolves env base → env.HasType base ty → env.symbols.Path ty fields ty' →
      Resolves env (.select base fields)
  | call {x : String} {f : Signature} {arguments : List Expr} :
      env.Means x (.function f) → (∀ a ∈ arguments, Resolves env a) → Resolves env (.call x arguments)
  | new {x struct : String} {rest : List Expr} :
      env.CallsBuiltin x .new → env.symbols.HasStruct struct →
      Resolves env (.call x (.name struct :: rest))

/-- All names and fields in a statement are there. Of the arguments of a built-in operation only the pointer that is
given back is looked at. -/
inductive StmtResolves (env : Env) : Stmt → Prop
  | assign {x : String} {fields : List String} {value : Expr} {v : Variable} {ty : Ty} :
      env.Resolves value → env.Means x (.var v) → env.symbols.Path v.ty fields ty →
      StmtResolves env (.assign ⟨x, fields⟩ value)
  | print {x : String} {newline : Bool} {v : Variable} :
      env.Means x (.var v) → StmtResolves env (.print x newline)
  | read {x : String} {v : Variable} : env.Means x (.var v) → StmtResolves env (.read x)
  | when {test : Expr} {thenBlock : List Stmt} :
      env.Resolves test → (∀ s ∈ thenBlock, StmtResolves env s) →
      StmtResolves env (.cond test thenBlock none)
  | choose {test : Expr} {thenBlock elseBlock : List Stmt} :
      env.Resolves test → (∀ s ∈ thenBlock, StmtResolves env s) →
      (∀ s ∈ elseBlock, StmtResolves env s) →
      StmtResolves env (.cond test thenBlock (some elseBlock))
  | loop {test : Expr} {body : List Stmt} :
      env.Resolves test → (∀ s ∈ body, StmtResolves env s) → StmtResolves env (.loop test body)
  | leave : StmtResolves env (.ret none)
  | give {value : Expr} : env.Resolves value → StmtResolves env (.ret (some value))
  | call {x : String} {f : Signature} {arguments : List Expr} :
      env.Means x (.function f) → (∀ a ∈ arguments, env.Resolves a) →
      StmtResolves env (.call x arguments)
  | new {x struct : String} {rest : List Expr} :
      env.CallsBuiltin x .new → env.symbols.HasStruct struct →
      StmtResolves env (.call x (.name struct :: rest))
  | delete {x : String} {e : Expr} {rest : List Expr} :
      env.CallsBuiltin x .delete → env.Resolves e → StmtResolves env (.call x (e :: rest))

/-! ### What the environment answers -/

/-- Looking a name up always gives an answer, which is the nearest binding, and every global struct has a scope. -/
structure Answers (env : Env) : Prop where
  lookup : ∀ x, ∃ found, env.symbols.lookup env.scope x = .ok found ∧
    ∀ e, found = some e ↔ env.Means x e
  structs : env.symbols.StructsOpen

variable {env : Env} {x : String} {v : Variable} {ty ty' : Ty}

theorem Answers.var_ok_iff (h : env.Answers) : env.var x = .ok v ↔ env.Means x (.var v) := by
  obtain ⟨found, hlookup, hmeans⟩ := h.lookup x
  rw [var, hlookup, ← hmeans]
  rcases found with _ | e
  · constructor <;> intro hc <;> cases hc
  · cases e <;> constructor <;> intro hc <;> cases hc <;> rfl

theorem Answers.registerOf_ok_iff (h : env.Answers) {r : VReg} :
    env.registerOf x = .ok r ↔ ∃ v, env.Means x (.var v) ∧ v.register = r := by
  obtain ⟨found, hlookup, hmeans⟩ := h.lookup x
  rw [registerOf, hlookup]
  simp only [← hmeans]
  constructor
  · intro hr
    rcases found with _ | e
    · cases hr
    · cases e <;> cases hr
      exact ⟨_, rfl, rfl⟩
  · intro hv
    obtain ⟨v, rfl, rfl⟩ := hv
    rfl

/-- A name that stands for a global variable stands for a variable. -/
theorem Answers.means_of_isGlobal (h : env.Answers) (hglobal : env.isGlobal x = .ok true) :
    ∃ v, env.Means x (.var v) := by
  obtain ⟨found, hlookup, hmeans⟩ := h.lookup x
  obtain ⟨resolved, hresolve, hfound⟩ := Journal.except_bind_ok.1 hlookup
  obtain ⟨resolved', hresolve', hhome⟩ := Journal.except_bind_ok.1 hglobal
  rw [hresolve] at hresolve'
  cases hresolve'
  cases hfound
  rcases resolved with _ | ⟨home, e⟩
  · cases hhome
  · cases e with
    | var v => exact ⟨v, (hmeans _).1 rfl⟩
    | function _ => cases hhome
    | struct _ => cases hhome

theorem Answers.isGlobal_ok (h : env.Answers) (x : String) : ∃ b, env.isGlobal x = .ok b := by
  obtain ⟨found, hlookup, -⟩ := h.lookup x
  obtain ⟨resolved, hresolve, -⟩ := Journal.except_bind_ok.1 hlookup
  rw [isGlobal, SymbolTable.isGlobal, hresolve]
  rcases resolved with _ | ⟨home, e⟩
  · exact ⟨_, rfl⟩
  · cases e <;> exact ⟨_, rfl⟩

theorem callee_ok_iff {callee : Callee} :
    env.callee x = .ok callee ↔ env.symbols.callee env.scope x = .ok (some callee) := by
  rw [Env.callee]
  rcases env.symbols.callee env.scope x with d | _ | c <;> constructor <;> intro h <;> cases h <;> rfl

theorem Answers.callee_user_iff (h : env.Answers) {f : Signature} :
    env.callee x = .ok (.user f) ↔ env.Means x (.function f) := by
  obtain ⟨found, hlookup, hmeans⟩ := h.lookup x
  rw [callee_ok_iff, SymbolTable.callee_eq_user_iff hlookup, hmeans]

theorem Answers.callee_builtin_iff (h : env.Answers) {b : Builtin} :
    env.callee x = .ok (.builtin b) ↔ env.CallsBuiltin x b := by
  obtain ⟨found, hlookup, hmeans⟩ := h.lookup x
  rw [callee_ok_iff, SymbolTable.callee_eq_builtin_iff hlookup, CallsBuiltin, not_exists]
  simp only [hmeans]

theorem field_ok_iff :
    (∃ k, env.field ty x = .ok (k, ty')) ↔
      ∃ struct, ty = .struct struct ∧ env.symbols.HasField struct x ty' := by
  constructor
  · intro h
    obtain ⟨k, hk⟩ := h
    obtain ⟨struct, e, rfl, hfield, rfl⟩ := field_ok hk
    obtain ⟨i, s, hi, hs, -, he⟩ := SymbolTable.field_ok hfield
    exact ⟨struct, rfl, i, e, hi, (SymbolTable.bound?_of_scope hs x).trans he, rfl⟩
  · intro h
    obtain ⟨struct, rfl, i, e, hi, he, rfl⟩ := h
    obtain ⟨k, hk⟩ := SymbolTable.field_of_bound? hi he
    refine ⟨k, ?_⟩
    rw [field, hk]
    rfl

/-! ### Types of resolved expressions -/

theorem typeAlong_eq {path : List String} (h : env.symbols.Path ty path ty') :
    env.typeAlong ty path = .ok ty' := by
  induction h with
  | nil => rfl
  | cons hfield _ ih =>
    obtain ⟨k, hk⟩ := field_ok_iff.2 ⟨_, rfl, hfield⟩
    rw [typeAlong, hk]
    exact ih

theorem HasType.typeOf_eq {e : Expr} (h : env.HasType e ty) (hanswers : env.Answers) :
    env.typeOf e = .ok ty := by
  induction h with
  | int | bool | nil | chain | unary => rw [typeOf]; rfl
  | name hv =>
    rw [typeOf, hanswers.var_ok_iff.2 hv]
    rfl
  | paren _ ih | lone _ ih =>
    rw [typeOf]
    exact ih
  | select _ hpath ih =>
    rw [typeOf, ih]
    exact typeAlong_eq hpath
  | call hf =>
    rw [typeOf, hanswers.callee_user_iff.2 hf]
    rfl
  | new hnew =>
    rw [typeOf, hanswers.callee_builtin_iff.2 hnew]
    rfl

/-- A resolved expression has a type. -/
theorem Resolves.hasType {e : Expr} (h : env.Resolves e) : ∃ ty, env.HasType e ty := by
  induction h with
  | int => exact ⟨_, .int⟩
  | bool => exact ⟨_, .bool⟩
  | nil => exact ⟨_, .nil⟩
  | name hv => exact ⟨_, .name hv⟩
  | paren _ ih =>
    obtain ⟨ty, hty⟩ := ih
    exact ⟨ty, .paren hty⟩
  | @chain head links _ _ ih _ =>
    cases links with
    | nil =>
      obtain ⟨ty, hty⟩ := ih
      exact ⟨ty, .lone hty⟩
    | cons l rest => exact ⟨_, .chain⟩
  | unary => exact ⟨_, .unary⟩
  | select _ hty hpath _ => exact ⟨_, .select hty hpath⟩
  | call hf => exact ⟨_, .call hf⟩
  | new hnew _ => exact ⟨_, .new hnew⟩

/-! ### There is code for what is resolved -/

variable {c c' : Counters} {code : List Instr}

theorem follows_of_path {path : List String} (h : env.symbols.Path ty path ty') (r : VReg) (c : Counters) :
    ∃ code r' c', env.Follows r ty path c code r' c' := by
  induction h generalizing r c with
  | nil => exact ⟨_, _, _, .nil⟩
  | cons hfield _ ih =>
    obtain ⟨k, hk⟩ := field_ok_iff.2 ⟨_, rfl, hfield⟩
    obtain ⟨code, r', c', hrest⟩ := ih ⟨c.registers⟩ ⟨c.registers + 1, c.labels⟩
    exact ⟨_, _, _, .cons hk hrest⟩

theorem computes_name (hanswers : env.Answers) (hv : env.Means x (.var v)) (c : Counters) :
    ∃ code r c', env.Computes (.expr (.name x)) c code [r] c' := by
  obtain ⟨b, hb⟩ := hanswers.isGlobal_ok x
  cases b with
  | true => exact ⟨_, _, _, .global hb⟩
  | false => exact ⟨_, _, _, .own hb (hanswers.registerOf_ok_iff.2 ⟨v, hv, rfl⟩)⟩

theorem computes_links {links : List (BinOp × Expr)}
    (h : ∀ l ∈ links, ∀ c, ∃ code r c', env.Computes (.expr l.2) c code [r] c') (r : VReg) (c : Counters) :
    ∃ code r' c', env.Computes (.links r links) c code [r'] c' := by
  induction links generalizing r c with
  | nil => exact ⟨_, _, _, .linksNil⟩
  | cons l rest ih =>
    obtain ⟨hl, hrest⟩ := List.forall_mem_cons.1 h
    obtain ⟨code, r₁, c₁, hcode⟩ := hl c
    obtain ⟨code', r₂, c₂, hcode'⟩ := ih hrest ⟨c₁.registers⟩ ⟨c₁.registers + 1, c₁.labels⟩
    exact ⟨_, _, _, .linksCons hcode hcode'⟩

theorem computes_exprs {es : List Expr}
    (h : ∀ e ∈ es, ∀ c, ∃ code r c', env.Computes (.expr e) c code [r] c') (c : Counters) :
    ∃ code rs c', env.Computes (.exprs es) c code rs c' := by
  induction es generalizing c with
  | nil => exact ⟨_, _, _, .exprsNil⟩
  | cons e rest ih =>
    obtain ⟨he, hrest⟩ := List.forall_mem_cons.1 h
    obtain ⟨code, r, c₁, hcode⟩ := he c
    obtain ⟨code', rs, c₂, hcode'⟩ := ih hrest c₁
    exact ⟨_, _, _, .exprsCons hcode hcode'⟩

/-- **Resolved expressions.** There is code for a resolved expression, from any counters. -/
theorem Resolves.computes {e : Expr} (h : env.Resolves e) (hanswers : env.Answers) (c : Counters) :
    ∃ code r c', env.Computes (.expr e) c code [r] c' := by
  induction h generalizing c with
  | int => exact ⟨_, _, _, .int⟩
  | bool => exact ⟨_, _, _, .bool⟩
  | nil => exact ⟨_, _, _, .nil⟩
  | name hv => exact computes_name hanswers hv c
  | paren _ ih =>
    obtain ⟨code, r, c', hcode⟩ := ih c
    exact ⟨_, _, _, .paren hcode⟩
  | chain _ _ ih ihs =>
    obtain ⟨code, r, c₁, hhead⟩ := ih c
    obtain ⟨code', r', c₂, hlinks⟩ := computes_links ihs r c₁
    exact ⟨_, _, _, .chain hhead hlinks⟩
  | @unary op e _ ih =>
    obtain ⟨code, r, c', hcode⟩ := ih c
    cases op with
    | not => exact ⟨_, _, _, .not hcode⟩
    | negate => exact ⟨_, _, _, .negate hcode⟩
  | select _ hty hpath ih =>
    obtain ⟨code, r, c₁, hbase⟩ := ih c
    obtain ⟨code', r', c₂, hfollows⟩ := follows_of_path hpath r c₁
    exact ⟨_, _, _, .select (hty.typeOf_eq hanswers) hbase hfollows⟩
  | call hf _ ihs =>
    obtain ⟨code, rs, c', hcode⟩ := computes_exprs ihs c
    exact ⟨_, _, _, .call (hanswers.callee_user_iff.2 hf) hcode⟩
  | new hnew hstruct =>
    obtain ⟨n, hn⟩ := (SymbolTable.fieldCount_ok_iff hanswers.structs).2 hstruct
    exact ⟨_, _, _, .alloc (hanswers.callee_builtin_iff.2 hnew) rfl hn⟩

theorem storesPath_of_path {path : List String} (h : env.symbols.Path ty (x :: path) ty') (value r : VReg)
    (c : Counters) : ∃ code c', env.StoresPath value r ty x path c code c' := by
  induction path generalizing x ty r c with
  | nil =>
    cases h with
    | cons hfield _ =>
      obtain ⟨k, hk⟩ := field_ok_iff.2 ⟨_, rfl, hfield⟩
      exact ⟨_, _, .last hk⟩
  | cons y ys ih =>
    cases h with
    | cons hfield hrest =>
      obtain ⟨k, hk⟩ := field_ok_iff.2 ⟨_, rfl, hfield⟩
      obtain ⟨code, c', hcode⟩ := ih hrest ⟨c.registers⟩ ⟨c.registers + 1, c.labels⟩
      exact ⟨_, _, .step hk hcode⟩

theorem stores_of_path {fields : List String} (hanswers : env.Answers) (hv : env.Means x (.var v))
    (hpath : env.symbols.Path v.ty fields ty) (value : VReg) (c : Counters) :
    ∃ code c', env.Stores value ⟨x, fields⟩ c code c' := by
  cases fields with
  | nil =>
    obtain ⟨b, hb⟩ := hanswers.isGlobal_ok x
    cases b with
    | true => exact ⟨_, _, .global hb⟩
    | false => exact ⟨_, _, .own hb (hanswers.registerOf_ok_iff.2 ⟨v, hv, rfl⟩)⟩
  | cons y ys =>
    obtain ⟨code, r, c₁, hread⟩ := computes_name hanswers hv c
    obtain ⟨code', c₂, hstores⟩ := storesPath_of_path hpath value r c₁
    exact ⟨_, _, .field (hanswers.var_ok_iff.2 hv) hread hstores⟩

theorem emits_block {ss : List Stmt} (h : ∀ s ∈ ss, ∀ c, ∃ code c', env.Emits (.stmt s) c code c')
    (c : Counters) : ∃ code c', env.Emits (.block ss) c code c' := by
  induction ss generalizing c with
  | nil => exact ⟨_, _, .nil⟩
  | cons s rest ih =>
    obtain ⟨hs, hrest⟩ := List.forall_mem_cons.1 h
    obtain ⟨code, c₁, hcode⟩ := hs c
    obtain ⟨code', c₂, hcode'⟩ := ih hrest c₁
    exact ⟨_, _, .cons hcode hcode'⟩

/-- **Resolved statements.** There is code for a resolved statement, from any counters. -/
theorem StmtResolves.emits {s : Stmt} (h : env.StmtResolves s) (hanswers : env.Answers) (c : Counters) :
    ∃ code c', env.Emits (.stmt s) c code c' := by
  induction h generalizing c with
  | assign hvalue hv hpath =>
    obtain ⟨code, r, c₁, hcode⟩ := hvalue.computes hanswers c
    obtain ⟨code', c₂, hstores⟩ := stores_of_path hanswers hv hpath r c₁
    exact ⟨_, _, .assign hcode hstores⟩
  | print hv =>
    obtain ⟨code, r, c', hread⟩ := computes_name hanswers hv c
    exact ⟨_, _, .print hread⟩
  | @read x v hv =>
    obtain ⟨b, hb⟩ := hanswers.isGlobal_ok x
    cases b with
    | true => exact ⟨_, _, .readGlobal hb⟩
    | false => exact ⟨_, _, .readOwn hb (hanswers.registerOf_ok_iff.2 ⟨v, hv, rfl⟩)⟩
  | when htest _ ih =>
    obtain ⟨code, r, c₁, hcode⟩ := htest.computes hanswers c
    obtain ⟨code', c₂, hthen⟩ := emits_block ih ⟨c₁.registers, c₁.labels + 1⟩
    exact ⟨_, _, .when hcode hthen⟩
  | choose htest _ _ ih ih' =>
    obtain ⟨code, r, c₁, hcode⟩ := htest.computes hanswers c
    obtain ⟨code', c₂, hthen⟩ := emits_block ih ⟨c₁.registers, c₁.labels + 2⟩
    obtain ⟨code'', c₃, helse⟩ := emits_block ih' c₂
    exact ⟨_, _, .choose hcode hthen helse⟩
  | loop htest _ ih =>
    obtain ⟨code, c₁, hbody⟩ := emits_block ih ⟨c.registers, c.labels + 2⟩
    obtain ⟨code', r, c₂, hcode⟩ := htest.computes hanswers c₁
    exact ⟨_, _, .loop hbody hcode⟩
  | leave => exact ⟨_, _, .leave⟩
  | give hvalue =>
    obtain ⟨code, r, c', hcode⟩ := hvalue.computes hanswers c
    exact ⟨_, _, .give hcode⟩
  | call hf harguments =>
    obtain ⟨code, rs, c', hcode⟩ := computes_exprs (fun a ha => (harguments a ha).computes hanswers) c
    exact ⟨_, _, .call (hanswers.callee_user_iff.2 hf) hcode⟩
  | new hnew hstruct =>
    obtain ⟨n, hn⟩ := (SymbolTable.fieldCount_ok_iff hanswers.structs).2 hstruct
    exact ⟨_, _, .alloc (hanswers.callee_builtin_iff.2 hnew) rfl hn⟩
  | delete hdelete he =>
    obtain ⟨code, r, c', hcode⟩ := he.computes hanswers c
    exact ⟨_, _, .free (hanswers.callee_builtin_iff.2 hdelete) hcode⟩

/-! ### What there is code for is resolved -/

theorem Follows.path {r r' : VReg} {path : List String} (h : env.Follows r ty path c code r' c') :
    ∃ ty', env.symbols.Path ty path ty' := by
  induction h with
  | nil => exact ⟨_, .nil⟩
  | cons hfield _ ih =>
    obtain ⟨struct, rfl, hhas⟩ := field_ok_iff.1 ⟨_, hfield⟩
    obtain ⟨ty', hpath⟩ := ih
    exact ⟨ty', .cons hhas hpath⟩

theorem StoresPath.path {value r : VReg} {path : List String} (h : env.StoresPath value r ty x path c code c') :
    ∃ ty', env.symbols.Path ty (x :: path) ty' := by
  induction h with
  | last hfield =>
    obtain ⟨struct, rfl, hhas⟩ := field_ok_iff.1 ⟨_, hfield⟩
    exact ⟨_, .cons hhas .nil⟩
  | step hfield _ ih =>
    obtain ⟨struct, rfl, hhas⟩ := field_ok_iff.1 ⟨_, hfield⟩
    obtain ⟨ty', hpath⟩ := ih
    exact ⟨ty', .cons hhas hpath⟩

/-- The first argument of an allocation is a plain name. -/
theorem eq_cons_of_structArgument? {arguments : List Expr} {struct : String}
    (h : structArgument? arguments = .ok (some struct)) : ∃ rest, arguments = .name struct :: rest := by
  cases arguments with
  | nil => cases h
  | cons e rest =>
    cases e <;> cases h
    exact ⟨rest, rfl⟩

/-- All names and fields in what is lowered to values are there. -/
def PhraseResolves (env : Env) : Phrase → Prop
  | .expr e => env.Resolves e
  | .links _ rest => ∀ l ∈ rest, env.Resolves l.2
  | .exprs es => ∀ e ∈ es, env.Resolves e

/-- **Values.** What code computes is resolved. -/
theorem Computes.resolves {ph : Phrase} {rs : List VReg} (h : env.Computes ph c code rs c')
    (hanswers : env.Answers) : env.PhraseResolves ph := by
  induction h with
  | int => exact Resolves.int
  | bool => exact Resolves.bool
  | nil => exact Resolves.nil
  | global hglobal =>
    obtain ⟨v, hv⟩ := hanswers.means_of_isGlobal hglobal
    exact Resolves.name hv
  | own _ hr =>
    obtain ⟨v, hv, -⟩ := hanswers.registerOf_ok_iff.1 hr
    exact Resolves.name hv
  | paren _ ih => exact Resolves.paren ih
  | chain _ _ ih ih' => exact Resolves.chain ih ih'
  | not _ ih | negate _ ih => exact Resolves.unary ih
  | select hty _ hfollows ih =>
    -- the type that was worked out is the one that the resolved base has
    obtain ⟨ty', hbase⟩ := Resolves.hasType ih
    obtain rfl := Except.ok.inj ((hbase.typeOf_eq hanswers).symm.trans hty)
    obtain ⟨_, hpath⟩ := hfollows.path
    exact Resolves.select ih hbase hpath
  | alloc hnew hstruct hfields =>
    obtain ⟨rest, rfl⟩ := eq_cons_of_structArgument? hstruct
    exact Resolves.new (hanswers.callee_builtin_iff.1 hnew)
      ((SymbolTable.fieldCount_ok_iff hanswers.structs).1 ⟨_, hfields⟩)
  | call huser _ ih => exact Resolves.call (hanswers.callee_user_iff.1 huser) ih
  | linksNil | exprsNil => exact List.forall_mem_nil _
  | linksCons _ _ ih ih' | exprsCons _ _ ih ih' => exact List.forall_mem_cons.2 ⟨ih, ih'⟩

theorem Computes.means {rs : List VReg} (h : env.Computes (.expr (.name x)) c code rs c')
    (hanswers : env.Answers) : ∃ v, env.Means x (.var v) := by
  cases h.resolves hanswers with
  | name hv => exact ⟨_, hv⟩

theorem Stores.path {value : VReg} {place : Place} (h : env.Stores value place c code c')
    (hanswers : env.Answers) :
    ∃ v ty, env.Means place.base (.var v) ∧ env.symbols.Path v.ty place.fields ty := by
  cases h with
  | global hglobal =>
    obtain ⟨v, hv⟩ := hanswers.means_of_isGlobal hglobal
    exact ⟨v, _, hv, .nil⟩
  | own _ hr =>
    obtain ⟨v, hv, -⟩ := hanswers.registerOf_ok_iff.1 hr
    exact ⟨v, _, hv, .nil⟩
  | field hv _ hstores =>
    obtain ⟨ty, hpath⟩ := hstores.path
    exact ⟨_, ty, hanswers.var_ok_iff.1 hv, hpath⟩

/-- All names and fields in statements are there. -/
def PartResolves (env : Env) : Part → Prop
  | .stmt s => env.StmtResolves s
  | .block ss => ∀ s ∈ ss, env.StmtResolves s

/-- **Statements.** What there is code for is resolved. -/
theorem Emits.resolves {part : Part} (h : env.Emits part c code c') (hanswers : env.Answers) :
    env.PartResolves part := by
  induction h with
  | @assign target value r c c₁ c₂ code code' hvalue hstores =>
    obtain ⟨v, ty, hv, hpath⟩ := hstores.path hanswers
    exact StmtResolves.assign (hvalue.resolves hanswers) hv hpath
  | print hread =>
    obtain ⟨v, hv⟩ := hread.means hanswers
    exact StmtResolves.print hv
  | readGlobal hglobal =>
    obtain ⟨v, hv⟩ := hanswers.means_of_isGlobal hglobal
    exact StmtResolves.read hv
  | readOwn _ hr =>
    obtain ⟨v, hv, -⟩ := hanswers.registerOf_ok_iff.1 hr
    exact StmtResolves.read hv
  | when htest _ ih => exact StmtResolves.when (htest.resolves hanswers) ih
  | choose htest _ _ ih ih' => exact StmtResolves.choose (htest.resolves hanswers) ih ih'
  | loop _ htest ih => exact StmtResolves.loop (htest.resolves hanswers) ih
  | leave => exact StmtResolves.leave
  | give hvalue => exact StmtResolves.give (hvalue.resolves hanswers)
  | alloc hnew hstruct hfields =>
    obtain ⟨rest, rfl⟩ := eq_cons_of_structArgument? hstruct
    exact StmtResolves.new (hanswers.callee_builtin_iff.1 hnew)
      ((SymbolTable.fieldCount_ok_iff hanswers.structs).1 ⟨_, hfields⟩)
  | free hdelete hvalue =>
    exact StmtResolves.delete (hanswers.callee_builtin_iff.1 hdelete) (hvalue.resolves hanswers)
  | call huser harguments =>
    exact StmtResolves.call (hanswers.callee_user_iff.1 huser) (harguments.resolves hanswers)
  | nil => exact List.forall_mem_nil _
  | cons _ _ ih ih' => exact List.forall_mem_cons.2 ⟨ih, ih'⟩

theorem clears_of_means {names : List String} (hanswers : env.Answers)
    (h : ∀ x ∈ names, ∃ v, env.Means x (.var v)) : ∃ code, env.Clears names code := by
  induction names with
  | nil => exact ⟨_, .nil⟩
  | cons x names ih =>
    obtain ⟨hx, hnames⟩ := List.forall_mem_cons.1 h
    obtain ⟨v, hv⟩ := hx
    obtain ⟨code, hcode⟩ := ih hnames
    exact ⟨_, .cons ⟨_, hanswers.registerOf_ok_iff.2 ⟨v, hv, rfl⟩, rfl⟩ hcode⟩

theorem Clears.means {names : List String} (h : env.Clears names code) (hanswers : env.Answers) :
    ∀ x ∈ names, ∃ v, env.Means x (.var v) := by
  induction h with
  | nil => exact List.forall_mem_nil _
  | cons hx _ ih =>
    obtain ⟨r, hr, -⟩ := hx
    obtain ⟨v, hv, -⟩ := hanswers.registerOf_ok_iff.1 hr
    exact List.forall_mem_cons.2 ⟨⟨v, hv⟩, ih⟩

end Lowering.Env

/-! ### Resolved programs -/

namespace Program

/-- The listed globals are variables of the global scope, the listed locals of a function are variables seen
from its scope, and all names and fields in the bodies are there. -/
structure Resolved (p : Program) : Prop where
  globals : ∀ x ∈ p.globals, ∃ v, p.symbols.bound? SymbolTable.global x = some (.var v)
  locals : ∀ f ∈ p.functions.toList, ∀ x ∈ f.locals, ∃ v, (p.env f.scope).Means x (.var v)
  bodies : ∀ f ∈ p.functions.toList, ∀ s ∈ p.body f, (p.env f.scope).StmtResolves s

variable {p : Program} {c c' : Counters}

/-- In the scope of a function every name is looked up with an answer. -/
theorem Scoped.answers (h : p.Scoped) (hopen : p.symbols.StructsOpen) {f : FunctionDecl}
    (hf : f ∈ p.functions.toList) : (p.env f.scope).Answers := by
  obtain ⟨k, hk⟩ := List.mem_iff_getElem?.1 hf
  rw [← Arena.get?_eq] at hk
  obtain ⟨s, hs, hholds⟩ := h.scope hk
  obtain ⟨root, hroot, hnone⟩ := h.root
  refine ⟨fun x => ⟨p.entry? f x, h.lookup_eq hk x, fun e => ?_⟩, hopen⟩
  rw [Program.entry?]
  constructor
  · intro he
    cases hown : p.symbols.bound? f.scope x with
    | some e' =>
      rw [hown] at he
      cases he
      exact .here hown
    | none =>
      rw [hown] at he
      exact .outward hs hown hholds.parent (.here he)
  · intro he
    -- the chain has two scopes: that of the function and the global one
    cases he with
    | here hown =>
      replace hown : p.symbols.bound? f.scope x = some e := hown
      rw [hown]
      rfl
    | outward hs' hown hparent hnear =>
      replace hs' : p.symbols.scopes.get? f.scope = _ := hs'
      replace hown : p.symbols.bound? f.scope x = none := hown
      rw [hs] at hs'
      cases hs'
      rw [hholds.parent] at hparent
      cases hparent
      rw [hown]
      cases hnear with
      | here hglobal => exact hglobal
      | outward hs' _ hparent _ =>
        replace hs' : p.symbols.scopes.get? SymbolTable.global = _ := hs'
        rw [hroot] at hs'
        cases hs'
        rw [hnone] at hparent
        cases hparent

theorem Scoped.resets_of_bound? (h : p.Scoped) {names : List String}
    (hnames : ∀ x ∈ names, ∃ v, p.symbols.bound? SymbolTable.global x = some (.var v)) :
    ∃ code, (p.env SymbolTable.global).Resets names code := by
  induction names with
  | nil => exact ⟨_, .nil⟩
  | cons x names ih =>
    obtain ⟨hx, hrest⟩ := List.forall_mem_cons.1 hnames
    obtain ⟨v, hv⟩ := hx
    obtain ⟨code, hcode⟩ := ih hrest
    exact ⟨_, .cons (h.registerOf_global hv) hcode⟩

theorem Scoped.bound?_of_resets (h : p.Scoped) {names : List String} {code : List Instr}
    (hresets : (p.env SymbolTable.global).Resets names code) :
    ∀ x ∈ names, ∃ v, p.symbols.bound? SymbolTable.global x = some (.var v) := by
  induction hresets with
  | nil => exact List.forall_mem_nil _
  | cons hr _ ih =>
    obtain ⟨v, hv, -⟩ := h.bound?_of_registerOf hr
    exact List.forall_mem_cons.2 ⟨⟨v, hv⟩, ih⟩

/-- A function whose locals and body are resolved has code, from any counters. -/
theorem Resolved.translates (h : p.Resolved) (hscoped : p.Scoped) (hopen : p.symbols.StructsOpen)
    {f : FunctionDecl} (hf : f ∈ p.functions.toList) (c : Counters) :
    ∃ frag c', p.Translates c f frag c' := by
  have hanswers := hscoped.answers hopen hf
  obtain ⟨clear, hclears⟩ := Lowering.Env.clears_of_means hanswers (h.locals f hf)
  obtain ⟨code, c', hemits⟩ :=
    Lowering.Env.emits_block (fun s hs => (h.bodies f hf s hs).emits hanswers) c
  exact ⟨⟨f.name, clear ++ code⟩, c', rfl, clear, code, rfl, hclears, hemits⟩

theorem Scoped.resolved_of_lower (h : p.Scoped) (hopen : p.symbols.StructsOpen) {fragments : List Fragment}
    {w : List Lowering.Notice} (hlower : p.lower.run c = ⟨.ok fragments, c', w⟩) : p.Resolved := by
  obtain ⟨globals, functions, -, -, hresets, hchain⟩ := translates_of_lower hlower
  have hcode := hchain.exists_of_mem
  refine ⟨h.bound?_of_resets hresets, fun f hf => ?_, fun f hf => ?_⟩
  · obtain ⟨_, _, _, -, _, _, -, hclears, -⟩ := hcode f hf
    exact hclears.means (h.answers hopen hf)
  · obtain ⟨_, _, _, -, _, _, -, -, hemits⟩ := hcode f hf
    exact hemits.resolves (h.answers hopen hf)

theorem Scoped.lower_ok_iff (h : p.Scoped) (hopen : p.symbols.StructsOpen) :
    (∃ fragments c' w, p.lower.run c = ⟨.ok fragments, c', w⟩) ↔ p.Resolved := by
  constructor
  · intro hlower
    obtain ⟨fragments, c', w, hlower⟩ := hlower
    exact h.resolved_of_lower hopen hlower
  · intro hresolved
    obtain ⟨code, hresets⟩ := h.resets_of_bound? hresolved.globals
    obtain ⟨functions, c', hchain⟩ := Journal.exists_chain (fun f hf => hresolved.translates h hopen hf) c
    obtain ⟨w, hlower⟩ := lower_of_chain hresets hchain
    exact ⟨_, c', w, hlower⟩

end Program

namespace Draft

/-- **Exactly the resolved programs are lowered.** Let a program be declared, names declared again or not, and let its
nodes be acyclic, with no child and no statement of a body missing. The bodies are then the trees of their nodes,
and from any counters lowering gives fragments if and only if the program is resolved. With counters of 32 bits the
registers and labels that it draws have to fit as well, and if they alone do not, there is an overflow. -/
theorem Declared.lower_ok_iff_resolved {d : Draft} (h : d.Declared) (hacyclic : d.program.nodes.Acyclic)
    (hclosed : d.program.nodes.Closed)
    (hbodies : ∀ f ∈ d.program.functions.toList, ∀ i ∈ f.body, i < d.program.nodes.stmts.size)
    (c : Counters) :
    (∀ f ∈ d.program.functions.toList,
      List.Forall₂ d.program.nodes.StmtUnfolds f.body (d.program.body f)) ∧
    ((∃ fragments c' w, d.program.lower.run c = ⟨.ok fragments, c', w⟩) ↔ d.program.Resolved) ∧
    ((∃ fragments c' w, d.program.lower.counted.run c = ⟨.ok fragments, c', w⟩) ↔
      d.program.Resolved ∧ (d.program.lower.run c).state.Countable) ∧
    (d.program.Resolved → ¬ (d.program.lower.run c).state.Countable →
      d.program.lower.counted.eval c = .error (.trap .addOverflow)) := by
  have hresolves := h.wellScoped.lower_ok_iff h.structsOpen (c := c)
  refine ⟨fun f hf => Nodes.stmtUnfolds_map hacyclic hclosed (hbodies f hf), hresolves, ?_, fun _ hcount => ?_⟩
  · rw [← hresolves]
    exact Journal.exists_counted_ok_iff
  · rw [Journal.counted_eval, if_neg hcount]

/-- The nodes of a function that allocates a struct, writes and reads along a path, and gives the struct back. -/
def pairNodes : Nodes :=
  ⟨⟨#[.name "Pair", .name "nowhere", .call "new" [0, 1], .name "p", .call "make" [],
      .select 4 ["next", "value"]]⟩,
    ⟨#[.assign ⟨"p", []⟩ 2, .assign ⟨"p", ["next", "value"]⟩ 5, .call "delete" [3, 1], .ret (some 3)]⟩⟩

/-- The function, whose local is declared twice: only the second time with a type that has fields. -/
def makePair : Draft :=
  ((do
    declareStruct "Pair" [("next", .struct "Pair"), ("value", .int)]
    let k ← declareFunction "make" [] (.struct "Pair")
    let _ ← declareLocal k "p" .int
    let _ ← declareLocal k "p" (.struct "Pair")
    pushStatement k 0
    pushStatement k 1
    pushStatement k 2
    pushStatement k 3 : Extend Unit).run ⟨{ nodes := pairNodes }, {}⟩).state

/-- The same, and then registers are numbered from zero again for a global that takes the function's name. -/
def makeHidden : Draft := ((declareGlobal "make" .int).run ⟨makePair.program, {}⟩).state

theorem declared_makePair : makePair.Declared := by
  have hnodes := (Built.ofNodes Onward pairNodes {}).assembled.declared
  have hstruct := hnodes.add (.declareStruct
    (show (declareStruct "Pair" [("next", .struct "Pair"), ("value", .int)]).run _ = _ from rfl)) trivial
  have hfunction := hstruct.add (.declareFunction
    (show (declareFunction "make" [] (.struct "Pair")).run _ = _ from rfl)) trivial
  have hfirst := hfunction.add (.declareLocal (show (declareLocal 0 "p" .int).run _ = _ from rfl)) trivial
  have hsecond := hfirst.add (.declareLocal (show (declareLocal 0 "p" (.struct "Pair")).run _ = _ from rfl)) trivial
  have hassign := hsecond.add (.pushStatement (show (pushStatement 0 0).run _ = _ from rfl)) trivial
  have hwrite := hassign.add (.pushStatement (show (pushStatement 0 1).run _ = _ from rfl)) trivial
  have hdelete := hwrite.add (.pushStatement (show (pushStatement 0 2).run _ = _ from rfl)) trivial
  exact hdelete.add (.pushStatement (show (pushStatement 0 3).run _ = _ from rfl)) trivial

/-- The function is lowered, though two arguments of built-in operations name nothing, so it is resolved. Once its
name is taken it is not lowered, so it is not resolved. -/
theorem lower_ok_iff_resolved_makePair :
    makePair.Declared ∧ makeHidden.Declared ∧ pairNodes.Acyclic ∧ pairNodes.Closed ∧
    (∃ fragments c w, makePair.program.lower.run {} = ⟨.ok fragments, c, w⟩) ∧ makePair.program.Resolved ∧
    (∃ e c w, makeHidden.program.lower.run {} = ⟨.error e, c, w⟩) ∧ ¬ makeHidden.program.Resolved := by
  have hordered : pairNodes.Ordered := by decide
  have hhidden : makeHidden.Declared := (declared_makePair.add (.elsewhere {}) trivial).add
    (.declareGlobal (show (declareGlobal "make" .int).run ⟨makePair.program, {}⟩ = _ from rfl)) trivial
  have hlower : ∃ fragments c w, makePair.program.lower.run {} = ⟨.ok fragments, c, w⟩ := ⟨_, _, _, rfl⟩
  obtain ⟨e, c, w, hfails⟩ : ∃ e c w, makeHidden.program.lower.run {} = ⟨.error e, c, w⟩ :=
    ⟨_, _, _, rfl⟩
  have hpair := declared_makePair.lower_ok_iff_resolved hordered.acyclic hordered.closed (by decide) {}
  have hnone := hhidden.lower_ok_iff_resolved hordered.acyclic hordered.closed (by decide) {}
  refine ⟨declared_makePair, hhidden, hordered.acyclic, hordered.closed, hlower, hpair.2.1.1 hlower,
    ⟨e, c, w, hfails⟩, fun hresolved => ?_⟩
  obtain ⟨_, _, _, hok⟩ := hnone.2.1.2 hresolved
  rw [hfails] at hok
  cases hok

end Draft

end Spillway
