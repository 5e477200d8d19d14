import SmallImp.Proofs.Computation
import SmallImp.Proofs.Lookup
import SmallImp.Proofs.OperatorRules

/-!
# The rules of evaluation, execution and runs

The meaning of programs as inductive rules, without a budget and without a trace. A judgement says
what carrying out a task in a scope comes to, which scope it leaves, and which text it prints.

* `Task`, `Outcome` — what can be carried out, and what it can come to;
* `Binds` — the scope of a call, made from nothing but its parameters and arguments;
* `Derives` — the rules of expressions, calls and statements;
* `Registers`, `Runs` — the rules of whole programs;
* `Interpreter.registerAll_of_registers`, `Interpreter.registers_or_defect` — the registration of
  functions, against its rules.

The premises of a rule stand in the order in which things happen, and the printed text of a
conclusion puts theirs together in that order. A failure ends whatever it happens in.
-/

namespace SmallImp

/-- What can be carried out in a scope. -/
inductive Task where
  /-- The value of an expression. -/
  | eval (e : Expr)
  /-- The values of arguments, from left to right. -/
  | evalAll (args : List Expr)
  /-- Printing arguments on one line. -/
  | print (args : List Expr)
  /-- Calling a function with the values of its arguments. -/
  | call (f : FuncDecl) (args : List Value)
  /-- A statement. -/
  | exec (stmt : Stmt)
  /-- Statements in order. -/
  | execAll (body : List Stmt)

/-- What carrying out a task comes to. -/
inductive Outcome where
  | value (v : Value)
  | values (vs : List Value)
  | completed (c : Completion)
  | failed (e : RuntimeError)

/-- The statements of a block, if it has any. -/
def Block.statements? : Block → Option (List Stmt)
  | .stmts body => some body
  | .main body => some body
  | .absent => none
  | .misfit _ => none

/-- Declaring parameters in order, each with its argument, leads from one scope to another. -/
inductive Binds : Scope → List Param → List Value → Scope → Prop where
  | done {σ params args} (h : params = [] ∨ args = []) : Binds σ params args σ
  | param {σ σ' σ'' p tag name v params args} (hp : Param.binding? p = some (tag, name))
      (hd : Scope.declare σ tag name v = .ok σ') (h : Binds σ' params args σ'') :
      Binds σ (p :: params) (v :: args) σ''

/-- The scope of a call is the one that declaring its parameters in order leads to. -/
theorem bindParams_iff {σ σ' : Scope} {params : List Param} {args : List Value} :
    bindParams σ params args = .ok σ' ↔ Binds σ params args σ' := by
  induction params generalizing σ args with
  | nil =>
    constructor
    · rintro ⟨rfl⟩
      exact .done (.inl rfl)
    · rintro ⟨-⟩
      rfl
  | cons p params ih =>
    cases args with
    | nil =>
      constructor
      · rintro ⟨rfl⟩
        exact .done (.inr rfl)
      · rintro ⟨-⟩
        rfl
    | cons v args =>
      rw [bindParams]
      constructor
      · intro h
        cases hp : p.binding? with
        | none =>
          rw [hp] at h
          cases h
        | some binding =>
          obtain ⟨tag, name⟩ := binding
          rw [hp] at h
          cases hd : σ.declare tag name v with
          | error e =>
            simp only [hd] at h
            cases h
          | ok σ₁ =>
            simp only [hd] at h
            exact .param hp hd (ih.mp h)
      · intro h
        cases h with
        | done h => simp at h
        | param hp hd h =>
          simp only [hp, hd]
          exact ih.mpr h

/-- The scope of a call can be refused only for a parameter that is none. -/
theorem bindParams_error {σ : Scope} {params : List Param} {args : List Value} {e : Failure}
    (h : bindParams σ params args = .error e) : ∃ d, e = .defect d := by
  induction params generalizing σ args with
  | nil => cases h
  | cons p params ih =>
    cases args with
    | nil => cases h
    | cons v args =>
      rw [bindParams] at h
      cases hp : p.binding? with
      | none =>
        rw [hp] at h
        cases h
        exact ⟨_, rfl⟩
      | some binding =>
        obtain ⟨tag, name⟩ := binding
        rw [hp] at h
        cases hd : σ.declare tag name v with
        | error e' =>
          simp only [hd] at h
          cases h
          exact Scope.declare_error hd
        | ok σ₁ =>
          simp only [hd] at h
          exact ih h

/-- `Derives table task σ o σ' out` says that the task, in the scope `σ`, comes to `o`, leaves the
scope `σ'` and prints `out`. -/
inductive Derives (table : FunctionTable) : Task → Scope → Outcome → Scope → Codes → Prop where
  -- literals and variables
  | lit {σ value} : Derives table (.eval (.lit value)) σ (.value value.value) σ []
  | var {σ name key b} (hk : Json.key? name = some key) (hb : Table.find? σ key = some b) :
      Derives table (.eval (.var name)) σ (.value b.value) σ []
  | unbound {σ name key} (hk : Json.key? name = some key) (hb : Table.find? σ key = none) :
      Derives table (.eval (.var name)) σ (.failed (.unbound name)) σ []
  -- operators: both operands, the left one first
  | binary {σ left op right a b v out₁ out₂}
      (hl : Derives table (.eval left) σ (.value a) σ out₁)
      (hr : Derives table (.eval right) σ (.value b) σ out₂)
      (hv : BinaryRule op a b (.ok v)) :
      Derives table (.eval (.binary left op right)) σ (.value v) σ (out₁ ++ out₂)
  | binaryFails {σ left op right a b e out₁ out₂}
      (hl : Derives table (.eval left) σ (.value a) σ out₁)
      (hr : Derives table (.eval right) σ (.value b) σ out₂)
      (he : BinaryRule op a b (.error e)) :
      Derives table (.eval (.binary left op right)) σ (.failed e) σ (out₁ ++ out₂)
  | binaryLeft {σ left op right e out}
      (hl : Derives table (.eval left) σ (.failed e) σ out) :
      Derives table (.eval (.binary left op right)) σ (.failed e) σ out
  | binaryRight {σ left op right a e out₁ out₂}
      (hl : Derives table (.eval left) σ (.value a) σ out₁)
      (hr : Derives table (.eval right) σ (.failed e) σ out₂) :
      Derives table (.eval (.binary left op right)) σ (.failed e) σ (out₁ ++ out₂)
  | unary {σ op operand a v out}
      (ha : Derives table (.eval operand) σ (.value a) σ out) (hv : UnaryRule op a (.ok v)) :
      Derives table (.eval (.unary op operand)) σ (.value v) σ out
  | unaryFails {σ op operand a e out}
      (ha : Derives table (.eval operand) σ (.value a) σ out) (he : UnaryRule op a (.error e)) :
      Derives table (.eval (.unary op operand)) σ (.failed e) σ out
  | unaryOperand {σ op operand e out}
      (ha : Derives table (.eval operand) σ (.failed e) σ out) :
      Derives table (.eval (.unary op operand)) σ (.failed e) σ out
  -- calls: `print` comes before the registered functions
  | callPrint {σ args o out} (h : Derives table (.print args) σ o σ out) :
      Derives table (.eval (.call (.str "print") args)) σ o σ out
  | callUnknown {σ name key args} (hn : name ≠ .str "print") (hk : Json.key? name = some key)
      (hf : Table.find? table key = none) :
      Derives table (.eval (.call name args)) σ (.failed (.unknownFunction name)) σ []
  | callArity {σ name key args first f} (hn : name ≠ .str "print")
      (hk : Json.key? name = some key) (hf : Table.find? table key = some ⟨first, .decl f⟩)
      (hl : args.length ≠ f.params.length) :
      Derives table (.eval (.call name args)) σ
        (.failed (.arguments f.name f.params.length args.length)) σ []
  | callArgs {σ name key args first f e out} (hn : name ≠ .str "print")
      (hk : Json.key? name = some key) (hf : Table.find? table key = some ⟨first, .decl f⟩)
      (hl : args.length = f.params.length)
      (ha : Derives table (.evalAll args) σ (.failed e) σ out) :
      Derives table (.eval (.call name args)) σ (.failed e) σ out
  | call {σ name key args first f vs o out₁ out₂} (hn : name ≠ .str "print")
      (hk : Json.key? name = some key) (hf : Table.find? table key = some ⟨first, .decl f⟩)
      (hl : args.length = f.params.length)
      (ha : Derives table (.evalAll args) σ (.values vs) σ out₁)
      (hc : Derives table (.call f vs) σ o σ out₂) :
      Derives table (.eval (.call name args)) σ o σ (out₁ ++ out₂)
  -- arguments, in the scope of the caller
  | argsNil {σ} : Derives table (.evalAll []) σ (.values []) σ []
  | argsCons {σ e es v vs out₁ out₂}
      (hv : Derives table (.eval e) σ (.value v) σ out₁)
      (hs : Derives table (.evalAll es) σ (.values vs) σ out₂) :
      Derives table (.evalAll (e :: es)) σ (.values (v :: vs)) σ (out₁ ++ out₂)
  | argsHead {σ e es err out} (hv : Derives table (.eval e) σ (.failed err) σ out) :
      Derives table (.evalAll (e :: es)) σ (.failed err) σ out
  | argsTail {σ e es v err out₁ out₂}
      (hv : Derives table (.eval e) σ (.value v) σ out₁)
      (hs : Derives table (.evalAll es) σ (.failed err) σ out₂) :
      Derives table (.evalAll (e :: es)) σ (.failed err) σ (out₁ ++ out₂)
  -- printing: each value as soon as it is there
  | printNone {σ} : Derives table (.print []) σ (.value .null) σ "\n"
  | printLast {σ e v out} (hv : Derives table (.eval e) σ (.value v) σ out) :
      Derives table (.print [e]) σ (.value .null) σ (out ++ v.display ++ "\n")
  | printMore {σ e next es v o out₁ out₂}
      (hv : Derives table (.eval e) σ (.value v) σ out₁)
      (hs : Derives table (.print (next :: es)) σ o σ out₂) :
      Derives table (.print (e :: next :: es)) σ o σ (out₁ ++ v.display ++ " " ++ out₂)
  | printFails {σ e es err out} (hv : Derives table (.eval e) σ (.failed err) σ out) :
      Derives table (.print (e :: es)) σ (.failed err) σ out
  -- the body of a function, in a scope of its own
  | returns {σ f args frame body v frame' out} (hb : Binds .empty f.params args frame)
      (hs : f.body.statements? = some body)
      (h : Derives table (.execAll body) frame (.completed (.returned v)) frame' out) :
      Derives table (.call f args) σ (.value v) σ out
  | noReturn {σ f args frame body frame' out} (hb : Binds .empty f.params args frame)
      (hs : f.body.statements? = some body)
      (h : Derives table (.execAll body) frame (.completed .normal) frame' out) :
      Derives table (.call f args) σ (.failed (.noReturn f.name)) σ out
  | bodyFails {σ f args frame body e frame' out} (hb : Binds .empty f.params args frame)
      (hs : f.body.statements? = some body)
      (h : Derives table (.execAll body) frame (.failed e) frame' out) :
      Derives table (.call f args) σ (.failed e) σ out
  -- declarations and assignments
  | declareBare {σ tag name σ'} (hd : Scope.declare σ tag name .null = .ok σ') :
      Derives table (.exec (.declare tag name none)) σ (.completed .normal) σ' []
  | declare {σ tag name e v σ' out} (hv : Derives table (.eval e) σ (.value v) σ out)
      (hd : Scope.declare σ tag name v = .ok σ') :
      Derives table (.exec (.declare tag name (some e))) σ (.completed .normal) σ' out
  | declareFails {σ tag name e err out} (hv : Derives table (.eval e) σ (.failed err) σ out) :
      Derives table (.exec (.declare tag name (some e))) σ (.failed err) σ out
  | assign {σ name e v σ' out} (hv : Derives table (.eval e) σ (.value v) σ out)
      (ha : Scope.assign σ name v = .ok σ') :
      Derives table (.exec (.assign name e)) σ (.completed .normal) σ' out
  | assignUnbound {σ name key e v out} (hv : Derives table (.eval e) σ (.value v) σ out)
      (hk : Json.key? name = some key) (hb : Table.find? σ key = none) :
      Derives table (.exec (.assign name e)) σ (.failed (.unbound name)) σ out
  | assignFails {σ name e err out} (hv : Derives table (.eval e) σ (.failed err) σ out) :
      Derives table (.exec (.assign name e)) σ (.failed err) σ out
  -- branches
  | branchYes {σ test yes no body o σ' out₁ out₂}
      (ht : Derives table (.eval test) σ (.value (.bool true)) σ out₁)
      (hs : yes.statements? = some body) (h : Derives table (.execAll body) σ o σ' out₂) :
      Derives table (.exec (.branch test yes no)) σ o σ' (out₁ ++ out₂)
  | branchNo {σ test yes no body o σ' out₁ out₂}
      (ht : Derives table (.eval test) σ (.value (.bool false)) σ out₁)
      (hs : no.statements? = some body) (h : Derives table (.execAll body) σ o σ' out₂) :
      Derives table (.exec (.branch test yes no)) σ o σ' (out₁ ++ out₂)
  | branchNone {σ test yes out}
      (ht : Derives table (.eval test) σ (.value (.bool false)) σ out) :
      Derives table (.exec (.branch test yes .absent)) σ (.completed .normal) σ out
  | branchNoTruth {σ test yes no v out} (ht : Derives table (.eval test) σ (.value v) σ out)
      (hv : ∀ b, v ≠ .bool b) :
      Derives table (.exec (.branch test yes no)) σ (.failed (.condition "if" v.typeName)) σ out
  | branchFails {σ test yes no e out} (ht : Derives table (.eval test) σ (.failed e) σ out) :
      Derives table (.exec (.branch test yes no)) σ (.failed e) σ out
  -- loops
  | loopEnds {σ test body out} (ht : Derives table (.eval test) σ (.value (.bool false)) σ out) :
      Derives table (.exec (.loop test body)) σ (.completed .normal) σ out
  | loopAgain {σ test block body σ' o σ'' out₁ out₂ out₃}
      (ht : Derives table (.eval test) σ (.value (.bool true)) σ out₁)
      (hs : Block.statements? block = some body)
      (h : Derives table (.execAll body) σ (.completed .normal) σ' out₂)
      (hl : Derives table (.exec (.loop test block)) σ' o σ'' out₃) :
      Derives table (.exec (.loop test block)) σ o σ'' (out₁ ++ out₂ ++ out₃)
  | loopStops {σ test block body o σ' out₁ out₂}
      (ht : Derives table (.eval test) σ (.value (.bool true)) σ out₁)
      (hs : Block.statements? block = some body) (h : Derives table (.execAll body) σ o σ' out₂)
      (ho : o ≠ .completed .normal) :
      Derives table (.exec (.loop test block)) σ o σ' (out₁ ++ out₂)
  | loopNoTruth {σ test body v out} (ht : Derives table (.eval test) σ (.value v) σ out)
      (hv : ∀ b, v ≠ .bool b) :
      Derives table (.exec (.loop test body)) σ (.failed (.condition "while" v.typeName)) σ out
  | loopFails {σ test body e out} (ht : Derives table (.eval test) σ (.failed e) σ out) :
      Derives table (.exec (.loop test body)) σ (.failed e) σ out
  -- the other statements
  | ret {σ e v out} (hv : Derives table (.eval e) σ (.value v) σ out) :
      Derives table (.exec (.ret e)) σ (.completed (.returned v)) σ out
  | retFails {σ e err out} (hv : Derives table (.eval e) σ (.failed err) σ out) :
      Derives table (.exec (.ret e)) σ (.failed err) σ out
  | expr {σ e v out} (hv : Derives table (.eval e) σ (.value v) σ out) :
      Derives table (.exec (.expr e)) σ (.completed .normal) σ out
  | exprFails {σ e err out} (hv : Derives table (.eval e) σ (.failed err) σ out) :
      Derives table (.exec (.expr e)) σ (.failed err) σ out
  | block {σ body o σ' out} (h : Derives table (.execAll body) σ o σ' out) :
      Derives table (.exec (.block body)) σ o σ' out
  -- statements in order, up to the first that returns or fails
  | seqNil {σ} : Derives table (.execAll []) σ (.completed .normal) σ []
  | seqNext {σ stmt rest σ' o σ'' out₁ out₂}
      (h : Derives table (.exec stmt) σ (.completed .normal) σ' out₁)
      (hs : Derives table (.execAll rest) σ' o σ'' out₂) :
      Derives table (.execAll (stmt :: rest)) σ o σ'' (out₁ ++ out₂)
  | seqStops {σ stmt rest o σ' out} (h : Derives table (.exec stmt) σ o σ' out)
      (ho : o ≠ .completed .normal) :
      Derives table (.execAll (stmt :: rest)) σ o σ' out

/-- Registering functions in order leads from one table to another. -/
inductive Registers : FunctionTable → List Func → FunctionTable → Prop where
  | none {table} : Registers table [] table
  | func {table func name key rest table'} (hn : Func.name? func = some name)
      (hk : Json.key? name = some key)
      (h : Registers (FunctionTable.define table key name func) rest table') :
      Registers table (func :: rest) table'

/-- `Runs report table σ p r table' σ' out` says that the run of `p` ends with `r`, leaves the table
`table'` and the scope `σ'`, and prints `out`. -/
inductive Runs (report : Bool) : FunctionTable → Scope → Program → Except RuntimeError Unit →
    FunctionTable → Scope → Codes → Prop where
  | noMain {table σ p table'} (hr : Registers table p.functions table') (hm : p.main = .absent) :
      Runs report table σ p (.ok ()) table' σ []
  | main {table σ p table' body c σ' out} (hr : Registers table p.functions table')
      (hm : p.main.statements? = some body)
      (h : Derives table' (.execAll body) σ (.completed c) σ' out) :
      Runs report table σ p (.ok ()) table' σ'
        (out ++ if report then Interpreter.reportText σ' else [])
  | mainFails {table σ p table' body e σ' out} (hr : Registers table p.functions table')
      (hm : p.main.statements? = some body)
      (h : Derives table' (.execAll body) σ (.failed e) σ' out) :
      Runs report table σ p (.error e) table' σ' out

/-! ### Registration -/

namespace Interpreter

variable {i : Interpreter}

theorem register_ok {func : Func} {name : Name} {key : Key} (hn : func.name? = some name)
    (hk : Json.key? name = some key) (w : World) :
    ∃ log : Log, log.out = w.log.out ∧
      i.register func w = .ok () ⟨FunctionTable.define w.functions key name func, w.scope, log⟩ := by
  rw [register, hn]
  simp only [Json.key_of_key? hk]
  by_cases hv : 1 ≤ i.verbosity
  · refine ⟨w.log.note ((if (w.functions.find? key).isSome then "redefine" else "define") ++
      " function " ++ name.text), rfl, ?_⟩
    simp only [note, hv, if_true]
    rfl
  · refine ⟨w.log, rfl, ?_⟩
    simp only [note, hv, if_false]
    rfl

/-- A function has a name with a key, or it cannot be registered. -/
theorem named_or (func : Func) :
    (∃ name key, func.name? = some name ∧ Json.key? name = some key) ∨
      ∀ name, func.name? = some name → Json.key? name = none := by
  cases hn : func.name? with
  | none => exact .inr nofun
  | some name =>
    cases hk : Json.key? name with
    | none =>
      refine .inr ?_
      rintro _ ⟨rfl⟩
      exact hk
    | some key => exact .inl ⟨name, key, rfl, hk⟩

theorem register_refused {func : Func} (h : ∀ name, func.name? = some name → Json.key? name = none)
    (w : World) : ∃ d, i.register func w = .error (.defect d) w := by
  rw [register]
  cases hn : func.name? with
  | none => exact ⟨.missingField, rfl⟩
  | some name =>
    simp only [Json.key_of_unusable (h name hn)]
    exact ⟨_, rfl⟩

theorem registerAll_of_registers {functions : List Func} {table table' : FunctionTable}
    (h : Registers table functions table') : ∀ {w : World}, w.functions = table →
      ∃ log : Log, log.out = w.log.out ∧ i.registerAll functions w = .ok () ⟨table', w.scope, log⟩ := by
  induction h with
  | none =>
    rintro w rfl
    exact ⟨w.log, rfl, rfl⟩
  | func hn hk h ih =>
    rintro w rfl
    obtain ⟨log₁, hlog₁, hw₁⟩ := register_ok (i := i) hn hk w
    obtain ⟨log₂, hlog₂, hw₂⟩ := ih (w := ⟨FunctionTable.define w.functions _ _ _, w.scope, log₁⟩) rfl
    refine ⟨log₂, hlog₂.trans hlog₁, ?_⟩
    rw [registerAll, bind_of_ok hw₁, hw₂]

/-- The registration of functions follows its rules or meets a defect. -/
theorem registers_or_defect (functions : List Func) : ∀ w : World,
    (∃ table', Registers w.functions functions table') ∨
      ∃ d w', i.registerAll functions w = .error (.defect d) w' := by
  induction functions with
  | nil => exact fun w => .inl ⟨w.functions, .none⟩
  | cons func rest ih =>
    intro w
    rcases named_or func with ⟨name, key, hn, hk⟩ | hk
    · obtain ⟨log, -, hw⟩ := register_ok (i := i) hn hk w
      rcases ih ⟨FunctionTable.define w.functions key name func, w.scope, log⟩ with
        ⟨table', h⟩ | ⟨d, w', h⟩
      · exact .inl ⟨table', .func hn hk h⟩
      · refine .inr ⟨d, w', ?_⟩
        rw [registerAll, bind_of_ok hw, h]
    · obtain ⟨d, hd⟩ := register_refused (i := i) hk w
      refine .inr ⟨d, w, ?_⟩
      rw [registerAll, bind_of_error hd]

end Interpreter

end SmallImp
