import SmallImp.Proofs.Computation
import SmallImp.Proofs.Lookup

/-!
# Isolation of scopes

Statements read and write the variables that occur in them, and no others. What a called function
does depends on its arguments and not on the variables of its caller.

* `Expr.variables`, `Stmt.variables`, `Stmt.allVariables` — the variables that occur in expressions
  and statements, by their keys;
* `Scope.AgreeOn` — two scopes bind the same of these variables, to the same values;
* `Scope.outside` — the bindings of all other variables;
* `Confined` — executions that read and write some variables only;
* `eval_agree`, `exec_confined` — expressions and statements;
* `scopes_isolated` — the two together, and scopes that failures leave alone.
-/

namespace SmallImp

/-! ### Variables -/

mutual

/-- The variables that occur in an expression. The name of a called function is not one of them. -/
def Expr.variables : Expr → List Key
  | .lit _ => []
  | .var name => (Json.key? name).toList
  | .binary left _ right => Expr.variables left ++ Expr.variables right
  | .unary _ operand => Expr.variables operand
  | .call _ args => Expr.allVariables args
  | .misfit _ => []

/-- The variables that occur in expressions. -/
def Expr.allVariables : List Expr → List Key
  | [] => []
  | e :: rest => Expr.variables e ++ Expr.allVariables rest

end

mutual

/-- The variables that a statement reads, assigns or declares. -/
def Stmt.variables : Stmt → List Key
  | .declare _ name start => (Json.key? name).toList ++ start.elim [] Expr.variables
  | .assign name e => (Json.key? name).toList ++ e.variables
  | .branch test yes no => test.variables ++ (Block.variables yes ++ Block.variables no)
  | .loop test body => test.variables ++ Block.variables body
  | .ret e => e.variables
  | .expr e => e.variables
  | .block body => Stmt.allVariables body
  | .misfit _ => []

/-- The variables that occur in a block. -/
def Block.variables : Block → List Key
  | .stmts body => Stmt.allVariables body
  | .main body => Stmt.allVariables body
  | .absent => []
  | .misfit _ => []

/-- The variables that occur in statements. -/
def Stmt.allVariables : List Stmt → List Key
  | [] => []
  | stmt :: rest => Stmt.variables stmt ++ Stmt.allVariables rest

end

/-! ### Scopes that agree -/

namespace Scope

/-- Of the given variables, the scopes bind the same ones, to the same values. -/
def AgreeOn (V : List Key) (σ τ : Scope) : Prop :=
  ∀ key ∈ V, (σ.find? key).map Binding.value = (τ.find? key).map Binding.value

/-- The bindings of all variables but the given ones, in order. -/
def outside (V : List Key) (σ : Scope) : List (Key × Binding) := σ.rows.filter fun r => r.1 ∉ V

variable {V : List Key} {σ τ : Scope} {name : Name} {key : Key}

/-- A variable that one of two agreeing scopes binds is bound by both. -/
theorem AgreeOn.find? (h : AgreeOn V σ τ) (hV : key ∈ V) :
    (σ.find? key = none ∧ τ.find? key = none) ∨
      ∃ b c, σ.find? key = some b ∧ τ.find? key = some c ∧ b.value = c.value := by
  have hkey := h key hV
  cases hσ : σ.find? key with
  | none =>
    cases hτ : τ.find? key with
    | none => exact .inl ⟨rfl, rfl⟩
    | some c =>
      rw [hσ, hτ] at hkey
      cases hkey
  | some b =>
    cases hτ : τ.find? key with
    | none =>
      rw [hσ, hτ] at hkey
      cases hkey
    | some c =>
      rw [hσ, hτ] at hkey
      exact .inr ⟨b, c, rfl, rfl, Option.some.inj hkey⟩

theorem mem_of_key? (hk : Json.key? name = some key) (hV : (Json.key? name).toList ⊆ V) :
    key ∈ V := hV (by rw [hk]; exact List.mem_singleton.mpr rfl)

theorem AgreeOn.read (h : AgreeOn V σ τ) (hV : (Json.key? name).toList ⊆ V) :
    σ.read name = τ.read name := by
  cases hk : Json.key? name with
  | none => rw [read_unusable hk, read_unusable hk]
  | some key =>
    rw [read_eq hk, read_eq hk]
    rcases h.find? (mem_of_key? hk hV) with ⟨hσ, hτ⟩ | ⟨b, c, hσ, hτ, hbc⟩
    · rw [hσ, hτ]
    · rw [hσ, hτ]
      exact congrArg Except.ok hbc

/-- Setting a variable to the same value in both scopes keeps them in agreement. -/
theorem AgreeOn.upsert (h : AgreeOn V σ τ) {f g : Option Binding → Binding} {v : Value}
    (hf : ∀ b, (f b).value = v) (hg : ∀ b, (g b).value = v) :
    AgreeOn V (σ.upsert key f) (τ.upsert key g) := by
  intro key' hkey'
  rw [Table.find?_upsert, Table.find?_upsert]
  split
  · exact congrArg some ((hf _).trans (hg _).symm)
  · exact h key' hkey'

theorem outside_upsert (hkey : key ∈ V) (f : Option Binding → Binding) :
    outside V (σ.upsert key f) = outside V σ := by
  obtain ⟨rows⟩ := σ
  show (Table.upsertRows key f rows).filter _ = rows.filter _
  induction rows with
  | nil => simp [Table.upsertRows, hkey]
  | cons r rest ih =>
    obtain ⟨k, b⟩ := r
    rw [Table.upsertRows]
    split
    next hk =>
      subst hk
      simp [hkey]
    next hk =>
      rw [List.filter_cons, List.filter_cons, ih]

/-- The two scopes refuse a change for the same reason, or agree after it. -/
def AgreeAfter (V : List Key) : Except Failure Scope → Except Failure Scope → Prop
  | .ok σ, .ok τ => AgreeOn V σ τ
  | .error e, .error e' => e = e'
  | _, _ => False

theorem AgreeOn.declare (h : AgreeOn V σ τ) (tag : TypeTag) (name : Name) (v : Value) :
    AgreeAfter V (σ.declare tag name v) (τ.declare tag name v) := by
  cases hk : Json.key? name with
  | none =>
    rw [declare_unusable hk, declare_unusable hk]
    rfl
  | some key =>
    rw [declare_eq hk, declare_eq hk]
    refine h.upsert (v := v) ?_ ?_
    · intro b
      cases b <;> rfl
    · intro b
      cases b <;> rfl

theorem AgreeOn.assign (h : AgreeOn V σ τ) (hV : (Json.key? name).toList ⊆ V) (v : Value) :
    AgreeAfter V (σ.assign name v) (τ.assign name v) := by
  cases hk : Json.key? name with
  | none =>
    rw [assign_unusable hk, assign_unusable hk]
    rfl
  | some key =>
    rw [assign_eq hk, assign_eq hk]
    rcases h.find? (mem_of_key? hk hV) with ⟨hσ, hτ⟩ | ⟨b, c, hσ, hτ, -⟩
    · rw [hσ, hτ]
      rfl
    · rw [hσ, hτ]
      exact h.upsert (fun _ => rfl) fun _ => rfl

theorem outside_declare {σ' : Scope} (hV : (Json.key? name).toList ⊆ V) {tag : TypeTag} {v : Value}
    (h : σ.declare tag name v = .ok σ') : outside V σ' = outside V σ := by
  cases hk : Json.key? name with
  | none =>
    rw [declare_unusable hk] at h
    cases h
  | some key =>
    rw [declare_eq hk] at h
    cases h
    exact outside_upsert (mem_of_key? hk hV) _

theorem outside_assign {σ' : Scope} (hV : (Json.key? name).toList ⊆ V) {v : Value}
    (h : σ.assign name v = .ok σ') : outside V σ' = outside V σ := by
  cases hk : Json.key? name with
  | none =>
    rw [assign_unusable hk] at h
    cases h
  | some key =>
    rw [assign_eq hk] at h
    split at h
    · cases h
      exact outside_upsert (mem_of_key? hk hV) _
    · cases h

end Scope

/-! ### Expressions -/

section Expressions

variable {s : Setting} {call : Caller} {V : List Key} {σ τ : Scope}

-- A call is made on values, so nothing has to be known of the caller.
mutual

/-- An expression comes to the same in scopes that agree on its variables. -/
theorem eval_agree (h : σ.AgreeOn V τ) : ∀ e : Expr, e.variables ⊆ V →
    eval s call σ e = eval s call τ e
  | .lit _, _ => rfl
  | .var name, hV => by rw [eval, eval, h.read hV]
  | .binary left op right, hV => by
    obtain ⟨hleft, hright⟩ := List.append_subset.mp hV
    rw [eval, eval, eval_agree h left hleft, eval_agree h right hright]
  | .unary op operand, hV => by rw [eval, eval, eval_agree h operand hV]
  | .call name args, hV => by
    rw [eval, eval, evalAll_agree h args hV, printAll_agree h args hV, evalLast_agree h .null args hV]
  | .misfit _, _ => rfl

theorem evalAll_agree (h : σ.AgreeOn V τ) : ∀ args : List Expr, Expr.allVariables args ⊆ V →
    evalAll s call σ args = evalAll s call τ args
  | [], _ => rfl
  | e :: rest, hV => by
    obtain ⟨he, hrest⟩ := List.append_subset.mp hV
    rw [evalAll, evalAll, eval_agree h e he, evalAll_agree h rest hrest]

theorem printAll_agree (h : σ.AgreeOn V τ) : ∀ args : List Expr, Expr.allVariables args ⊆ V →
    printAll s call σ args = printAll s call τ args
  | [], _ => rfl
  | [e], hV => by
    obtain ⟨he, -⟩ := List.append_subset.mp hV
    rw [printAll, printAll, eval_agree h e he]
  | e :: next :: rest, hV => by
    obtain ⟨he, hrest⟩ := List.append_subset.mp hV
    rw [printAll, printAll, eval_agree h e he, printAll_agree h (next :: rest) hrest]

theorem evalLast_agree (h : σ.AgreeOn V τ) : ∀ (last : Value) (args : List Expr),
    Expr.allVariables args ⊆ V → evalLast s call σ last args = evalLast s call τ last args
  | _, [], _ => rfl
  | _, e :: rest, hV => by
    obtain ⟨he, hrest⟩ := List.append_subset.mp hV
    rw [evalLast, evalLast, eval_agree h e he]
    exact congrArg (bind _) (funext fun v => evalLast_agree h v rest hrest)

end

theorem startValue_agree (h : σ.AgreeOn V τ) {start : Option Expr}
    (hV : start.elim [] Expr.variables ⊆ V) :
    startValue s call σ start = startValue s call τ start := by
  cases start with
  | none => rfl
  | some e => exact eval_agree h e hV

end Expressions

/-! ### Confined executions -/

/-- Two computations end in the same way, in states that are related. -/
inductive SameEnding {ε σ α : Type} (R : σ → σ → Prop) :
    EStateM.Result ε σ α → EStateM.Result ε σ α → Prop where
  | ok {a : α} {st st' : σ} (h : R st st') : SameEnding R (.ok a st) (.ok a st')
  | error {e : ε} {st st' : σ} (h : R st st') : SameEnding R (.error e st) (.error e st')

theorem SameEnding.bind {ε σ α β : Type} {R : σ → σ → Prop} {x y : EStateM ε σ α}
    {f g : α → EStateM ε σ β} {st st' : σ} (h : SameEnding R (x st) (y st'))
    (hf : ∀ a st₁ st₂, R st₁ st₂ → SameEnding R (f a st₁) (g a st₂)) :
    SameEnding R ((x >>= f) st) ((y >>= g) st') := by
  cases hx : x st with
  | ok a st₁ =>
    cases hy : y st' with
    | ok b st₂ =>
      rw [hx, hy] at h
      cases h with
      | ok h =>
        rw [bind_of_ok hx, bind_of_ok hy]
        exact hf a st₁ st₂ h
    | error e st₂ =>
      rw [hx, hy] at h
      cases h
  | error e st₁ =>
    cases hy : y st' with
    | ok b st₂ =>
      rw [hx, hy] at h
      cases h
    | error e' st₂ =>
      rw [hx, hy] at h
      cases h with
      | error h =>
        rw [bind_of_error hx, bind_of_error hy]
        exact .error h

/-- Two stores with the same output, whose scopes agree on some variables. -/
structure Store.Alike (V : List Key) (st st' : Store) : Prop where
  scope : st.scope.AgreeOn V st'.scope
  log : st.log = st'.log

/-- An execution that reads and writes the given variables only: it ends in the same way in stores
that are alike, and keeps all other bindings, whether it fails or not. -/
structure Confined {α : Type} (V : List Key) (x : Exec α) : Prop where
  alike : ∀ st st', st.Alike V st' → SameEnding (Store.Alike V) (x st) (x st')
  keeps : ∀ st, Ensures x st (fun _ st' => st'.scope.outside V = st.scope.outside V)
    (fun _ st' => st'.scope.outside V = st.scope.outside V)

namespace Confined

variable {V : List Key} {α β : Type}

theorem pure (a : α) : Confined V (Pure.pure a : Exec α) :=
  ⟨fun _ _ h => .ok h, fun _ => rfl⟩

theorem throw (e : Failure) : Confined V (throw e : Exec α) :=
  ⟨fun _ _ h => .error h, fun _ => rfl⟩

theorem bind {x : Exec α} {f : α → Exec β} (hx : Confined V x) (hf : ∀ a, Confined V (f a)) :
    Confined V (x >>= f) where
  alike st st' h := (hx.alike st st' h).bind fun a st₁ st₂ h => (hf a).alike st₁ st₂ h
  keeps st := (hx.keeps st).bind (fun _ _ he => he) fun a st₁ h =>
    ((hf a).keeps st₁).weaken (fun _ _ h' => h'.trans h) fun _ _ h' => h'.trans h

theorem ofEval {f : Scope → Eval α} (h : ∀ σ τ : Scope, σ.AgreeOn V τ → f σ = f τ) :
    Confined V (Exec.ofEval f) where
  alike := by
    rintro ⟨σ, log⟩ ⟨τ, _⟩ ⟨hscope, ⟨rfl⟩⟩
    simp only [Exec.ofEval]
    rw [h σ τ hscope]
    cases f τ log with
    | ok a log' => exact .ok ⟨hscope, rfl⟩
    | error e log' => exact .error ⟨hscope, rfl⟩
  keeps st := .ofEval (.intro (fun _ _ _ => rfl) fun _ _ _ => rfl) (fun _ _ h => h) fun _ _ h => h

theorem note (verbosity level : Nat) (line : Codes) :
    Confined V (Exec.note .any verbosity level line) := by
  rw [Exec.note]
  split
  · refine ⟨?_, fun st => rfl⟩
    rintro ⟨σ, log⟩ ⟨τ, _⟩ ⟨hscope, ⟨rfl⟩⟩
    exact .ok ⟨hscope, rfl⟩
  · exact pure ()

theorem update {f : Scope → Except Failure Scope}
    (hagree : ∀ σ τ : Scope, σ.AgreeOn V τ → Scope.AgreeAfter V (f σ) (f τ))
    (hkeeps : ∀ σ σ' : Scope, f σ = .ok σ' → σ'.outside V = σ.outside V) :
    Confined V (Exec.update f) where
  alike st st' h := by
    have hafter := hagree st.scope st'.scope h.scope
    simp only [Exec.update]
    cases hσ : f st.scope with
    | ok σ' =>
      cases hτ : f st'.scope with
      | ok τ' =>
        rw [hσ, hτ] at hafter
        exact .ok ⟨hafter, h.log⟩
      | error e =>
        rw [hσ, hτ] at hafter
        exact hafter.elim
    | error e =>
      cases hτ : f st'.scope with
      | ok τ' =>
        rw [hσ, hτ] at hafter
        exact hafter.elim
      | error e' =>
        rw [hσ, hτ] at hafter
        cases hafter
        exact .error h
  keeps st := by
    simp only [Ensures, Exec.update]
    cases hσ : f st.scope with
    | ok σ' => exact hkeeps st.scope σ' hσ
    | error e => rfl

end Confined

/-! ### Statements -/

section Statements

variable {s : Setting} {call : Caller} {V : List Key}

theorem condition_confined {test : Expr} (hV : test.variables ⊆ V) (statement : String) :
    Confined V (condition s call statement test) := by
  refine (Confined.ofEval fun σ τ h => eval_agree h test hV).bind fun v => ?_
  refine (Confined.ofEval fun _ _ _ => rfl).bind fun holds => ?_
  exact (Confined.note _ _ _).bind fun _ => .pure holds

theorem loopTurn_confined {x : Exec Bool} {y : Exec Completion} (hx : Confined V x)
    (hy : Confined V y) : Confined V (loopTurn x y) := by
  refine hx.bind fun holds => ?_
  cases holds with
  | false => exact .pure _
  | true =>
    refine hy.bind fun c => ?_
    cases c with
    | normal => exact .pure _
    | returned v => exact .pure _

/-- The turns of a loop, by induction on how many it may take. -/
theorem repeatTurns_confined {turn : Exec (Option Completion)} (hturn : Confined V turn) :
    ∀ turns, Confined V (repeatTurns turn turns) := by
  intro turns
  induction turns with
  | zero => exact .throw _
  | succ turns ih =>
    refine hturn.bind fun next => ?_
    cases next with
    | some c => exact .pure c
    | none => exact ih

mutual

theorem exec_confined : ∀ stmt : Stmt, stmt.variables ⊆ V → Confined V (exec s call stmt)
  | .declare tag name start, hV => by
    obtain ⟨hname, hstart⟩ := List.append_subset.mp hV
    refine (Confined.ofEval fun σ τ h => startValue_agree h hstart).bind fun v => ?_
    have hdeclare : Confined V (Exec.update fun σ => σ.declare tag name v) :=
      .update (fun _ _ h => h.declare tag name v) fun _ _ h => Scope.outside_declare hname h
    refine hdeclare.bind fun _ => ?_
    exact (Confined.note _ _ _).bind fun _ => .pure _
  | .assign name e, hV => by
    obtain ⟨hname, he⟩ := List.append_subset.mp hV
    refine (Confined.ofEval fun σ τ h => eval_agree h e he).bind fun v => ?_
    have hassign : Confined V (Exec.update fun σ => σ.assign name v) :=
      .update (fun _ _ h => h.assign hname v) fun _ _ h => Scope.outside_assign hname h
    refine hassign.bind fun _ => ?_
    exact (Confined.note _ _ _).bind fun _ => .pure _
  | .branch test yes no, hV => by
    obtain ⟨htest, hblocks⟩ := List.append_subset.mp hV
    obtain ⟨hyes, hno⟩ := List.append_subset.mp hblocks
    refine (condition_confined htest "if").bind fun holds => ?_
    cases holds with
    | true => exact execBlock_confined yes hyes
    | false => exact execElse_confined no hno
  | .loop test body, hV => by
    obtain ⟨htest, hbody⟩ := List.append_subset.mp hV
    exact repeatTurns_confined (loopTurn_confined (condition_confined htest "while")
      (execBlock_confined body hbody)) s.turns
  | .ret e, hV => by
    refine (Confined.ofEval fun σ τ h => eval_agree h e hV).bind fun v => ?_
    exact (Confined.note _ _ _).bind fun _ => .pure _
  | .expr e, hV => (Confined.ofEval fun σ τ h => eval_agree h e hV).bind fun _ => .pure _
  | .block body, hV => execAll_confined body hV
  | .misfit _, _ => .throw _

theorem execBlock_confined : ∀ block : Block, block.variables ⊆ V →
    Confined V (execBlock s call block)
  | .stmts body, hV => execAll_confined body hV
  | .main body, hV => execAll_confined body hV
  | .absent, _ => .throw _
  | .misfit _, _ => .throw _

theorem execElse_confined : ∀ block : Block, block.variables ⊆ V →
    Confined V (execElse s call block)
  | .stmts body, hV => execAll_confined body hV
  | .main body, hV => execAll_confined body hV
  | .absent, _ => .pure _
  | .misfit _, _ => .throw _

theorem execAll_confined : ∀ body : List Stmt, Stmt.allVariables body ⊆ V →
    Confined V (execAll s call body)
  | [], _ => .pure _
  | stmt :: rest, hV => by
    obtain ⟨hstmt, hrest⟩ := List.append_subset.mp hV
    refine (exec_confined stmt hstmt).bind fun c => ?_
    cases c with
    | normal => exact execAll_confined rest hrest
    | returned v => exact .pure _

end

/-- An expression keeps the scope, whether it fails or not. -/
theorem exec_ofEval_keeps {α : Type} {f : Scope → Eval α} (st : Store) :
    Ensures (Exec.ofEval f) st (fun _ st' => st'.scope = st.scope)
      (fun _ st' => st'.scope = st.scope) := by
  rw [Ensures, Exec.ofEval]
  cases f st.scope st.log <;> rfl

end Statements

/-! ### Interpreters -/

/-- Two worlds with the same functions and the same output, whose scopes agree on some variables. -/
structure World.Alike (V : List Key) (w w' : World) : Prop where
  functions : w.functions = w'.functions
  scope : w.scope.AgreeOn V w'.scope
  log : w.log = w'.log

namespace Interpreter

variable {i : Interpreter} {V : List Key} {α : Type} {f : Setting → Caller → Exec α}

/-- The function table is kept by whatever is executed in the top-level scope. -/
theorem inScope_ensures {w : World} {Q : α → Scope → Prop} {E : Failure → Scope → Prop}
    (h : Ensures (f (i.setting w.functions) (i.caller w.functions)) ⟨w.scope, w.log⟩
      (fun a st => Q a st.scope) (fun e st => E e st.scope)) :
    Ensures (i.inScope f) w (fun a w' => w'.functions = w.functions ∧ Q a w'.scope)
      (fun e w' => w'.functions = w.functions ∧ E e w'.scope) := by
  rw [Ensures, inScope]
  cases hx : f (i.setting w.functions) (i.caller w.functions) ⟨w.scope, w.log⟩ with
  | ok a st => exact ⟨rfl, h.ok hx⟩
  | error e st => exact ⟨rfl, h.error hx⟩

section

variable {e : Expr} {w w' : World}

/-- An expression is evaluated at the top level in the scope of the world, which it keeps. -/
theorem eval_eq_ok {v : Value} : i.eval e w = .ok v w' ↔ ∃ log,
    SmallImp.eval (i.setting w.functions) (i.caller w.functions) w.scope e w.log = .ok v log ∧
      w' = { w with log } := by
  simp only [eval, inScope, Exec.ofEval]
  cases SmallImp.eval (i.setting w.functions) (i.caller w.functions) w.scope e w.log with
  | ok v' log =>
    constructor
    · rintro ⟨⟩
      exact ⟨log, rfl, rfl⟩
    · rintro ⟨_, ⟨⟩, rfl⟩
      rfl
  | error err log => simp

theorem eval_eq_error {err : Failure} : i.eval e w = .error err w' ↔ ∃ log,
    SmallImp.eval (i.setting w.functions) (i.caller w.functions) w.scope e w.log = .error err log ∧
      w' = { w with log } := by
  simp only [eval, inScope, Exec.ofEval]
  cases SmallImp.eval (i.setting w.functions) (i.caller w.functions) w.scope e w.log with
  | ok v log => simp
  | error err' log =>
    constructor
    · rintro ⟨⟩
      exact ⟨log, rfl, rfl⟩
    · rintro ⟨_, ⟨⟩, rfl⟩
      rfl

end

end Interpreter

/-- A world with variables that have the given types and values, and nothing else. -/
def World.ofVariables (rows : List (Codes × Codes × Value)) : World :=
  ⟨.empty, ⟨rows.map fun (name, tag, v) => (.str name, ⟨.str name, .str tag, v⟩)⟩, .empty⟩

end SmallImp
