import SmallImp.Proofs.Environments
import SmallImp.Proofs.Rules

/-!
# Declarations

What an execution does to its scope is a row of assignments and declarations. The names that it
declares can be told from the steps that it takes, up to the one at which it fails.

* `Exec.after` — the names declared after an execution that succeeds;
* `Stmt.declared`, `Block.declared`, `Stmt.allDeclared` — the names that statements declare, in the
  order in which they do;
* `Declares` — an execution declares these names, and does nothing else to its scope but assignments;
* `exec_declares`, `execAll_declares` — statements declare their names;
* `Binds.becomes` — a call declares the names of its parameters.
-/

namespace SmallImp

/-! ### The names that are declared -/

/-- The names that are declared after an execution, given its result and the state it leaves: none if
it fails. -/
def Exec.after {α : Type} (x : Exec α) (names : α → Store → List Codes) (st : Store) : List Codes :=
  match x st with
  | .ok a st' => names a st'
  | .error _ _ => []

theorem Exec.after_of_ok {α : Type} {x : Exec α} {names : α → Store → List Codes} {st st' : Store}
    {a : α} (h : x st = .ok a st') : x.after names st = names a st' := by
  rw [after, h]

theorem Exec.after_of_error {α : Type} {x : Exec α} {names : α → Store → List Codes}
    {st st' : Store} {e : Failure} (h : x st = .error e st') : x.after names st = [] := by
  rw [after, h]

/-- The names that the turns of a loop declare, given those of one turn. -/
def turnsDeclared (turn : Exec (Option Completion)) (names : Store → List Codes) :
    Nat → Store → List Codes
  | 0, _ => []
  | turns + 1, st => names st ++ turn.after (fun completion st' =>
      match completion with
      | none => turnsDeclared turn names turns st'
      | some _ => []) st

section

variable (s : Setting) (call : Caller)

mutual

/-- The names that a statement declares in its own scope when it is executed, in order. A declaration
that fails declares nothing. -/
def Stmt.declared : Stmt → Store → List Codes
  | .declare tag name start => (exec s call (.declare tag name start)).after fun _ _ => name.texts
  | .branch test yes no => (condition s call "if" test).after fun holds st =>
      if holds then Block.declared yes st else Block.declared no st
  | .loop test body =>
    turnsDeclared (loopTurn (condition s call "while" test) (execBlock s call body))
      ((condition s call "while" test).after fun holds st =>
        if holds then Block.declared body st else []) s.turns
  | .block body => Stmt.allDeclared body
  | .assign _ _ | .ret _ | .expr _ | .misfit _ => fun _ => []

/-- The names that a block declares. -/
def Block.declared : Block → Store → List Codes
  | .stmts body | .main body => Stmt.allDeclared body
  | .absent | .misfit _ => fun _ => []

/-- The names that statements declare one after the other, until one of them returns or fails. -/
def Stmt.allDeclared : List Stmt → Store → List Codes
  | [] => fun _ => []
  | stmt :: rest => fun st => Stmt.declared stmt st ++ (exec s call stmt).after (fun completion st' =>
      match completion with
      | .normal => Stmt.allDeclared rest st'
      | .returned _ => []) st

end

end

/-! ### Executions -/

/-- Whether it fails or not, an execution declares these names, and does nothing else to its scope but
assignments. -/
def Declares {α : Type} (x : Exec α) (names : Store → List Codes) : Prop := ∀ st, Ensures x st
  (fun _ st' => st.scope.Becomes (names st) st'.scope)
  (fun _ st' => st.scope.Becomes (names st) st'.scope)

namespace Declares

variable {α β : Type} {x : Exec α} {f : α → Exec β} {names : Store → List Codes}
  {more : α → Store → List Codes}

theorem pure (a : α) : Declares (Pure.pure a) fun _ => [] := fun _ => .pure (.refl _)

theorem throw (e : Failure) : Declares (throw e : Exec α) fun _ => [] := fun st =>
  Scope.Becomes.refl st.scope

theorem ofEval (f : Scope → Eval α) : Declares (Exec.ofEval f) fun _ => [] := fun st =>
  (exec_ofEval_keeps st).weaken (fun _ _ h => h ▸ .refl _) fun _ _ h => h ▸ .refl _

theorem note (verbosity level : Nat) (line : Codes) :
    Declares (Exec.note .any verbosity level line) fun _ => [] := by
  rw [Exec.note]
  split
  · exact fun st => Scope.Becomes.refl st.scope
  · exact pure ()

/-- One execution after another. -/
theorem bind (hx : Declares x names) (hf : ∀ a, Declares (f a) (more a)) :
    Declares (x >>= f) fun st => names st ++ x.after more st := by
  intro st
  beta_reduce
  cases h : x st with
  | ok a st' =>
    have hfirst := (hx st).ok h
    rw [Exec.after_of_ok h, Ensures, bind_of_ok h]
    exact (hf a st').weaken (fun _ _ => hfirst.trans) fun _ _ => hfirst.trans
  | error e st' =>
    rw [Exec.after_of_error h, Ensures, bind_of_error h]
    exact ((hx st).error h).trans (.refl _)

/-- An execution after one that declares nothing. -/
theorem bindAfter (hx : Declares x fun _ => []) (hf : ∀ a, Declares (f a) (more a)) :
    Declares (x >>= f) (x.after more) := hx.bind hf

/-- An execution followed by one that declares nothing. -/
theorem bindNothing (hx : Declares x names) (hf : ∀ a, Declares (f a) fun _ => []) :
    Declares (x >>= f) names := by
  intro st
  refine (hx st).bind (fun _ _ h => h) fun a st' h => ?_
  have hend : ∀ σ, st'.scope.Becomes [] σ → st.scope.Becomes (names st) σ := fun σ h' =>
    List.append_nil (names st) ▸ h.trans h'
  exact (hf a st').weaken (fun _ st'' => hend st''.scope) fun _ st'' => hend st''.scope

theorem map (hx : Declares x names) (g : α → β) : Declares (g <$> x) names :=
  fun st => (hx st).map fun _ _ h => h

end Declares

section

variable {s : Setting} {call : Caller}

theorem condition_declares (statement : String) (test : Expr) :
    Declares (condition s call statement test) (fun _ => []) := by
  refine (Declares.ofEval _).bindNothing fun v => ?_
  refine (Declares.ofEval _).bindNothing fun holds => ?_
  exact (Declares.note _ _ _).bindNothing fun _ => .pure holds

/-- A value is evaluated and written to the scope, which is changed only if all of it succeeds. -/
theorem write_becomes {value : Scope → Eval Value} {write : Value → Scope → Except Failure Scope}
    {declared : List Codes} (hwrite : ∀ v σ σ', write v σ = .ok σ' → σ.Becomes declared σ')
    (line : Value → Codes) (st : Store) :
    Ensures (do
        let v ← Exec.ofEval value
        Exec.update (write v)
        Exec.note .any s.verbosity 2 (line v)
        return Completion.normal) st
      (fun _ st' => st.scope.Becomes declared st'.scope)
      (fun _ st' => st.scope.Becomes [] st'.scope) := by
  have hkept : ∀ {st' : Store}, st'.scope = st.scope → st.scope.Becomes [] st'.scope := fun h =>
    h ▸ .refl _
  refine (exec_ofEval_keeps st).bind (fun _ _ h => hkept h) fun v st' h => ?_
  refine Ensures.bindUpdate (fun σ hσ => ?_) fun _ _ => hkept h
  exact Ensures.bindNote fun _ _ => .pure (hwrite v _ σ (h ▸ hσ))

/-- A declaration that succeeds declares its name, one that fails declares nothing. -/
theorem declare_declares {tag : TypeTag} {name : Name} (hn : name.IsText) (start : Option Expr) :
    Declares (exec s call (.declare tag name start))
      ((exec s call (.declare tag name start)).after fun _ _ => name.texts) := by
  intro st
  have h : Ensures (exec s call (.declare tag name start)) st
      (fun _ st' => st.scope.Becomes name.texts st'.scope)
      (fun _ st' => st.scope.Becomes [] st'.scope) := by
    rw [exec]
    exact write_becomes (fun v σ σ' hσ => .declare hn hσ) _ st
  refine .intro (fun c st' hx => ?_) fun e st' hx => ?_
  · rw [Exec.after_of_ok hx]
    exact h.ok hx
  · rw [Exec.after_of_error hx]
    exact h.error hx

theorem assign_declares {name : Name} (hn : name.IsText) (e : Expr) :
    Declares (exec s call (.assign name e)) (fun _ => []) := by
  intro st
  rw [exec]
  exact write_becomes (fun v σ σ' hσ => .assign hn hσ) _ st

theorem loopTurn_declares {test : Exec Bool} {body : Exec Completion} {names : Store → List Codes}
    (htest : Declares test fun _ => []) (hbody : Declares body names) :
    Declares (loopTurn test body) (test.after fun holds st => if holds then names st else []) := by
  refine htest.bindAfter fun holds => ?_
  cases holds with
  | false => exact .pure _
  | true =>
    refine hbody.bindNothing fun completion => ?_
    cases completion with
    | normal => exact .pure _
    | returned v => exact .pure _

/-- The turns of a loop, by induction on how many it may take. -/
theorem repeatTurns_declares {turn : Exec (Option Completion)} {names : Store → List Codes}
    (h : Declares turn names) : ∀ turns, Declares (repeatTurns turn turns) (turnsDeclared turn names turns)
  | 0 => .throw _
  | turns + 1 => by
    refine h.bind fun completion => ?_
    cases completion with
    | none => exact repeatTurns_declares h turns
    | some c => exact .pure c

-- The induction is on the statement. Only declarations and assignments write to the scope; what the
-- other statements declare is put together from their parts. Calls do not matter, as they have scopes
-- of their own.
mutual

/-- **Statements declare their names, and do nothing else to their scope but assignments.** -/
theorem exec_declares : ∀ stmt : Stmt, stmt.Sorted True →
    Declares (exec s call stmt) (stmt.declared s call)
  | .declare _ _ start, h => declare_declares (h.1 trivial).2 start
  | .assign _ e, h => assign_declares (h.1 trivial) e
  | .branch test yes no, h => by
    rw [exec]
    refine (condition_declares _ test).bindAfter fun holds => ?_
    cases holds with
    | false => exact execElse_declares no h.2.2
    | true => exact execBlock_declares yes h.2.1
  | .loop test body, h => by
    rw [exec]
    exact repeatTurns_declares
      (loopTurn_declares (condition_declares _ test) (execBlock_declares body h.2)) _
  | .ret e, _ => by
    rw [exec]
    refine (Declares.ofEval _).bindNothing fun v => ?_
    exact (Declares.note _ _ _).bindNothing fun _ => .pure _
  | .expr e, _ => by
    rw [exec]
    exact (Declares.ofEval _).bindNothing fun _ => .pure _
  | .block body, h => by
    rw [exec]
    exact execAll_declares body h.2
  | .misfit _, _ => .throw _

theorem execBlock_declares {optional : Prop} : ∀ block : Block, block.Sorted True optional →
    Declares (execBlock s call block) (block.declared s call)
  | .stmts body, h => by
    rw [execBlock]
    exact execAll_declares body h
  | .main body, h => by
    rw [execBlock]
    exact execAll_declares body h.2
  | .absent, _ => .throw _
  | .misfit _, _ => .throw _

theorem execElse_declares {optional : Prop} : ∀ block : Block, block.Sorted True optional →
    Declares (execElse s call block) (block.declared s call)
  | .stmts body, h => by
    rw [execElse]
    exact execAll_declares body h
  | .main body, h => by
    rw [execElse]
    exact execAll_declares body h.2
  | .absent, _ => .pure _
  | .misfit _, _ => .throw _

theorem execAll_declares : ∀ body : List Stmt, Stmt.AllSorted True body →
    Declares (execAll s call body) (Stmt.allDeclared s call body)
  | [], _ => .pure _
  | stmt :: rest, h => by
    rw [execAll]
    refine (exec_declares stmt h.1).bind fun completion => ?_
    cases completion with
    | normal => exact execAll_declares rest h.2
    | returned v => exact .pure _

end

end

/-! ### Parameters -/

/-- The name that a parameter declares. -/
def Param.names : Param → List Codes
  | .param _ name => name.texts
  | .misfit _ => []

/-- A call with as many arguments as there are parameters declares all of them in order. -/
theorem Binds.becomes {σ σ' : Scope} {params : List Param} {args : List Value}
    (h : Binds σ params args σ') (hparams : ∀ p ∈ params, p.Sorted True)
    (hl : args.length = params.length) : σ.Becomes (params.flatMap Param.names) σ' := by
  induction h with
  | @done _ params _ h =>
    have hnone : params = [] := by
      rcases h with rfl | rfl
      · rfl
      · exact List.length_eq_zero_iff.mp hl.symm
    rw [hnone]
    exact .refl _
  | @param _ _ _ p _ _ _ _ _ hp hd _ ih =>
    obtain ⟨hfirst, hrest⟩ := List.forall_mem_cons.mp hparams
    rw [List.flatMap_cons]
    cases p with
    | misfit node => exact absurd trivial hfirst
    | param tag name =>
      cases hp
      exact (Scope.Becomes.declare (hfirst trivial).2 hd).trans (ih hrest (Nat.succ.inj hl))

end SmallImp
