import SmallImp.Proofs.Adequacy
import SmallImp.Proofs.Points

/-!
# Where failures arise

Nothing in a program catches a failure. A task fails just when it comes to a point that fails by itself,
and it fails with the failure of that point. So what cannot be raised at any point of a run cannot be the
end of the run, and what is raised somewhere is its end.

* `Raises` — the points that fail by themselves;
* `Fails` — the points that come to such a point;
* `Task.perform_located` — a failure of a task is raised at a point that the task comes to;
* `EndsIn` — ending with a failure, unless a loop runs out of turns first;
* `Fails.endsIn` — a failure that is raised at a point is the end of every task that comes there;
* `Raises.classify` — what a failure can be, by where it is raised;
* `Interpreter.run_error_cases`, `Interpreter.Reaches.endsIn` — the same for whole runs.
-/

namespace SmallImp

/-- A point fails, and not in a task that it starts. How many turns a loop has taken is no part of a
point, so that a loop may run out of turns at all of its points. -/
inductive Raises (s : Setting) : Point → Failure → Prop where
  -- expressions
  | var {d name st e} (h : Scope.read st.scope name = .error e) :
      Raises s ⟨d, .eval (.var name), st⟩ e
  | binary {d left op right σ log a log₁ b log₂ e}
      (hl : eval s (callWithin s d) σ left log = .ok a log₁)
      (hr : eval s (callWithin s d) σ right log₁ = .ok b log₂)
      (h : BinaryOp.apply op a b = .error e) :
      Raises s ⟨d, .eval (.binary left op right), ⟨σ, log⟩⟩ e
  | unary {d op operand σ log a log' e}
      (ha : eval s (callWithin s d) σ operand log = .ok a log') (h : UnaryOp.apply op a = .error e) :
      Raises s ⟨d, .eval (.unary op operand), ⟨σ, log⟩⟩ e
  | callee {d name args st e} (h : s.callee name args.length = .error e) :
      Raises s ⟨d, .eval (.call name args), st⟩ e
  | notExpression {d node st} :
      Raises s ⟨d, .eval (.misfit node), st⟩ (.defect (.notExpression node.className))
  -- calls
  | tooDeep {f args st} : Raises s ⟨0, .call f args, st⟩ (.exhausted .calls)
  | params {d f args st e} (h : bindParams .empty f.params args = .error e) :
      Raises s ⟨d + 1, .call f args, st⟩ e
  | noBody {d f args frame st} (hb : bindParams .empty f.params args = .ok frame)
      (hs : f.body.statements? = none) : Raises s ⟨d + 1, .call f args, st⟩ (.defect .missingField)
  | noReturn {d f args frame body st st'} (hb : bindParams .empty f.params args = .ok frame)
      (hs : f.body.statements? = some body)
      (h : execAll s (callWithin s d) body ⟨frame, st.log⟩ = .ok .normal st') :
      Raises s ⟨d + 1, .call f args, st⟩ (.error (.noReturn f.name))
  -- statements
  | declare {d tag name start σ log v log' e}
      (hv : startValue s (callWithin s d) σ start log = .ok v log')
      (h : Scope.declare σ tag name v = .error e) :
      Raises s ⟨d, .exec (.declare tag name start), ⟨σ, log⟩⟩ e
  | assign {d name value σ log v log' e}
      (hv : eval s (callWithin s d) σ value log = .ok v log') (h : Scope.assign σ name v = .error e) :
      Raises s ⟨d, .exec (.assign name value), ⟨σ, log⟩⟩ e
  | branchTest {d test yes no σ log v log' e}
      (hv : eval s (callWithin s d) σ test log = .ok v log') (h : v.condition "if" = .error e) :
      Raises s ⟨d, .exec (.branch test yes no), ⟨σ, log⟩⟩ e
  | noYes {d test yes no st st'} (h : condition s (callWithin s d) "if" test st = .ok true st')
      (hs : Block.statements? yes = none) :
      Raises s ⟨d, .exec (.branch test yes no), st⟩ (.defect .missingField)
  | noNo {d test yes no st st'} (h : condition s (callWithin s d) "if" test st = .ok false st')
      (hs : Block.statements? no = none) (hno : no ≠ .absent) :
      Raises s ⟨d, .exec (.branch test yes no), st⟩ (.defect .missingField)
  | loopTest {d test block σ log v log' e}
      (hv : eval s (callWithin s d) σ test log = .ok v log') (h : v.condition "while" = .error e) :
      Raises s ⟨d, .exec (.loop test block), ⟨σ, log⟩⟩ e
  | noTurn {d test block st st'} (h : condition s (callWithin s d) "while" test st = .ok true st')
      (hs : Block.statements? block = none) :
      Raises s ⟨d, .exec (.loop test block), st⟩ (.defect .missingField)
  | turns {d test block st} : Raises s ⟨d, .exec (.loop test block), st⟩ (.exhausted .turns)
  | notStatement {d node st} :
      Raises s ⟨d, .exec (.misfit node), st⟩ (.defect (.notStatement node.className))

/-- A point comes to one that fails by itself. -/
def Fails (s : Setting) (point : Point) (e : Failure) : Prop :=
  ∃ point', Relation.ReflTransGen (Starts s) point point' ∧ Raises s point' e

variable {s : Setting} {d : Nat} {point point' : Point} {e : Failure}

theorem Fails.here (h : Raises s point e) : Fails s point e := ⟨point, .refl, h⟩

theorem Fails.from (h : Fails s point' e) (hstart : Starts s point point') : Fails s point e := by
  obtain ⟨point'', hsteps, hraises⟩ := h
  exact ⟨point'', .head hstart hsteps, hraises⟩

/-! ### A failure is raised somewhere -/

/-- The evaluation, started at a point, fails only if the point comes to one that fails by itself. -/
def EvalLocated {α : Type} (s : Setting) (d : Nat) (task : Task) (σ : Scope) (x : Eval α) : Prop :=
  ∀ log, Ensures x log (fun _ _ => True) (fun e _ => Fails s ⟨d, task, ⟨σ, log⟩⟩ e)

/-- The execution, started at a point, fails only if the point comes to one that fails by itself. -/
def ExecLocated {α : Type} (s : Setting) (d : Nat) (task : Task) (x : Exec α) : Prop :=
  ∀ st, Ensures x st (fun _ _ => True) (fun e _ => Fails s ⟨d, task, st⟩ e)

/-- Calls fail only if they come to a point that fails by itself. -/
def CallsLocated (s : Setting) (d : Nat) : Prop :=
  ∀ f args σ, EvalLocated s d (.call f args) σ (callWithin s d f args)

theorem Eval.note_ok (verbosity level : Nat) (line : Codes) (log : Log) :
    ∃ log', Eval.note .any verbosity level line log = .ok () log' := by
  rw [Eval.note]
  split
  · exact ⟨log.note line, rfl⟩
  · exact ⟨log, rfl⟩

-- The induction is on the expression; what a failure of a part comes from is found at the point that
-- the part is started at.
mutual

theorem eval_located (hcall : CallsLocated s d) (σ : Scope) : ∀ e : Expr,
    EvalLocated s d (.eval e) σ (eval s (callWithin s d) σ e)
  | .lit value => fun _ => trivial
  | .var name => fun _ => .ofExcept (fun _ _ => trivial) fun _ h => .here (.var h)
  | .binary left op right => by
    intro log
    refine .steps (fun e _ h => ((eval_located hcall σ left log).error h).from .left)
      fun a log₁ hl => ?_
    refine .steps (fun e _ h => ((eval_located hcall σ right log₁).error h).from (.right hl))
      fun b log₂ hr => ?_
    exact .ofExcept (fun _ _ => trivial) fun e h => .here (.binary hl hr h)
  | .unary op operand => by
    intro log
    refine .steps (fun e _ h => ((eval_located hcall σ operand log).error h).from .operand)
      fun a log₁ ha => ?_
    exact .ofExcept (fun _ _ => trivial) fun e h => .here (.unary ha h)
  | .call name args => by
    intro log
    refine .bindExcept (fun e h => .here (.callee h)) fun callee h => ?_
    cases callee with
    | builtin b =>
      cases hb : b.action with
      | print =>
        simp only [hb]
        exact (printAll_located hcall σ args log).weaken (fun _ _ h => h)
          fun e _ he => he.from (.print h hb)
      | last =>
        simp only [hb]
        exact (evalLast_located hcall σ .null args log).weaken (fun _ _ h => h)
          fun e _ he => he.from (.last h hb)
    | func f =>
      refine .steps (fun e _ he => ((evalAll_located hcall σ args log).error he).from (.args h))
        fun values log₁ ha => ?_
      obtain ⟨log₂, hn⟩ := Eval.note_ok s.verbosity 1 (callLine f.name values) log₁
      rw [Ensures, bind_of_ok hn]
      exact (hcall f values σ log₂).weaken (fun _ _ h => h) fun e _ he => he.from (.call h ha hn)
  | .misfit _ => fun _ => .here .notExpression

theorem evalAll_located (hcall : CallsLocated s d) (σ : Scope) : ∀ args : List Expr,
    EvalLocated s d (.evalAll args) σ (evalAll s (callWithin s d) σ args)
  | [] => fun _ => trivial
  | e :: rest => by
    intro log
    refine .steps (fun _ _ h => ((eval_located hcall σ e log).error h).from .firstArg)
      fun v log₁ hv => ?_
    exact .steps (fun _ _ h => ((evalAll_located hcall σ rest log₁).error h).from (.nextArgs hv))
      fun _ _ _ => trivial

theorem printAll_located (hcall : CallsLocated s d) (σ : Scope) : ∀ args : List Expr,
    EvalLocated s d (.print args) σ (printAll s (callWithin s d) σ args)
  | [] => fun _ => trivial
  | [e] => fun log =>
    .steps (fun _ _ h => ((eval_located hcall σ e log).error h).from .firstPrinted)
      fun _ _ _ => trivial
  | e :: next :: rest => by
    intro log
    refine .steps (fun _ _ h => ((eval_located hcall σ e log).error h).from .firstPrinted)
      fun v log₁ hv => ?_
    exact (printAll_located hcall σ (next :: rest) ((log₁.write v.display).write " ")).weaken
      (fun _ _ h => h) fun e _ he => he.from (.nextPrinted hv)

theorem evalLast_located (hcall : CallsLocated s d) (σ : Scope) : ∀ (last : Value) (args : List Expr),
    EvalLocated s d (.evalAll args) σ (evalLast s (callWithin s d) σ last args)
  | _, [] => fun _ => trivial
  | _, e :: rest => by
    intro log
    refine .steps (fun _ _ h => ((eval_located hcall σ e log).error h).from .firstArg)
      fun v log₁ hv => ?_
    exact (evalLast_located hcall σ v rest log₁).weaken (fun _ _ h => h)
      fun e _ he => he.from (.nextArgs hv)

end

/-- A condition fails where its expression does, or its value is no truth value. -/
theorem condition_error {call : Caller} {statement : String} {test : Expr} {st st' : Store}
    (h : condition s call statement test st = .error e st') :
    (∃ log, eval s call st.scope test st.log = .error e log) ∨
      ∃ v log, eval s call st.scope test st.log = .ok v log ∧ v.condition statement = .error e := by
  have hends : Ensures (condition s call statement test) st (fun _ _ => True) (fun e _ =>
      (∃ log, eval s call st.scope test st.log = .error e log) ∨
        ∃ v log, eval s call st.scope test st.log = .ok v log ∧ v.condition statement = .error e) := by
    refine .stepsEval (fun e log he => .inl ⟨log, he⟩) fun v log hv => ?_
    refine .bindEval (Q := fun _ _ => True)
      (.ofExcept (fun _ _ => trivial) fun e he => .inr ⟨v, log, hv, he⟩) (fun _ _ h => h) ?_
    exact fun _ _ _ => .bindNote fun _ _ => trivial
  exact hends.error h

/-- A block without statements cannot be executed. -/
theorem execBlock_none {call : Caller} {block : Block} (h : block.statements? = none) (st : Store) :
    execBlock s call block st = .error (.defect .missingField) st := by
  cases block with
  | stmts _ => cases h
  | main _ => cases h
  | absent => rfl
  | misfit _ => rfl

/-- A turn of a loop. If the loop has to go on, then its condition held and its body was completed. -/
theorem loopTurn_steps {test : Exec Bool} {body : Exec Completion} {st : Store} {E : Failure → Prop}
    (htest : ∀ e st', test st = .error e st' → E e)
    (hbody : ∀ e st₁ st', test st = .ok true st₁ → body st₁ = .error e st' → E e) :
    Ensures (loopTurn test body) st (fun next st' => next = none →
      ∃ st₁, test st = .ok true st₁ ∧ body st₁ = .ok .normal st') (fun e _ => E e) := by
  refine .steps htest fun holds st₁ ht => ?_
  cases holds with
  | false => exact nofun
  | true =>
    refine .steps (fun e st' he => hbody e st₁ st' ht he) fun c st' hb => ?_
    cases c with
    | normal => exact fun _ => ⟨st₁, ht, hb⟩
    | returned v => exact nofun

-- Only here does it matter that a point is the same however many turns its loop has taken.
theorem repeatTurns_located {test : Expr} {block : Block} {turn : Exec (Option Completion)}
    (hturn : ∀ st, Ensures turn st
      (fun next st' => next = none → Starts s ⟨d, .exec (.loop test block), st⟩
        ⟨d, .exec (.loop test block), st'⟩)
      (fun e _ => Fails s ⟨d, .exec (.loop test block), st⟩ e)) :
    ∀ turns, ExecLocated s d (.exec (.loop test block)) (repeatTurns turn turns) := by
  intro turns
  induction turns with
  | zero => exact fun st => .here .turns
  | succ turns ih =>
    intro st
    refine (hturn st).bind (fun _ _ h => h) fun next st' hnext => ?_
    cases next with
    | some c => exact trivial
    | none => exact (ih st').weaken (fun _ _ h => h) fun e _ he => he.from (hnext rfl)

mutual

theorem exec_located (hcall : CallsLocated s d) : ∀ stmt : Stmt,
    ExecLocated s d (.exec stmt) (exec s (callWithin s d) stmt)
  | .declare tag name start => by
    intro st
    refine .stepsEval (fun e log he => ?_) fun v log hv => ?_
    · cases start with
      | none => cases he
      | some value => exact ((eval_located hcall st.scope value st.log).error he).from .start
    · exact .bindUpdate (fun _ _ => .bindNote fun _ _ => trivial) fun e he => .here (.declare hv he)
  | .assign name value => by
    intro st
    refine .stepsEval (fun e log he => ?_) fun v log hv => ?_
    · exact ((eval_located hcall st.scope value st.log).error he).from .assigned
    · exact .bindUpdate (fun _ _ => .bindNote fun _ _ => trivial) fun e he => .here (.assign hv he)
  | .branch test yes no => by
    intro st
    refine .steps (fun e st' he => ?_) fun holds st' ht => ?_
    · rcases condition_error he with ⟨log, he⟩ | ⟨v, log, hv, he⟩
      · exact ((eval_located hcall st.scope test st.log).error he).from .branchTest
      · exact .here (.branchTest hv he)
    · cases holds with
      | true =>
        exact (execBlock_located hcall yes st').weaken (fun _ _ h => h) fun e _ he => by
          rcases he with ⟨hs, rfl⟩ | ⟨body, hs, he⟩
          · exact .here (.noYes ht hs)
          · exact he.from (.yes ht hs)
      | false =>
        by_cases hno : no = .absent
        · subst hno
          exact trivial
        · show Ensures (execElse s (callWithin s d) no) st' _ _
          rw [execElse_eq_execBlock hno]
          exact (execBlock_located hcall no st').weaken (fun _ _ h => h) fun e _ he => by
            rcases he with ⟨hs, rfl⟩ | ⟨body, hs, he⟩
            · exact .here (.noNo ht hs hno)
            · exact he.from (.no ht hs)
  | .loop test block => by
    refine repeatTurns_located (fun st => (loopTurn_steps ?_ ?_).weaken ?_ fun _ _ h => h) s.turns
    · intro e st' he
      rcases condition_error he with ⟨log, he⟩ | ⟨v, log, hv, he⟩
      · exact ((eval_located hcall st.scope test st.log).error he).from .loopTest
      · exact .here (.loopTest hv he)
    · intro e st₁ st' ht he
      rcases (execBlock_located hcall block st₁).error he with ⟨hs, rfl⟩ | ⟨body, hs, he⟩
      · exact .here (.noTurn ht hs)
      · exact he.from (.turn ht hs)
    · intro next st' hnext hnone
      obtain ⟨st₁, ht, hb⟩ := hnext hnone
      cases hs : block.statements? with
      | none => rw [execBlock_none hs] at hb; cases hb
      | some body => exact .again ht hs (by rwa [execBlock_eq hs] at hb)
  | .ret value => by
    intro st
    refine .stepsEval (fun e log he => ?_) fun v log hv => ?_
    · exact ((eval_located hcall st.scope value st.log).error he).from .returned
    · exact .bindNote fun _ _ => trivial
  | .expr value => by
    intro st
    refine .stepsEval (fun e log he => ?_) fun v log hv => ?_
    · exact ((eval_located hcall st.scope value st.log).error he).from .expr
    · exact trivial
  | .block body => fun st => (execAll_located hcall body st).weaken (fun _ _ h => h)
      fun e _ he => he.from .block
  | .misfit _ => fun _ => .here .notStatement

/-- A block fails because it has no statements, or where they do. -/
theorem execBlock_located (hcall : CallsLocated s d) : ∀ (block : Block) (st : Store),
    Ensures (execBlock s (callWithin s d) block) st (fun _ _ => True) (fun e _ =>
      (block.statements? = none ∧ e = .defect .missingField) ∨
        ∃ body, block.statements? = some body ∧ Fails s ⟨d, .execAll body, st⟩ e)
  | .stmts body, st => (execAll_located hcall body st).weaken (fun _ _ h => h)
      fun _ _ he => .inr ⟨body, rfl, he⟩
  | .main body, st => (execAll_located hcall body st).weaken (fun _ _ h => h)
      fun _ _ he => .inr ⟨body, rfl, he⟩
  | .absent, _ => .inl ⟨rfl, rfl⟩
  | .misfit _, _ => .inl ⟨rfl, rfl⟩

theorem execAll_located (hcall : CallsLocated s d) : ∀ body : List Stmt,
    ExecLocated s d (.execAll body) (execAll s (callWithin s d) body)
  | [] => fun _ => trivial
  | stmt :: rest => by
    intro st
    refine .steps (fun e st' he => ((exec_located hcall stmt st).error he).from .firstStmt)
      fun c st' hc => ?_
    cases c with
    | returned v => exact trivial
    | normal =>
      exact (execAll_located hcall rest st').weaken (fun _ _ h => h)
        fun e _ he => he.from (.nextStmts hc)

end

/-- Calls of any depth, by induction on the depth. -/
theorem callWithin_located (s : Setting) : ∀ d, CallsLocated s d := by
  intro d
  induction d with
  | zero => exact fun f args σ log => .here .tooDeep
  | succ d ih =>
    intro f args σ log
    refine .bindExcept (fun e h => .here (.params h)) fun frame hb => ?_
    rw [Ensures, runBody]
    cases hs : f.body.statements? with
    | none =>
      rw [execBlock_none hs]
      exact .here (.noBody hb hs)
    | some body =>
      rw [execBlock_eq hs]
      cases hx : execAll s (callWithin s d) body ⟨frame, log⟩ with
      | ok c st =>
        cases c with
        | returned v => exact trivial
        | normal => exact .here (.noReturn hb hs hx)
      | error e st => exact ((execAll_located ih body ⟨frame, log⟩).error hx).from (.body hb hs)

/-- **A failure of a task is raised at a point that the task comes to.** -/
theorem Task.perform_located (s : Setting) (d : Nat) (task : Task) :
    ExecLocated s d task (task.perform s d) := by
  intro st
  have hcall := callWithin_located s d
  cases task with
  | eval e => exact .map (.ofEval (eval_located hcall st.scope e st.log) (fun _ _ h => h)
      fun _ _ h => h) fun _ _ h => h
  | evalAll args => exact .map (.ofEval (evalAll_located hcall st.scope args st.log) (fun _ _ h => h)
      fun _ _ h => h) fun _ _ h => h
  | print args => exact .map (.ofEval (printAll_located hcall st.scope args st.log) (fun _ _ h => h)
      fun _ _ h => h) fun _ _ h => h
  | call f args => exact .map (.ofEval (hcall f args st.scope st.log) (fun _ _ h => h)
      fun _ _ h => h) fun _ _ h => h
  | exec stmt => exact .map (exec_located hcall stmt st) fun _ _ h => h
  | execAll body => exact .map (execAll_located hcall body st) fun _ _ h => h

/-! ### A failure that is raised is the end -/

/-- From a state the computation fails with `e`, or a loop in it runs out of turns first. -/
def EndsIn {σ α : Type} (x : EStateM Failure σ α) (st : σ) (e : Failure) : Prop :=
  Ensures x st (fun _ _ => False) (fun e' _ => e' = e ∨ e' = .exhausted .turns)

namespace EndsIn

variable {σ α β : Type} {x : EStateM Failure σ α} {st st' : σ}

theorem fails (h : x st = .error e st') : EndsIn x st e := by
  rw [EndsIn, Ensures, h]
  exact .inl rfl

theorem outOfTurns (h : x st = .error (.exhausted .turns) st') : EndsIn x st e := by
  rw [EndsIn, Ensures, h]
  exact .inr rfl

/-- Nothing catches a failure. -/
theorem bind (h : EndsIn x st e) (f : α → EStateM Failure σ β) : EndsIn (x >>= f) st e :=
  Ensures.bind h (fun _ _ he => he) fun _ _ ha => ha.elim

/-- What comes after a computation that succeeded. -/
theorem after {f : α → EStateM Failure σ β} {a : α} (hx : x st = .ok a st') (h : EndsIn (f a) st' e) :
    EndsIn (x >>= f) st e := by
  rw [EndsIn, Ensures, bind_of_ok hx]
  exact h

theorem of_bind_pure {g : α → β} (h : EndsIn (x >>= fun a => Pure.pure (g a)) st e) : EndsIn x st e := by
  rw [EndsIn, Ensures] at h ⊢
  cases hx : x st with
  | ok a st' =>
    rw [bind_of_ok hx] at h
    exact h
  | error e' st' =>
    rw [bind_of_error hx] at h
    exact h

theorem map_iff (g : α → β) : EndsIn (g <$> x) st e ↔ EndsIn x st e := by
  rw [map_eq_pure_bind]
  exact ⟨of_bind_pure, fun h => h.bind _⟩

theorem ofEval_iff {f : Scope → Eval α} {st : Store} :
    EndsIn (Exec.ofEval f) st e ↔ EndsIn (f st.scope) st.log e := by
  rw [EndsIn, EndsIn, Ensures, Ensures, Exec.ofEval]
  cases f st.scope st.log <;> exact Iff.rfl

theorem update {f : Scope → Except Failure Scope} {st : Store} (h : f st.scope = .error e) :
    EndsIn (Exec.update f) st e := .fails (by rw [Exec.update, h])

end EndsIn

theorem Exec.ofEval_of_ok {α : Type} {f : Scope → Eval α} {σ : Scope} {log log' : Log} {a : α}
    (h : f σ log = .ok a log') : Exec.ofEval f ⟨σ, log⟩ = .ok a ⟨σ, log'⟩ := by
  rw [Exec.ofEval, h]

/-- A task fails, or runs out of turns first. -/
def Point.EndsIn (s : Setting) (point : Point) (e : Failure) : Prop :=
  SmallImp.EndsIn (point.task.perform s point.depth) point.store e

theorem evalLast_endsIn {call : Caller} {σ : Scope} : ∀ {args : List Expr} {log : Log} (last : Value),
    EndsIn (evalAll s call σ args) log e → EndsIn (evalLast s call σ last args) log e := by
  intro args
  induction args with
  | nil => exact fun _ h => h
  | cons arg rest ih =>
    intro log last h
    rw [evalAll] at h
    rw [evalLast]
    cases hv : eval s call σ arg log with
    | error e' log' =>
      rw [EndsIn, Ensures, bind_of_error hv] at h ⊢
      exact h
    | ok v log' =>
      rw [EndsIn, Ensures, bind_of_ok hv] at h
      exact .after hv (ih v (.of_bind_pure h))

theorem runBody_endsIn {call : Caller} {f : FuncDecl} {frame : Scope} {log : Log}
    (h : EndsIn (execBlock s call f.body) ⟨frame, log⟩ e) : EndsIn (runBody s call f frame) log e := by
  rw [EndsIn, Ensures] at h ⊢
  rw [runBody]
  cases hx : execBlock s call f.body ⟨frame, log⟩ with
  | ok c st =>
    rw [hx] at h
    exact h.elim
  | error e' st =>
    rw [hx] at h
    exact h

/-- With one turn less, a loop fails as before or runs out of turns. -/
theorem repeatTurns_endsIn_fewer {turn : Exec (Option Completion)} : ∀ {turns : Nat} {st : Store},
    EndsIn (repeatTurns turn (turns + 1)) st e → EndsIn (repeatTurns turn turns) st e := by
  intro turns
  induction turns with
  | zero => exact fun _ => .outOfTurns rfl
  | succ turns ih =>
    intro st h
    rw [repeatTurns] at h ⊢
    cases hx : turn st with
    | error e' st' =>
      rw [EndsIn, Ensures, bind_of_error hx] at h ⊢
      exact h
    | ok next st' =>
      rw [EndsIn, Ensures, bind_of_ok hx] at h
      cases next with
      | some c => exact h.elim
      | none => exact .after hx (ih h)

/-- A turn after which the loop has to go on. -/
theorem loopTurn_none {test : Exec Bool} {body : Exec Completion} {st st₁ st' : Store}
    (ht : test st = .ok true st₁) (hb : body st₁ = .ok .normal st') :
    loopTurn test body st = .ok none st' := by
  rw [loopTurn, bind_of_ok ht, if_pos rfl, bind_of_ok hb]
  rfl

/-- A loop that fails after its first turn fails with that turn as well. -/
theorem repeatTurns_endsIn_again {turn : Exec (Option Completion)} {st st' : Store}
    (hturn : turn st = .ok none st') :
    ∀ {turns : Nat}, EndsIn (repeatTurns turn turns) st' e → EndsIn (repeatTurns turn turns) st e
  | 0, _ => .outOfTurns rfl
  | _ + 1, h => .after hturn (repeatTurns_endsIn_fewer h)

/-- A loop whose first turn fails. -/
theorem repeatTurns_endsIn {turn : Exec (Option Completion)} {st : Store} (h : EndsIn turn st e) :
    ∀ turns, EndsIn (repeatTurns turn turns) st e
  | 0 => .outOfTurns rfl
  | _ + 1 => h.bind _

theorem condition_endsIn {call : Caller} {statement : String} {test : Expr} {st : Store}
    (h : EndsIn (eval s call st.scope test) st.log e) :
    EndsIn (condition s call statement test) st e :=
  (EndsIn.ofEval_iff.mpr h).bind _

theorem condition_endsIn_noTruth {call : Caller} {statement : String} {test : Expr} {σ : Scope}
    {log log' : Log} {v : Value} (hv : eval s call σ test log = .ok v log')
    (h : v.condition statement = .error e) : EndsIn (condition s call statement test) ⟨σ, log⟩ e := by
  refine .after (Exec.ofEval_of_ok hv) (.bind ?_ _)
  rw [h]
  exact .fails rfl

theorem execBlock_endsIn {call : Caller} {block : Block} {body : List Stmt} {st : Store}
    (hs : block.statements? = some body) (h : EndsIn (execAll s call body) st e) :
    EndsIn (execBlock s call block) st e := by
  rwa [execBlock_eq hs]

theorem callee_then {α : Type} {name : Name} {count : Nat} {callee : Callee} {log : Log}
    {f : Callee → Eval α} (hc : s.callee name count = .ok callee) (h : EndsIn (f callee) log e) :
    EndsIn (Eval.ofExcept (s.callee name count) >>= f) log e := by
  rw [hc]
  exact h

/-- **The failure of a point is that of the points that start it.** -/
theorem Starts.endsIn (h : Starts s point point') (hends : point'.EndsIn s e) : point.EndsIn s e := by
  rw [Point.EndsIn] at hends ⊢
  cases h <;> simp only [Task.perform, EndsIn.map_iff, EndsIn.ofEval_iff] at hends ⊢
  case left => exact hends.bind _
  case right hl => exact .after hl (hends.bind _)
  case operand => exact hends.bind _
  case print hc hb => exact callee_then hc (by simpa only [hb] using hends)
  case last hc hb => exact callee_then hc (by simpa only [hb] using evalLast_endsIn .null hends)
  case args hc => exact callee_then hc (hends.bind _)
  case call hc ha hn => exact callee_then hc (.after ha (.after hn hends))
  case body f args frame body st hb hs =>
    show EndsIn (Eval.ofExcept (bindParams .empty f.params args) >>= runBody s _ f) st.log e
    rw [hb]
    exact runBody_endsIn (execBlock_endsIn hs hends)
  case firstArg => exact hends.bind _
  case nextArgs h => exact .after h (hends.bind _)
  case firstPrinted es st =>
    cases es with
    | nil => exact hends.bind _
    | cons next rest => exact hends.bind _
  case nextPrinted h => exact .after h hends
  case start => exact (EndsIn.ofEval_iff.mpr hends).bind _
  case assigned => exact (EndsIn.ofEval_iff.mpr hends).bind _
  case returned => exact (EndsIn.ofEval_iff.mpr hends).bind _
  case expr => exact (EndsIn.ofEval_iff.mpr hends).bind _
  case block => exact hends
  case branchTest => exact (condition_endsIn hends).bind _
  case yes h hs => exact .after h (execBlock_endsIn hs hends)
  case no h hs => exact .after h (by rw [if_neg Bool.false_ne_true, execElse_eq hs]; exact hends)
  case loopTest => exact repeatTurns_endsIn ((condition_endsIn hends).bind _) _
  case turn h hs => exact repeatTurns_endsIn (.after h (.bind (execBlock_endsIn hs hends) _)) _
  case again h hs hb =>
    rw [← execBlock_eq hs] at hb
    exact repeatTurns_endsIn_again (loopTurn_none h hb) hends
  case firstStmt => exact hends.bind _
  case nextStmts h => exact .after h hends

/-- A point that fails by itself fails, unless it is a loop that may take more turns. -/
theorem Raises.endsIn (h : Raises s point e) (he : e ≠ .exhausted .turns) : point.EndsIn s e := by
  rw [Point.EndsIn]
  cases h <;> simp only [Task.perform, EndsIn.map_iff, EndsIn.ofEval_iff]
  case var h => exact .fails (by rw [eval, h]; rfl)
  case binary hl hr h => exact .after hl (.after hr (.fails (by rw [h]; rfl)))
  case unary ha h => exact .after ha (.fails (by rw [h]; rfl))
  case callee h => exact .bind (.fails (by rw [h]; rfl)) _
  case notExpression => exact .fails rfl
  case tooDeep => exact .fails rfl
  case params h => exact .bind (.fails (by rw [h]; rfl)) _
  case noBody f args frame st hb hs =>
    show EndsIn (Eval.ofExcept (bindParams .empty f.params args) >>= runBody s _ f) st.log _
    rw [hb]
    exact runBody_endsIn (.fails (execBlock_none hs _))
  case noReturn d f args frame body st st' hb hs h =>
    show EndsIn (Eval.ofExcept (bindParams .empty f.params args) >>= runBody s _ f) st.log _
    rw [hb]
    rw [← execBlock_eq hs] at h
    exact .fails (by rw [Eval.ofExcept, pure_bind, runBody, h])
  case declare hv h => exact .after (Exec.ofEval_of_ok hv) (.bind (.update h) _)
  case assign hv h => exact .after (Exec.ofEval_of_ok hv) (.bind (.update h) _)
  case branchTest hv h => exact (condition_endsIn_noTruth hv h).bind _
  case noYes h hs => exact .after h (.fails (execBlock_none hs _))
  case noNo h hs hno =>
    refine .after h ?_
    rw [if_neg Bool.false_ne_true, execElse_eq_execBlock hno]
    exact .fails (execBlock_none hs _)
  case loopTest hv h => exact repeatTurns_endsIn ((condition_endsIn_noTruth hv h).bind _) _
  case noTurn h hs => exact repeatTurns_endsIn (.after h (.bind (.fails (execBlock_none hs _)) _)) _
  case turns => exact absurd rfl he
  case notStatement => exact .fails rfl

/-- **A failure that is raised at a point is the end of every task that comes there.** -/
theorem Fails.endsIn (h : Fails s point e) (he : e ≠ .exhausted .turns) : point.EndsIn s e := by
  obtain ⟨point', hsteps, hraises⟩ := h
  induction hsteps using Relation.ReflTransGen.head_induction_on with
  | refl => exact hraises.endsIn he
  | head hstart _ ih => exact hstart.endsIn ih

/-! ### What is raised -/

/-- A failure that a single operation can give: no budget runs out, and no call misses its `return`. -/
def Failure.Immediate : Failure → Prop
  | .error err => err.kind ≠ .missingReturn ∧ err.kind ≠ .stackOverflow
  | .defect _ => True
  | .unencodable => False
  | .exhausted _ => False

section Immediate

variable {σ : Scope} {name : Name}

theorem Scope.read_immediate (h : σ.read name = .error e) : e.Immediate := by
  cases hk : Json.key? name with
  | none =>
    rw [read_unusable hk] at h
    cases h
    trivial
  | some key =>
    rw [read_eq hk] at h
    split at h
    · cases h
    · cases h
      exact ⟨nofun, nofun⟩

theorem Scope.assign_immediate {v : Value} (h : σ.assign name v = .error e) : e.Immediate := by
  cases hk : Json.key? name with
  | none =>
    rw [assign_unusable hk] at h
    cases h
    trivial
  | some key =>
    rw [assign_eq hk] at h
    split at h
    · cases h
    · cases h
      exact ⟨nofun, nofun⟩

theorem BinaryRule.immediate {op : BinaryOp} {a b : Value} {err : RuntimeError}
    (h : BinaryRule op a b (.error err)) : (Failure.error err).Immediate := by
  cases h <;> exact ⟨nofun, nofun⟩

theorem BinaryOp.apply_immediate {op : BinaryOp} {a b : Value} (h : op.apply a b = .error e) :
    e.Immediate := by
  rcases BinaryRule.total op a b with ⟨r, hr⟩ | ⟨htooLarge, -⟩
  · rw [hr.apply_eq] at h
    cases r with
    | ok v => cases h
    | error err =>
      cases h
      exact hr.immediate
  · rw [htooLarge] at h
    cases h
    trivial

theorem UnaryOp.apply_immediate {op : UnaryOp} {a : Value} (h : op.apply a = .error e) :
    e.Immediate := by
  obtain ⟨r, hr⟩ := UnaryRule.total op a
  rw [hr.apply_eq] at h
  cases r with
  | ok v => cases h
  | error err =>
    cases h
    cases hr <;> exact ⟨nofun, nofun⟩

theorem Value.condition_immediate {v : Value} {statement : String}
    (h : v.condition statement = .error e) : e.Immediate := by
  cases v with
  | bool b => cases h
  | _ =>
    cases h
    exact ⟨nofun, nofun⟩

theorem callee_immediate {count : Nat} (h : s.callee name count = .error e) : e.Immediate := by
  cases hk : Json.key? name with
  | none =>
    rw [callee_unusable hk] at h
    cases h
    trivial
  | some key =>
    rw [callee_eq hk] at h
    split at h
    · split at h
      · cases h
      · cases h
        exact ⟨nofun, nofun⟩
    · split at h
      · cases h
        exact ⟨nofun, nofun⟩
      · cases h
        trivial
      · split at h
        · cases h
        · cases h
          exact ⟨nofun, nofun⟩

end Immediate

/-- **What is raised.** A failure is that of a single operation, unless a function has completed its
body without a `return`, or a budget has run out. -/
theorem Raises.classify (h : Raises s point e) :
    e.Immediate ∨
    (∃ d f args frame body st st', point = ⟨d + 1, .call f args, st⟩ ∧
      f.body.statements? = some body ∧
      execAll s (callWithin s d) body ⟨frame, st.log⟩ = .ok .normal st' ∧
      e = .error (.noReturn f.name)) ∨
    (∃ f args st, point = ⟨0, .call f args, st⟩ ∧ e = .exhausted .calls) ∨
    ∃ d test block st, point = ⟨d, .exec (.loop test block), st⟩ ∧ e = .exhausted .turns := by
  cases h with
  | var h => exact .inl (Scope.read_immediate h)
  | binary hl hr h => exact .inl (BinaryOp.apply_immediate h)
  | unary ha h => exact .inl (UnaryOp.apply_immediate h)
  | callee h => exact .inl (callee_immediate h)
  | notExpression => exact .inl trivial
  | tooDeep => exact .inr (.inr (.inl ⟨_, _, _, rfl, rfl⟩))
  | params h =>
    obtain ⟨d, rfl⟩ := bindParams_error h
    exact .inl trivial
  | noBody hb hs => exact .inl trivial
  | noReturn hb hs h => exact .inr (.inl ⟨_, _, _, _, _, _, _, rfl, hs, h, rfl⟩)
  | declare hv h =>
    obtain ⟨d, rfl⟩ := Scope.declare_error h
    exact .inl trivial
  | assign hv h => exact .inl (Scope.assign_immediate h)
  | branchTest hv h => exact .inl (Value.condition_immediate h)
  | noYes h hs => exact .inl trivial
  | noNo h hs hno => exact .inl trivial
  | loopTest hv h => exact .inl (Value.condition_immediate h)
  | noTurn h hs => exact .inl trivial
  | turns => exact .inr (.inr (.inr ⟨_, _, _, _, rfl, rfl⟩))
  | notStatement => exact .inl trivial

/-! ### Runs -/

/-- A function without a name under which it could be registered. -/
def Func.Nameless (func : Func) : Prop := ∀ name, func.name? = some name → Json.key? name = none

theorem Registers.not_nameless {functions : List Func} {table table' : FunctionTable}
    (h : Registers table functions table') : ∀ func ∈ functions, ¬func.Nameless := by
  induction h with
  | none => exact List.forall_mem_nil _
  | func hn hk _ ih =>
    refine List.forall_mem_cons.mpr ⟨fun hnameless => ?_, ih⟩
    rw [hnameless _ hn] at hk
    cases hk

namespace Interpreter

variable {i : Interpreter} {p : Program} {w w' : World} {functions : FunctionTable}

/-- Functions are registered, or one of them is nameless. -/
theorem registers_or_nameless (functions : List Func) : ∀ table : FunctionTable,
    (∃ table', Registers table functions table') ∨ ∃ func ∈ functions, func.Nameless := by
  induction functions with
  | nil => exact fun table => .inl ⟨table, .none⟩
  | cons func rest ih =>
    intro table
    rcases named_or func with ⟨name, key, hn, hk⟩ | hk
    · rcases ih (FunctionTable.define table key name func) with ⟨table', h⟩ | ⟨other, hmem, h⟩
      · exact .inl ⟨table', .func hn hk h⟩
      · exact .inr ⟨other, List.mem_cons_of_mem _ hmem, h⟩
    · exact .inr ⟨func, List.mem_cons_self, hk⟩

/-- A run with a nameless function fails. -/
theorem run_of_nameless (h : ∃ func ∈ p.functions, func.Nameless) (w : World) :
    ∃ d w', i.run p w = .error (.defect d) w' := by
  obtain ⟨func, hmem, hfunc⟩ := h
  rcases registers_or_defect (i := i) p.functions w with ⟨table, hreg⟩ | ⟨d, w', hd⟩
  · exact absurd hfunc (Registers.not_nameless hreg func hmem)
  · refine ⟨d, w', ?_⟩
    rw [run, runParts, bind_of_error hd]
    rfl

/-- What a failed run failed for: a nameless function, something else in the place of the main block, or
a point that the run comes to and that fails by itself. -/
theorem run_error_cases (h : i.run p w = .error e w') :
    (∃ func ∈ p.functions, func.Nameless) ∨ (∃ node, p.main = .misfit node) ∨
      ∃ functions point e₀, i.Reaches p w functions point ∧ Raises (i.setting functions) point e₀ ∧
        e = runFailure e₀ := by
  rcases registers_or_nameless p.functions w.functions with ⟨table, hreg⟩ | hnameless
  · obtain ⟨log, -, hw⟩ := registerAll_of_registers (i := i) hreg rfl
    have hrun : i.run p w = finish (i.runMain p.main ⟨table, w.scope, log⟩) := by
      rw [run, runParts, bind_of_ok hw]
      rfl
    cases hs : p.main.statements? with
    | none =>
      cases hmain : p.main with
      | stmts body => rw [hmain] at hs; cases hs
      | main body => rw [hmain] at hs; cases hs
      | misfit node => exact .inr (.inl ⟨node, rfl⟩)
      | absent =>
        rw [hrun, hmain] at h
        cases h
    | some body =>
      rw [hrun, runMain_eq hs] at h
      cases hx : execAll (i.setting table) (i.caller table) body ⟨w.scope, log⟩ with
      | ok c st => rw [hx] at h; cases h
      | error e₀ st =>
        rw [hx] at h
        cases h
        obtain ⟨point, hsteps, hraises⟩ :=
          (execAll_located (callWithin_located (i.setting table) i.budget.calls) body
            ⟨w.scope, log⟩).error hx
        exact .inr (.inr ⟨table, point, e₀, ⟨_, body, hw, rfl, hs, hsteps⟩, hraises, rfl⟩)
  · exact .inl hnameless

/-- A failure of the run of a well-sorted program is raised at a point of the run. -/
theorem run_error_raised (hp : p.WellSorted) (h : i.run p w = .error e w') :
    ∃ functions point e₀, i.Reaches p w functions point ∧ Raises (i.setting functions) point e₀ ∧
      e = runFailure e₀ := by
  rcases run_error_cases h with ⟨func, hmem, hnameless⟩ | ⟨node, hmain⟩ | hraised
  · have hsorted := hp.functions func hmem
    cases func with
    | misfit node => exact absurd trivial hsorted
    | decl f =>
      obtain ⟨key, hkey⟩ := (hsorted.texts trivial).1.key?
      rw [hnameless f.name rfl] at hkey
      cases hkey
  · have hsorted := hp.main
    rw [hmain] at hsorted
    exact absurd trivial hsorted
  · exact hraised

/-- A failure that is raised at a point of a run is the end of the run, unless a loop runs out of turns
first. -/
theorem Reaches.endsIn (hreach : i.Reaches p w functions point)
    (h : Raises (i.setting functions) point e) (he : e ≠ .exhausted .turns) :
    EndsIn (i.run p) w (runFailure e) := by
  obtain ⟨w₁, body, hw, rfl, hs, hsteps⟩ := hreach
  have hends : Point.EndsIn (i.setting w₁.functions) _ e := Fails.endsIn ⟨point, hsteps, h⟩ he
  rw [Point.EndsIn, Task.perform, EndsIn.map_iff] at hends
  have hrun : i.run p w = finish (i.runMain p.main w₁) := by
    rw [run, runParts, bind_of_ok hw]
    rfl
  rw [EndsIn, Ensures] at hends ⊢
  rw [hrun, runMain_eq hs]
  cases hx : execAll (i.setting w₁.functions) (i.caller w₁.functions) body ⟨w₁.scope, w₁.log⟩ with
  | ok c st =>
    rw [caller] at hx
    simp only [hx] at hends
  | error e' st =>
    rw [caller] at hx
    simp only [hx] at hends
    rcases hends with rfl | rfl
    · exact .inl rfl
    · exact .inr rfl

end Interpreter

end SmallImp
