import Mathlib.Logic.Relation
import SmallImp.Proofs.Budget
import SmallImp.Proofs.Safety

/-!
# The points of a run

Carrying out a task means starting other tasks, which start further ones, down to literals and
variables and through the bodies of called functions. A point is such a task with the scope and the
output with which it is started. What holds at one point and passes to those that it starts holds
throughout the run, whether the run completes or breaks off.

* `Point`, `Starts` — points, and the points that a point starts;
* `Interpreter.Reaches` — the points of the run of a program;
* `Point.Safe` — the parts of the task are sorted, and the values at hand are in range;
* `Starts.safe`, `Interpreter.Reaches.safe` — a safe point starts safe points only, so all points of
  a run are safe;
* `Task.Safe.perform` — what a safe task comes to.
-/

namespace SmallImp

/-- A task, with the depth up to which calls may be nested in it, and the scope and the output with
which it is started. -/
structure Point where
  depth : Nat
  task : Task
  store : Store

/-- In the course of one task another one is started. The premises of a rule say how the tasks ended
that come between the two. -/
inductive Starts (s : Setting) : Point → Point → Prop where
  -- operands
  | left {d left op right st} : Starts s ⟨d, .eval (.binary left op right), st⟩ ⟨d, .eval left, st⟩
  | right {d left op right σ log a log'}
      (h : eval s (callWithin s d) σ left log = .ok a log') :
      Starts s ⟨d, .eval (.binary left op right), ⟨σ, log⟩⟩ ⟨d, .eval right, ⟨σ, log'⟩⟩
  | operand {d op operand st} : Starts s ⟨d, .eval (.unary op operand), st⟩ ⟨d, .eval operand, st⟩
  -- calls
  | print {d name args b st} (h : s.callee name args.length = .ok (.builtin b))
      (hb : b.action = .print) : Starts s ⟨d, .eval (.call name args), st⟩ ⟨d, .print args, st⟩
  | last {d name args b st} (h : s.callee name args.length = .ok (.builtin b))
      (hb : b.action = .last) : Starts s ⟨d, .eval (.call name args), st⟩ ⟨d, .evalAll args, st⟩
  | args {d name args f st} (h : s.callee name args.length = .ok (.func f)) :
      Starts s ⟨d, .eval (.call name args), st⟩ ⟨d, .evalAll args, st⟩
  | call {d name args f vs σ log log' log''} (h : s.callee name args.length = .ok (.func f))
      (ha : evalAll s (callWithin s d) σ args log = .ok vs log')
      (hn : Eval.note .any s.verbosity 1 (callLine f.name vs) log' = .ok () log'') :
      Starts s ⟨d, .eval (.call name args), ⟨σ, log⟩⟩ ⟨d, .call f vs, ⟨σ, log''⟩⟩
  | body {d f args frame body st} (hb : bindParams .empty f.params args = .ok frame)
      (hs : f.body.statements? = some body) :
      Starts s ⟨d + 1, .call f args, st⟩ ⟨d, .execAll body, ⟨frame, st.log⟩⟩
  -- arguments
  | firstArg {d e es st} : Starts s ⟨d, .evalAll (e :: es), st⟩ ⟨d, .eval e, st⟩
  | nextArgs {d e es σ log v log'} (h : eval s (callWithin s d) σ e log = .ok v log') :
      Starts s ⟨d, .evalAll (e :: es), ⟨σ, log⟩⟩ ⟨d, .evalAll es, ⟨σ, log'⟩⟩
  | firstPrinted {d e es st} : Starts s ⟨d, .print (e :: es), st⟩ ⟨d, .eval e, st⟩
  | nextPrinted {d e next es σ log v log'} (h : eval s (callWithin s d) σ e log = .ok v log') :
      Starts s ⟨d, .print (e :: next :: es), ⟨σ, log⟩⟩
        ⟨d, .print (next :: es), ⟨σ, (log'.write v.display).write " "⟩⟩
  -- statements
  | start {d tag name e st} :
      Starts s ⟨d, .exec (.declare tag name (some e)), st⟩ ⟨d, .eval e, st⟩
  | assigned {d name e st} : Starts s ⟨d, .exec (.assign name e), st⟩ ⟨d, .eval e, st⟩
  | returned {d e st} : Starts s ⟨d, .exec (.ret e), st⟩ ⟨d, .eval e, st⟩
  | expr {d e st} : Starts s ⟨d, .exec (.expr e), st⟩ ⟨d, .eval e, st⟩
  | block {d body st} : Starts s ⟨d, .exec (.block body), st⟩ ⟨d, .execAll body, st⟩
  | branchTest {d test yes no st} :
      Starts s ⟨d, .exec (.branch test yes no), st⟩ ⟨d, .eval test, st⟩
  | yes {d test yes no body st st'}
      (h : condition s (callWithin s d) "if" test st = .ok true st')
      (hs : Block.statements? yes = some body) :
      Starts s ⟨d, .exec (.branch test yes no), st⟩ ⟨d, .execAll body, st'⟩
  | no {d test yes no body st st'}
      (h : condition s (callWithin s d) "if" test st = .ok false st')
      (hs : Block.statements? no = some body) :
      Starts s ⟨d, .exec (.branch test yes no), st⟩ ⟨d, .execAll body, st'⟩
  | loopTest {d test block st} : Starts s ⟨d, .exec (.loop test block), st⟩ ⟨d, .eval test, st⟩
  | turn {d test block body st st'}
      (h : condition s (callWithin s d) "while" test st = .ok true st')
      (hs : Block.statements? block = some body) :
      Starts s ⟨d, .exec (.loop test block), st⟩ ⟨d, .execAll body, st'⟩
  | again {d test block body st st' st''}
      (h : condition s (callWithin s d) "while" test st = .ok true st')
      (hs : Block.statements? block = some body)
      (hb : execAll s (callWithin s d) body st' = .ok .normal st'') :
      Starts s ⟨d, .exec (.loop test block), st⟩ ⟨d, .exec (.loop test block), st''⟩
  -- sequences
  | firstStmt {d stmt rest st} : Starts s ⟨d, .execAll (stmt :: rest), st⟩ ⟨d, .exec stmt, st⟩
  | nextStmts {d stmt rest st st'}
      (h : exec s (callWithin s d) stmt st = .ok .normal st') :
      Starts s ⟨d, .execAll (stmt :: rest), st⟩ ⟨d, .execAll rest, st'⟩

/-- With these functions registered, the run of a program comes to a point: the main block starts it,
directly or not. -/
def Interpreter.Reaches (i : Interpreter) (p : Program) (w : World) (functions : FunctionTable)
    (point : Point) : Prop :=
  ∃ w' body, i.registerAll p.functions w = .ok () w' ∧ w'.functions = functions ∧
    p.main.statements? = some body ∧
    Relation.ReflTransGen (Starts (i.setting functions))
      ⟨i.budget.calls, .execAll body, ⟨w'.scope, w'.log⟩⟩ point

/-! ### Safe points -/

/-- The parts of a task are sorted, and the arguments of a call are in range. -/
def Task.Safe (strict : Prop) : Task → Prop
  | .eval e => e.Sorted strict
  | .evalAll args => Expr.AllSorted strict args
  | .print args => Expr.AllSorted strict args
  | .call f args => f.Sorted strict ∧ ∀ v ∈ args, v.InRange
  | .exec stmt => stmt.Sorted strict
  | .execAll body => Stmt.AllSorted strict body

/-- The values of an outcome are in range. -/
def Outcome.InRange : Outcome → Prop
  | .value v => v.InRange
  | .values vs => ∀ v ∈ vs, v.InRange
  | .completed c => c.InRange
  | .failed _ => True

/-- The task of a point is safe, and the variables in its scope are in range. -/
structure Point.Safe (strict : Prop) (point : Point) : Prop where
  task : point.task.Safe strict
  scope : point.store.scope.InRange

variable {strict : Prop} {s : Setting}

theorem Block.Sorted.statements {optional : Prop} {block : Block} {body : List Stmt}
    (h : block.Sorted strict optional) (hs : block.statements? = some body) :
    Stmt.AllSorted strict body := by
  cases block with
  | stmts _ => cases hs; exact h
  | main _ => cases hs; exact h.2
  | absent => cases hs
  | misfit _ => cases hs

theorem Block.MainSorted.statements {block : Block} {body : List Stmt}
    (h : block.MainSorted strict) (hs : block.statements? = some body) :
    Stmt.AllSorted strict body := by
  cases block with
  | stmts _ => cases hs; exact h.2
  | main _ => cases hs; exact h
  | absent => cases hs
  | misfit _ => cases hs

/-- **A safe point starts safe points only.** -/
theorem Starts.safe (hs : s.functions.Sorted strict) {point point' : Point}
    (h : Starts s point point') (hp : point.Safe strict) : point'.Safe strict := by
  obtain ⟨htask, hscope⟩ := hp
  have hcall := fun d => callWithin_safe hs d
  cases h with
  | left => exact ⟨htask.1, hscope⟩
  | right h => exact ⟨htask.2, hscope⟩
  | operand => exact ⟨htask, hscope⟩
  | print h hb => exact ⟨htask.2, hscope⟩
  | last h hb => exact ⟨htask.2, hscope⟩
  | args h => exact ⟨htask.2, hscope⟩
  | call h ha hn =>
    exact ⟨⟨callee_sorted hs h, (evalAll_safe hs (hcall _) hscope _ htask.2 _).ok ha⟩, hscope⟩
  | body hb hstmts =>
    exact ⟨htask.1.body.statements hstmts, (bindParams_iff.mp hb).inRange .empty htask.2⟩
  | firstArg => exact ⟨htask.1, hscope⟩
  | nextArgs h => exact ⟨htask.2, hscope⟩
  | firstPrinted => exact ⟨htask.1, hscope⟩
  | nextPrinted h => exact ⟨htask.2, hscope⟩
  | start => exact ⟨htask.2 _ rfl, hscope⟩
  | assigned => exact ⟨htask.2, hscope⟩
  | returned => exact ⟨htask, hscope⟩
  | expr => exact ⟨htask, hscope⟩
  | block => exact ⟨htask.2, hscope⟩
  | branchTest => exact ⟨htask.1, hscope⟩
  | yes h hstmts =>
    have hst := (condition_safe hs (hcall _) htask.1 "if" _ hscope).ok h
    exact ⟨htask.2.1.statements hstmts, hst.1⟩
  | no h hstmts =>
    have hst := (condition_safe hs (hcall _) htask.1 "if" _ hscope).ok h
    exact ⟨htask.2.2.statements hstmts, hst.1⟩
  | loopTest => exact ⟨htask.1, hscope⟩
  | turn h hstmts =>
    have hst := (condition_safe hs (hcall _) htask.1 "while" _ hscope).ok h
    exact ⟨htask.2.statements hstmts, hst.1⟩
  | again h hstmts hb =>
    have hst := (condition_safe hs (hcall _) htask.1 "while" _ hscope).ok h
    have hst' := (execAll_safe hs (hcall _) _ (htask.2.statements hstmts) _ hst.1).ok hb
    exact ⟨htask, hst'.1⟩
  | firstStmt => exact ⟨htask.1, hscope⟩
  | nextStmts h =>
    have hst := (exec_safe hs (hcall _) _ htask.1 _ hscope).ok h
    exact ⟨htask.2, hst.1⟩

/-- A safe task in a scope in range: what it comes to is in range, and so is the scope it leaves. -/
theorem Task.Safe.perform (hs : s.functions.Sorted strict) {task : Task} (h : task.Safe strict)
    (depth : Nat) : ExecSafe strict (task.perform s depth) Outcome.InRange := by
  have hcall := callWithin_safe hs depth
  have hmap : ∀ {α : Type} {x : Exec α} {Q : α → Prop} {g : α → Outcome}, ExecSafe strict x Q →
      (∀ a, Q a → (g a).InRange) → ExecSafe strict (g <$> x) Outcome.InRange :=
    fun hx hg st hst => (hx st hst).map fun a _ ha => ⟨ha.1, hg a ha.2⟩
  cases task with
  | eval e => exact hmap (.ofEval fun _ hσ => eval_safe hs hcall hσ e h) fun _ hv => hv
  | evalAll args =>
    exact hmap (.ofEval fun _ hσ => evalAll_safe hs hcall hσ args h) fun _ hvs => hvs
  | print args => exact hmap (.ofEval fun _ hσ => printAll_safe hs hcall hσ args h) fun _ hv => hv
  | call f args => exact hmap (.ofEval fun _ _ => hcall f args h.1 h.2) fun _ hv => hv
  | exec stmt => exact hmap (exec_safe hs hcall stmt h) fun _ hc => hc
  | execAll body => exact hmap (execAll_safe hs hcall body h) fun _ hc => hc

/-- All points of the run of a sorted program in a safe world are safe, and so are the functions
registered by then. -/
theorem Interpreter.Reaches.safe {i : Interpreter} {p : Program} {w : World}
    {functions : FunctionTable} {point : Point} (hp : p.Sorted strict) (hw : w.Safe strict)
    (h : i.Reaches p w functions point) : functions.Sorted strict ∧ point.Safe strict := by
  obtain ⟨w', body, hr, rfl, hmain, hsteps⟩ := h
  have hw' := (registerAll_safe hp.functions w hw).ok hr
  refine ⟨hw'.functions, ?_⟩
  induction hsteps with
  | refl => exact ⟨hp.main.statements hmain, hw'.scope⟩
  | tail _ hstep ih => exact hstep.safe hw'.functions ih

end SmallImp
