import SmallImp.Machine.Exec

/-!
# Congruences of computations

Two runs may differ in how much they trace, in the streams they write to, and in the budget they have.
A relation between what the one does and what the other does in the same place of a program holds of
whole expressions, statements and calls, if it holds of single steps and is kept when they are put
together. So what has to be shown of two runs is shown of their steps only.

* `Congruence` — relations between computations that are kept when these are put together;
* `Congruence.eval`, `Congruence.exec`, `Congruence.callWithin` — such a relation holds of expressions,
  statements and calls.
-/

namespace SmallImp

variable {streams streams' : Streams}

/-- A relation between the computations of two runs, one for evaluations and one for executions. It
holds of steps that both runs take, and is kept when computations are put together. -/
structure Congruence (s : Setting streams) (s' : Setting streams') where
  OnEval {α : Type} : Eval α → Eval α → Prop
  OnExec {α : Type} : Exec α → Exec α → Prop
  callee_eq (name : Name) (count : Nat) : s.callee name count = s'.callee name count
  -- evaluations
  evalPure {α : Type} (a : α) : OnEval (pure a) (pure a)
  evalThrow {α : Type} (e : Failure) : OnEval (throw e : Eval α) (throw e)
  evalBind {α β : Type} {x y : Eval α} {f g : α → Eval β} (h : OnEval x y)
    (hf : ∀ a, OnEval (f a) (g a)) : OnEval (x >>= f) (y >>= g)
  write (text : Codes) : OnEval (Eval.write streams.out text) (Eval.write streams'.out text)
  evalNote {level : Nat} (hlevel : level ≤ 3) (line : Codes) :
    OnEval (Eval.note streams.trace s.verbosity level line)
      (Eval.note streams'.trace s'.verbosity level line)
  -- executions
  execPure {α : Type} (a : α) : OnExec (pure a) (pure a)
  execThrow {α : Type} (e : Failure) : OnExec (throw e : Exec α) (throw e)
  execBind {α β : Type} {x y : Exec α} {f g : α → Exec β} (h : OnExec x y)
    (hf : ∀ a, OnExec (f a) (g a)) : OnExec (x >>= f) (y >>= g)
  ofEval {α : Type} {f g : Scope → Eval α} (h : ∀ scope, OnEval (f scope) (g scope)) :
    OnExec (Exec.ofEval f) (Exec.ofEval g)
  update (f : Scope → Except Failure Scope) : OnExec (Exec.update f) (Exec.update f)
  execNote {level : Nat} (hlevel : level ≤ 3) (line : Codes) :
    OnExec (Exec.note streams.trace s.verbosity level line)
      (Exec.note streams'.trace s'.verbosity level line)
  turns {turn turn' : Exec (Option Completion)} (h : OnExec turn turn') :
    OnExec (repeatTurns turn s.turns) (repeatTurns turn' s'.turns)
  body {call call' : Caller} {f : FuncDecl}
    (h : OnExec (execBlock s call f.body) (execBlock s' call' f.body)) (scope : Scope) :
    OnEval (runBody s call f scope) (runBody s' call' f scope)

namespace Congruence

variable {s : Setting streams} {s' : Setting streams'} (c : Congruence s s') {call call' : Caller}

theorem ofExcept {α : Type} (r : Except Failure α) :
    c.OnEval (Eval.ofExcept r) (Eval.ofExcept r) := by
  cases r with
  | ok a => exact c.evalPure a
  | error e => exact c.evalThrow e

/-- The relation holds of what two callers do. -/
def OnCalls (call call' : Caller) : Prop := ∀ f args, c.OnEval (call f args) (call' f args)

/-! ### Expressions -/

-- The induction is on the expression. A call is where the two callers come in.
mutual

theorem eval (h : c.OnCalls call call') (scope : Scope) :
    ∀ e : Expr, c.OnEval (SmallImp.eval s call scope e) (SmallImp.eval s' call' scope e)
  | .lit value => c.evalPure value.value
  | .var name => c.ofExcept (scope.read name)
  | .binary left op right => by
    rw [SmallImp.eval, SmallImp.eval]
    refine c.evalBind (eval h scope left) fun a => ?_
    exact c.evalBind (eval h scope right) fun b => c.ofExcept (op.apply a b)
  | .unary op operand => by
    rw [SmallImp.eval, SmallImp.eval]
    exact c.evalBind (eval h scope operand) fun a => c.ofExcept (op.apply a)
  | .call name args => by
    rw [SmallImp.eval, SmallImp.eval, ← c.callee_eq]
    refine c.evalBind (c.ofExcept (s.callee name args.length)) fun callee => ?_
    cases callee with
    | builtin b =>
      obtain ⟨_, _, action⟩ := b
      cases action with
      | print => exact printAll h scope args
      | last => exact evalLast h scope .null args
    | func f =>
      refine c.evalBind (evalAll h scope args) fun values => ?_
      exact c.evalBind (c.evalNote (by decide) _) fun _ => h f values
  | .misfit _ => c.evalThrow _

theorem evalAll (h : c.OnCalls call call') (scope : Scope) : ∀ args : List Expr,
    c.OnEval (SmallImp.evalAll s call scope args) (SmallImp.evalAll s' call' scope args)
  | [] => c.evalPure []
  | e :: rest => by
    rw [SmallImp.evalAll, SmallImp.evalAll]
    refine c.evalBind (eval h scope e) fun value => ?_
    exact c.evalBind (evalAll h scope rest) fun values => c.evalPure (value :: values)

theorem printAll (h : c.OnCalls call call') (scope : Scope) : ∀ args : List Expr,
    c.OnEval (SmallImp.printAll s call scope args) (SmallImp.printAll s' call' scope args)
  | [] => by
    rw [SmallImp.printAll, SmallImp.printAll]
    exact c.evalBind (c.write _) fun _ => c.evalPure _
  | [e] => by
    rw [SmallImp.printAll, SmallImp.printAll]
    refine c.evalBind (eval h scope e) fun value => ?_
    refine c.evalBind (c.write value.display) fun _ => ?_
    exact c.evalBind (c.write _) fun _ => c.evalPure _
  | e :: next :: rest => by
    rw [SmallImp.printAll, SmallImp.printAll]
    refine c.evalBind (eval h scope e) fun value => ?_
    refine c.evalBind (c.write value.display) fun _ => ?_
    exact c.evalBind (c.write _) fun _ => printAll h scope (next :: rest)

theorem evalLast (h : c.OnCalls call call') (scope : Scope) : ∀ (last : Value) (args : List Expr),
    c.OnEval (SmallImp.evalLast s call scope last args) (SmallImp.evalLast s' call' scope last args)
  | last, [] => c.evalPure last
  | last, e :: rest => by
    rw [SmallImp.evalLast, SmallImp.evalLast]
    exact c.evalBind (eval h scope e) fun value => evalLast h scope value rest

end

/-! ### Statements -/

theorem startValue (h : c.OnCalls call call') (scope : Scope) (start : Option Expr) :
    c.OnEval (SmallImp.startValue s call scope start) (SmallImp.startValue s' call' scope start) := by
  cases start with
  | none => exact c.evalPure _
  | some e => exact c.eval h scope e

theorem condition (h : c.OnCalls call call') (statement : String) (test : Expr) :
    c.OnExec (SmallImp.condition s call statement test)
      (SmallImp.condition s' call' statement test) := by
  refine c.execBind (c.ofEval fun scope => c.eval h scope test) fun value => ?_
  refine c.execBind (c.ofEval fun _ => c.ofExcept _) fun holds => ?_
  exact c.execBind (c.execNote (by decide) _) fun _ => c.execPure holds

theorem loopTurn {x x' : Exec Bool} {y y' : Exec Completion} (hx : c.OnExec x x')
    (hy : c.OnExec y y') : c.OnExec (SmallImp.loopTurn x y) (SmallImp.loopTurn x' y') := by
  refine c.execBind hx fun holds => ?_
  cases holds with
  | false => exact c.execPure _
  | true =>
    refine c.execBind hy fun completion => ?_
    cases completion with
    | normal => exact c.execPure _
    | returned v => exact c.execPure _

mutual

theorem exec (h : c.OnCalls call call') : ∀ stmt : Stmt,
    c.OnExec (SmallImp.exec s call stmt) (SmallImp.exec s' call' stmt)
  | .declare tag name start => by
    rw [SmallImp.exec, SmallImp.exec]
    refine c.execBind (c.ofEval fun scope => c.startValue h scope start) fun value => ?_
    refine c.execBind (c.update _) fun _ => ?_
    exact c.execBind (c.execNote (by decide) _) fun _ => c.execPure _
  | .assign name e => by
    rw [SmallImp.exec, SmallImp.exec]
    refine c.execBind (c.ofEval fun scope => c.eval h scope e) fun value => ?_
    refine c.execBind (c.update _) fun _ => ?_
    exact c.execBind (c.execNote (by decide) _) fun _ => c.execPure _
  | .branch test yes no => by
    rw [SmallImp.exec, SmallImp.exec]
    refine c.execBind (c.condition h _ test) fun holds => ?_
    cases holds with
    | false => exact execElse h no
    | true => exact execBlock h yes
  | .loop test body => by
    rw [SmallImp.exec, SmallImp.exec]
    exact c.turns (c.loopTurn (c.condition h _ test) (execBlock h body))
  | .ret e => by
    rw [SmallImp.exec, SmallImp.exec]
    refine c.execBind (c.ofEval fun scope => c.eval h scope e) fun value => ?_
    exact c.execBind (c.execNote (by decide) _) fun _ => c.execPure _
  | .expr e => by
    rw [SmallImp.exec, SmallImp.exec]
    exact c.execBind (c.ofEval fun scope => c.eval h scope e) fun _ => c.execPure _
  | .block body => by
    rw [SmallImp.exec, SmallImp.exec]
    exact execAll h body
  | .misfit _ => c.execThrow _

theorem execBlock (h : c.OnCalls call call') : ∀ block : Block,
    c.OnExec (SmallImp.execBlock s call block) (SmallImp.execBlock s' call' block)
  | .stmts body => by
    rw [SmallImp.execBlock, SmallImp.execBlock]
    exact execAll h body
  | .main body => by
    rw [SmallImp.execBlock, SmallImp.execBlock]
    exact execAll h body
  | .absent => c.execThrow _
  | .misfit _ => c.execThrow _

theorem execElse (h : c.OnCalls call call') : ∀ block : Block,
    c.OnExec (SmallImp.execElse s call block) (SmallImp.execElse s' call' block)
  | .stmts body => by
    rw [SmallImp.execElse, SmallImp.execElse]
    exact execAll h body
  | .main body => by
    rw [SmallImp.execElse, SmallImp.execElse]
    exact execAll h body
  | .absent => c.execPure _
  | .misfit _ => c.execThrow _

theorem execAll (h : c.OnCalls call call') : ∀ body : List Stmt,
    c.OnExec (SmallImp.execAll s call body) (SmallImp.execAll s' call' body)
  | [] => c.execPure _
  | stmt :: rest => by
    rw [SmallImp.execAll, SmallImp.execAll]
    refine c.execBind (exec h stmt) fun completion => ?_
    cases completion with
    | normal => exact execAll h rest
    | returned value => exact c.execPure _

end

/-! ### Calls -/

theorem callWith (h : c.OnCalls call call') :
    c.OnCalls (SmallImp.callWith s call) (SmallImp.callWith s' call') := by
  intro f args
  refine c.evalBind (c.ofExcept (bindParams .empty f.params args)) fun scope => ?_
  exact c.body (c.execBlock h f.body) scope

/-- Calls, by induction on how deep they may be nested. -/
theorem callWithin : ∀ depth,
    c.OnCalls (SmallImp.callWithin s depth) (SmallImp.callWithin s' depth) := by
  intro depth
  induction depth with
  | zero => exact fun _ _ => c.evalThrow _
  | succ depth ih => exact c.callWith ih

end Congruence

end SmallImp
