import Mathlib.Order.Filter.AtTopBot.Basic
import SmallImp.Proofs.Soundness

/-!
# What the rules derive, the interpreter does

Every outcome that the rules derive is the one that the interpreter comes to, in every budget that is
large enough.

* `EvalEnds`, `ExecEnds` — how a computation ends, whatever was printed before it;
* `Task.Settles` — the interpreter carries out a task with a given outcome, within a budget;
* `Task.Settles.of_first` — a task fails with the expression that it evaluates first;
* `Derives.settles` — it does so with every outcome that the rules derive, in all large budgets.
-/

namespace SmallImp

open Filter

variable {α β : Type}

/-! ### Endings of evaluations -/

/-- The end of a computation: a result or an error of the language. -/
def ending {τ : Type} (r : Except RuntimeError α) (st : τ) : EStateM.Result Failure τ α :=
  match r with
  | .ok a => .ok a st
  | .error e => .error (.error e) st

/-- An ending is no lack of budget. -/
theorem ending_ended {τ : Type} {r : Except RuntimeError α} {st : τ} (resource : Resource) (st' : τ) :
    ending r st ≠ .error (.exhausted resource) st' := by
  cases r <;> nofun

/-- Whatever was printed before it, the evaluation ends with `r` and prints `out`. -/
def EvalEnds (x : Eval α) (r : Except RuntimeError α) (out : Codes) : Prop :=
  ∀ log, ∃ log' : Log, log'.out = log.out ++ out ∧ x log = ending r log'

namespace EvalEnds

variable {x : Eval α} {f : α → Eval β} {a : α} {r : Except RuntimeError β} {out out₁ out₂ : Codes}

theorem pure : EvalEnds (Pure.pure a) (.ok a) [] := fun log => ⟨log, (List.append_nil _).symm, rfl⟩

theorem ofExcept {q : Except Failure α} {r : Except RuntimeError α} (h : q = r.mapError .error) :
    EvalEnds (Eval.ofExcept q) r [] := by
  subst h
  cases r with
  | ok a => exact fun log => ⟨log, (List.append_nil _).symm, rfl⟩
  | error e => exact fun log => ⟨log, (List.append_nil _).symm, rfl⟩

theorem write (text : Codes) : EvalEnds (Eval.write .any text) (.ok ()) text :=
  fun log => ⟨log.write text, rfl, rfl⟩

theorem note (verbosity level : Nat) (line : Codes) :
    EvalEnds (Eval.note .any verbosity level line) (.ok ()) [] := by
  intro log
  rw [Eval.note]
  split
  · exact ⟨log.note line, (List.append_nil _).symm, rfl⟩
  · exact ⟨log, (List.append_nil _).symm, rfl⟩

/-- One evaluation after another: the printed texts follow each other. -/
theorem bind (hx : EvalEnds x (.ok a) out₁) (hf : EvalEnds (f a) r out₂) :
    EvalEnds (x >>= f) r (out₁ ++ out₂) := by
  intro log
  obtain ⟨log₁, hout₁, hx⟩ := hx log
  obtain ⟨log₂, hout₂, hf⟩ := hf log₁
  refine ⟨log₂, ?_, ?_⟩
  · rw [hout₂, hout₁, List.append_assoc]
  · rw [bind_of_ok hx, hf]

theorem bind_silent (hx : EvalEnds x (.ok a) out) (hf : EvalEnds (f a) r []) :
    EvalEnds (x >>= f) r out := by
  have h := hx.bind hf
  rwa [List.append_nil] at h

theorem silent_bind (hx : EvalEnds x (.ok a) []) (hf : EvalEnds (f a) r out) :
    EvalEnds (x >>= f) r out := by
  have h := hx.bind hf
  rwa [List.nil_append] at h

/-- What comes after an evaluation that fails does not happen. -/
theorem fails {e : RuntimeError} (hx : EvalEnds x (.error e) out) :
    EvalEnds (x >>= f) (.error e) out := by
  intro log
  obtain ⟨log', hout, hx⟩ := hx log
  exact ⟨log', hout, bind_of_error hx⟩

end EvalEnds

/-! ### Endings of executions -/

/-- In the scope `σ`, whatever was printed before it, the execution ends with `r`, leaves the scope
`σ'` and prints `out`. -/
def ExecEnds (x : Exec α) (σ : Scope) (r : Except RuntimeError α) (σ' : Scope) (out : Codes) : Prop :=
  ∀ log, ∃ log' : Log, log'.out = log.out ++ out ∧ x ⟨σ, log⟩ = ending r ⟨σ', log'⟩

namespace ExecEnds

variable {x : Exec α} {f : α → Exec β} {a : α} {r : Except RuntimeError β}
variable {σ σ' σ'' : Scope} {out out₁ out₂ : Codes}

theorem pure : ExecEnds (Pure.pure a) σ (.ok a) σ [] :=
  fun log => ⟨log, (List.append_nil _).symm, rfl⟩

theorem ofEval {f : Scope → Eval α} {r : Except RuntimeError α} (h : EvalEnds (f σ) r out) :
    ExecEnds (Exec.ofEval f) σ r σ out := by
  intro log
  obtain ⟨log', hout, hf⟩ := h log
  refine ⟨log', hout, ?_⟩
  rw [Exec.ofEval, hf]
  cases r <;> rfl

theorem update {f : Scope → Except Failure Scope} (h : f σ = .ok σ') :
    ExecEnds (Exec.update f) σ (.ok ()) σ' [] := by
  intro log
  refine ⟨log, (List.append_nil _).symm, ?_⟩
  rw [Exec.update, h]
  rfl

theorem update_refused {f : Scope → Except Failure Scope} {e : RuntimeError}
    (h : f σ = .error (.error e)) : ExecEnds (Exec.update f) σ (.error e) σ [] := by
  intro log
  refine ⟨log, (List.append_nil _).symm, ?_⟩
  rw [Exec.update, h]
  rfl

theorem note (verbosity level : Nat) (line : Codes) :
    ExecEnds (Exec.note .any verbosity level line) σ (.ok ()) σ [] := by
  intro log
  rw [Exec.note]
  split
  · exact ⟨log.note line, (List.append_nil _).symm, rfl⟩
  · exact ⟨log, (List.append_nil _).symm, rfl⟩

/-- One execution after another, in the scope that the first one leaves. -/
theorem bind (hx : ExecEnds x σ (.ok a) σ' out₁) (hf : ExecEnds (f a) σ' r σ'' out₂) :
    ExecEnds (x >>= f) σ r σ'' (out₁ ++ out₂) := by
  intro log
  obtain ⟨log₁, hout₁, hx⟩ := hx log
  obtain ⟨log₂, hout₂, hf⟩ := hf log₁
  refine ⟨log₂, ?_, ?_⟩
  · rw [hout₂, hout₁, List.append_assoc]
  · rw [bind_of_ok hx, hf]

theorem bind_silent (hx : ExecEnds x σ (.ok a) σ' out) (hf : ExecEnds (f a) σ' r σ'' []) :
    ExecEnds (x >>= f) σ r σ'' out := by
  have h := hx.bind hf
  rwa [List.append_nil] at h

theorem silent_bind (hx : ExecEnds x σ (.ok a) σ' []) (hf : ExecEnds (f a) σ' r σ'' out) :
    ExecEnds (x >>= f) σ r σ'' out := by
  have h := hx.bind hf
  rwa [List.nil_append] at h

/-- The scope is changed, which is traced. -/
theorem updated {f : Scope → Except Failure Scope} {verbosity level : Nat} {line : Codes}
    (h : f σ = .ok σ') :
    ExecEnds (do Exec.update f; Exec.note .any verbosity level line; Pure.pure a) σ (.ok a) σ' [] :=
  (update h).silent_bind ((note _ _ _).bind_silent .pure)

theorem fails {e : RuntimeError} (hx : ExecEnds x σ (.error e) σ' out) :
    ExecEnds (x >>= f) σ (.error e) σ' out := by
  intro log
  obtain ⟨log', hout, hx⟩ := hx log
  exact ⟨log', hout, bind_of_error hx⟩

/-- A larger budget does not change an ending. -/
theorem raise {x y : Exec α} {r : Except RuntimeError α} (h : ExecEnds x σ r σ' out)
    (hxy : CutShort x y) : ExecEnds y σ r σ' out := by
  intro log
  obtain ⟨log', hout, hx⟩ := h log
  refine ⟨log', hout, ?_⟩
  rw [hxy.eq_of_ended (hx ▸ ending_ended), hx]

end ExecEnds

/-! ### Tasks -/

/-- The value or the error that an evaluation comes to. -/
def Outcome.value? : Outcome → Option (Except RuntimeError Value)
  | .value v => some (.ok v)
  | .failed e => some (.error e)
  | _ => none

/-- The values or the error that the evaluation of arguments comes to. -/
def Outcome.values? : Outcome → Option (Except RuntimeError (List Value))
  | .values vs => some (.ok vs)
  | .failed e => some (.error e)
  | _ => none

/-- The completion or the error that an execution comes to. -/
def Outcome.completion? : Outcome → Option (Except RuntimeError Completion)
  | .completed c => some (.ok c)
  | .failed e => some (.error e)
  | _ => none

/-- Calls in this setting, nested no deeper than `m`. -/
abbrev Setting.callsWithin (s : Setting) (m : Nat) : Caller := callWithin (s.within m) m

/-- With calls and turns up to `m`, the interpreter carries out the task in the scope `σ` with the
outcome `o`, leaves the scope `σ'` and prints `out`. -/
def Task.Settles (s : Setting) (m : Nat) (σ : Scope) (o : Outcome) (σ' : Scope) (out : Codes) :
    Task → Prop
  | .eval e => σ' = σ ∧ ∃ r, o.value? = some r ∧
    EvalEnds (SmallImp.eval (s.within m) (s.callsWithin m) σ e) r out
  | .evalAll args => σ' = σ ∧ ∃ r, o.values? = some r ∧
    EvalEnds (SmallImp.evalAll (s.within m) (s.callsWithin m) σ args) r out
  | .print args => σ' = σ ∧ ∃ r, o.value? = some r ∧
    EvalEnds (printAll (s.within m) (s.callsWithin m) σ args) r out
  | .call f args => σ' = σ ∧ ∃ r, o.value? = some r ∧ EvalEnds (s.callsWithin m f args) r out
  | .exec stmt => ∃ r, o.completion? = some r ∧
    ExecEnds (SmallImp.exec (s.within m) (s.callsWithin m) stmt) σ r σ' out
  | .execAll body => ∃ r, o.completion? = some r ∧
    ExecEnds (SmallImp.execAll (s.within m) (s.callsWithin m) body) σ r σ' out

/-- What is so in all large budgets is so in the budgets just below them. -/
theorem eventually_pred {P : Nat → Prop} (h : ∀ᶠ m in atTop, P m) :
    ∀ᶠ m in atTop, ∃ k, m = k + 1 ∧ P k := by
  obtain ⟨n, hn⟩ := eventually_atTop.mp h
  refine eventually_atTop.mpr ⟨n + 1, fun m hm => ⟨m - 1, ?_, hn (m - 1) ?_⟩⟩
  · omega
  · omega

section Steps

variable {s : Setting} {call : Caller} {σ σ' σ'' : Scope} {out out₁ out₂ : Codes}

/-! ### Calls -/

theorem eval_print (hs : s.builtins = .standard) (args : List Expr) :
    eval s call σ (.call (.str "print") args) = printAll s call σ args := by
  show Eval.ofExcept (s.callee (.str "print") args.length) >>= _ = _
  rw [callee_print hs]
  rfl

/-- A call of a registered function with as many arguments as it has parameters. -/
theorem eval_call (hs : s.builtins = .standard) {name : Name} {key : Key} {args : List Expr}
    {first : Name} {f : FuncDecl} (hn : name ≠ .str "print") (hk : Json.key? name = some key)
    (hf : s.functions.find? key = some ⟨first, .decl f⟩) (hl : args.length = f.params.length) :
    eval s call σ (.call name args) = (do
      let values ← evalAll s call σ args
      Eval.note .any s.verbosity 1 (callLine f.name values)
      call f values) := by
  show Eval.ofExcept (s.callee name args.length) >>= _ = _
  rw [callee_function hs hn hk, hf]
  simp only [hl, if_true]
  rfl

/-- What a body comes to, as what its call comes to. -/
def callResult (name : Name) : Except RuntimeError Completion → Except RuntimeError Value
  | .ok (.returned v) => .ok v
  | .ok .normal => .error (.noReturn name)
  | .error e => .error e

theorem execBlock_eq {block : Block} {body : List Stmt} (h : block.statements? = some body) :
    execBlock s call block = execAll s call body := by
  cases block with
  | stmts _ => cases h; rfl
  | main _ => cases h; rfl
  | absent => cases h
  | misfit _ => cases h

theorem execElse_eq {block : Block} {body : List Stmt} (h : block.statements? = some body) :
    execElse s call block = execAll s call body := by
  rw [execElse_eq_execBlock, execBlock_eq h]
  rintro rfl
  cases h

theorem runBody_ends {f : FuncDecl} {r : Except RuntimeError Completion}
    (h : ExecEnds (execBlock s call f.body) σ r σ' out) :
    EvalEnds (runBody s call f σ) (callResult f.name r) out := by
  intro log
  obtain ⟨log', hout, h⟩ := h log
  refine ⟨log', hout, ?_⟩
  rw [runBody, h]
  rcases r with e | _ | v <;> rfl

/-- A call comes to what its body comes to with one call less. -/
theorem callWithin_ends {f : FuncDecl} {args : List Value} {frame frame' : Scope} {body : List Stmt}
    {r : Except RuntimeError Completion} {k : Nat} (hb : Binds .empty f.params args frame)
    (hstmts : f.body.statements? = some body)
    (h : ExecEnds (execAll (s.within k) (s.callsWithin k) body) frame r frame' out) :
    EvalEnds (s.callsWithin (k + 1) f args) (callResult f.name r) out := by
  have hcall := callWithin_cutShort (s := s) (Nat.le_succ k) (Nat.le_refl k)
  have hbody := h.raise ((cutShortCongruence s (Nat.le_succ k)).execAll hcall body)
  rw [← execBlock_eq hstmts] at hbody
  refine EvalEnds.silent_bind (.ofExcept (r := .ok frame) (bindParams_iff.mpr hb)) ?_
  exact runBody_ends hbody

/-! ### Conditions, loops and sequences -/

section Condition

variable {statement : String} {test : Expr}

theorem condition_ends {b : Bool} (h : EvalEnds (eval s call σ test) (.ok (.bool b)) out) :
    ExecEnds (condition s call statement test) σ (.ok b) σ out := by
  refine (ExecEnds.ofEval h).bind_silent ?_
  refine ExecEnds.silent_bind (.ofEval (.ofExcept (r := .ok b) rfl)) ?_
  exact (ExecEnds.note _ _ _).bind_silent .pure

theorem condition_ends_noTruth {v : Value} (h : EvalEnds (eval s call σ test) (.ok v) out)
    (hv : ∀ b, v ≠ .bool b) : ExecEnds (condition s call statement test) σ
      (.error (.condition statement v.typeName)) σ out := by
  refine (ExecEnds.ofEval h).bind_silent (ExecEnds.fails (.ofEval (.ofExcept ?_)))
  exact Value.condition_noTruth statement hv

theorem condition_fails {e : RuntimeError} (h : EvalEnds (eval s call σ test) (.error e) out) :
    ExecEnds (condition s call statement test) σ (.error e) σ out := (ExecEnds.ofEval h).fails

end Condition

section Loop

variable {turn : Exec (Option Completion)} {n : Nat}

theorem repeatTurns_last {c : Completion} (h : ExecEnds turn σ (.ok (some c)) σ' out) :
    ExecEnds (repeatTurns turn (n + 1)) σ (.ok c) σ' out := h.bind_silent .pure

theorem repeatTurns_fails {e : RuntimeError} (h : ExecEnds turn σ (.error e) σ' out) :
    ExecEnds (repeatTurns turn (n + 1)) σ (.error e) σ' out := h.fails

theorem repeatTurns_next {r : Except RuntimeError Completion}
    (h : ExecEnds turn σ (.ok none) σ' out₁) (hrest : ExecEnds (repeatTurns turn n) σ' r σ'' out₂) :
    ExecEnds (repeatTurns turn (n + 1)) σ r σ'' (out₁ ++ out₂) := h.bind hrest

/-- A loop whose body returns or fails ends with it. -/
theorem repeatTurns_stops {test : Exec Bool} {body : Exec Completion}
    {r : Except RuntimeError Completion} (ht : ExecEnds test σ (.ok true) σ out₁)
    (hb : ExecEnds body σ r σ' out₂) (hr : r ≠ .ok .normal) :
    ExecEnds (repeatTurns (loopTurn test body) (n + 1)) σ r σ' (out₁ ++ out₂) := by
  rcases r with e | _ | v
  · exact repeatTurns_fails (ht.bind hb.fails)
  · exact absurd rfl hr
  · exact repeatTurns_last (ht.bind (hb.bind_silent .pure))

/-- The rest of a loop has one turn less, and each turn may use the whole budget. -/
theorem repeatTurns_rest {test : Expr} {block : Block} {r : Except RuntimeError Completion} {k : Nat}
    (h : ExecEnds (exec (s.within k) (s.callsWithin k) (.loop test block)) σ r σ' out) :
    ExecEnds (repeatTurns (loopTurn
      (condition (s.within (k + 1)) (s.callsWithin (k + 1)) "while" test)
      (execBlock (s.within (k + 1)) (s.callsWithin (k + 1)) block)) k) σ r σ' out := by
  have hcall := callWithin_cutShort (s := s) (Nat.le_succ k) (Nat.le_succ k)
  have hturn := (cutShortCongruence s (Nat.le_succ k)).loopTurn
    ((cutShortCongruence s (Nat.le_succ k)).condition hcall "while" test)
    ((cutShortCongruence s (Nat.le_succ k)).execBlock hcall block)
  exact h.raise (repeatTurns_cutShort hturn (Nat.le_refl k))

end Loop

/-- Statements end with the first that returns or fails. -/
theorem execAll_stops {stmt : Stmt} {rest : List Stmt} {r : Except RuntimeError Completion}
    (h : ExecEnds (exec s call stmt) σ r σ' out) (hr : r ≠ .ok .normal) :
    ExecEnds (execAll s call (stmt :: rest)) σ r σ' out := by
  rcases r with e | _ | v
  · exact h.fails
  · exact absurd rfl hr
  · exact h.bind_silent .pure

theorem Outcome.completion?_ne_normal {o : Outcome} {r : Except RuntimeError Completion}
    (h : o.completion? = some r) (ho : o ≠ .completed .normal) : r ≠ .ok .normal := by
  rintro rfl
  cases o with
  | completed c =>
    cases h
    exact ho rfl
  | _ => cases h

end Steps

/-! ### Tasks that fail with their first expression -/

/-- The expression that a task evaluates before anything else, if there is one. -/
def Task.first? : Task → Option Expr
  | .eval (.binary left _ _) => some left
  | .eval (.unary _ operand) => some operand
  | .evalAll (e :: _) => some e
  | .print (e :: _) => some e
  | .exec (.declare _ _ (some e)) => some e
  | .exec (.assign _ e) => some e
  | .exec (.branch test _ _) => some test
  | .exec (.loop test _) => some test
  | .exec (.ret e) => some e
  | .exec (.expr e) => some e
  | _ => none

namespace Task

variable {s : Setting} {m : Nat} {σ σ' σ'' : Scope} {o o' : Outcome} {out out₁ out₂ : Codes}

/-- A task fails with the expression that it evaluates first. -/
theorem Settles.of_first {task : Task} {e : Expr} {err : RuntimeError}
    (h : (Task.eval e).Settles s m σ (.failed err) σ out) (hfirst : task.first? = some e)
    (hm : m ≠ 0) : task.Settles s m σ (.failed err) σ out := by
  obtain ⟨-, _, ⟨rfl⟩, h⟩ := h
  unfold first? at hfirst
  split at hfirst
  · cases hfirst
    exact ⟨rfl, _, rfl, h.fails⟩
  · cases hfirst
    exact ⟨rfl, _, rfl, h.fails⟩
  · cases hfirst
    exact ⟨rfl, _, rfl, h.fails⟩
  next rest =>
    cases hfirst
    refine ⟨rfl, _, rfl, ?_⟩
    cases rest with
    | nil => exact h.fails
    | cons next rest => exact h.fails
  · cases hfirst
    exact ⟨_, rfl, (ExecEnds.ofEval h).fails⟩
  · cases hfirst
    exact ⟨_, rfl, (ExecEnds.ofEval h).fails⟩
  · cases hfirst
    exact ⟨_, rfl, (condition_fails h).fails⟩
  · cases hfirst
    obtain ⟨k, rfl⟩ := Nat.exists_eq_succ_of_ne_zero hm
    exact ⟨_, rfl, repeatTurns_fails (condition_fails h).fails⟩
  · cases hfirst
    exact ⟨_, rfl, (ExecEnds.ofEval h).fails⟩
  · cases hfirst
    exact ⟨_, rfl, (ExecEnds.ofEval h).fails⟩
  · cases hfirst

theorem eventually_of_first {task : Task} {e : Expr} {err : RuntimeError}
    (hfirst : task.first? = some e)
    (h : ∀ᶠ m in atTop, (Task.eval e).Settles s m σ (.failed err) σ out) :
    ∀ᶠ m in atTop, task.Settles s m σ (.failed err) σ out := by
  filter_upwards [h, eventually_ne_atTop 0] with m h hm using h.of_first hfirst hm

/-! ### Tasks in one budget -/

namespace Settles

variable {e left right test : Expr} {args : List Expr} {a b v : Value}

/-- Both operands have values, from which the operator makes a value or an error. -/
theorem binary {op : BinaryOp} {r : Except RuntimeError Value}
    (hl : (Task.eval left).Settles s m σ (.value a) σ out₁)
    (hr : (Task.eval right).Settles s m σ (.value b) σ out₂) (h : BinaryRule op a b r)
    (ho : o.value? = some r) :
    (Task.eval (.binary left op right)).Settles s m σ o σ (out₁ ++ out₂) := by
  obtain ⟨-, _, ⟨rfl⟩, hl⟩ := hl
  obtain ⟨-, _, ⟨rfl⟩, hr⟩ := hr
  exact ⟨rfl, r, ho, hl.bind (hr.bind_silent (.ofExcept h.apply_eq))⟩

theorem unary {op : UnaryOp} {r : Except RuntimeError Value}
    (ha : (Task.eval e).Settles s m σ (.value a) σ out) (h : UnaryRule op a r)
    (ho : o.value? = some r) : (Task.eval (.unary op e)).Settles s m σ o σ out := by
  obtain ⟨-, _, ⟨rfl⟩, ha⟩ := ha
  exact ⟨rfl, r, ho, ha.bind_silent (.ofExcept h.apply_eq)⟩

/-- A variable is read, or is not there. -/
theorem read {name : Name} {r : Except RuntimeError Value} (h : σ.read name = r.mapError .error)
    (ho : o.value? = some r) : (Task.eval (.var name)).Settles s m σ o σ [] :=
  ⟨rfl, r, ho, .ofExcept h⟩

/-- A call is refused before its arguments are evaluated. -/
theorem refused {name : Name} {err : RuntimeError}
    (h : s.callee name args.length = .error (.error err)) :
    (Task.eval (.call name args)).Settles s m σ (.failed err) σ [] :=
  ⟨rfl, _, rfl, EvalEnds.fails (.ofExcept h)⟩

/-- A call comes to what the body of its function comes to in a budget with one call less. -/
theorem body {f : FuncDecl} {values : List Value} {frame frame' : Scope} {stmts : List Stmt}
    {r : Except RuntimeError Completion} (h : (Task.execAll stmts).Settles s m frame o frame' out)
    (hb : Binds .empty f.params values frame) (hstmts : f.body.statements? = some stmts)
    (ho : o.completion? = some r) (ho' : o'.value? = some (callResult f.name r)) :
    (Task.call f values).Settles s (m + 1) σ o' σ out := by
  obtain ⟨r', hr', h⟩ := h
  obtain rfl : r = r' := Option.some.inj (ho.symm.trans hr')
  exact ⟨rfl, _, ho', callWithin_ends hb hstmts h⟩

/-- The block that a condition leads to. -/
theorem branch {yes no block : Block} {stmts : List Stmt} {t : Bool}
    (ht : (Task.eval test).Settles s m σ (.value (.bool t)) σ out₁)
    (h : (Task.execAll stmts).Settles s m σ o σ' out₂) (hblock : block = bif t then yes else no)
    (hstmts : block.statements? = some stmts) :
    (Task.exec (.branch test yes no)).Settles s m σ o σ' (out₁ ++ out₂) := by
  obtain ⟨-, _, ⟨rfl⟩, ht⟩ := ht
  obtain ⟨r, hr, h⟩ := h
  subst hblock
  cases t with
  | true =>
    rw [← execBlock_eq hstmts] at h
    exact ⟨r, hr, (condition_ends ht).bind h⟩
  | false =>
    rw [← execElse_eq hstmts] at h
    exact ⟨r, hr, (condition_ends ht).bind h⟩

end Settles

theorem eventually_body {f : FuncDecl} {values : List Value} {frame frame' : Scope} {stmts : List Stmt}
    {r : Except RuntimeError Completion} (hb : Binds .empty f.params values frame)
    (hstmts : f.body.statements? = some stmts)
    (h : ∀ᶠ m in atTop, (Task.execAll stmts).Settles s m frame o frame' out)
    (ho : o.completion? = some r) (ho' : o'.value? = some (callResult f.name r)) :
    ∀ᶠ m in atTop, (Task.call f values).Settles s m σ o' σ out := by
  filter_upwards [eventually_pred h] with m hpred
  obtain ⟨k, rfl, h⟩ := hpred
  exact h.body hb hstmts ho ho'

end Task

/-! ### Rules -/

/-- **What the rules derive, the interpreter does,** in every budget that is large enough. -/
theorem Derives.settles {s : Setting} (hs : s.builtins = .standard) {task : Task} {σ σ' : Scope}
    {o : Outcome} {out : Codes} (h : Derives s.functions task σ o σ' out) :
    ∀ᶠ m in atTop, task.Settles s m σ o σ' out := by
  -- The induction is on the derivation. Every premise has a budget from which on it holds, and a
  -- rule with several premises holds where all of them do. Only the body of a call and the rest of a
  -- loop are carried out in a smaller budget than the whole.
  induction h with
  | lit => exact .of_forall fun m => ⟨rfl, _, rfl, .pure⟩
  | var hk hb =>
    refine .of_forall fun m => .read (r := .ok _) ?_ rfl
    rw [Scope.read_eq hk, hb]
    rfl
  | unbound hk hb =>
    refine .of_forall fun m => .read (r := .error _) ?_ rfl
    rw [Scope.read_eq hk, hb]
    rfl
  | binary _ _ hv ihl ihr => filter_upwards [ihl, ihr] with m hl hr using hl.binary hr hv rfl
  | binaryFails _ _ he ihl ihr => filter_upwards [ihl, ihr] with m hl hr using hl.binary hr he rfl
  | binaryLeft _ ih => exact Task.eventually_of_first rfl ih
  | binaryRight _ _ ihl ihr =>
    filter_upwards [ihl, ihr] with m ⟨_, _, rfl, hl⟩ ⟨_, _, rfl, hr⟩
    exact ⟨rfl, _, rfl, hl.bind hr.fails⟩
  | unary _ hv ih => filter_upwards [ih] with m ha using ha.unary hv rfl
  | unaryFails _ he ih => filter_upwards [ih] with m ha using ha.unary he rfl
  | unaryOperand _ ih => exact Task.eventually_of_first rfl ih
  | callPrint _ ih =>
    filter_upwards [ih] with m ⟨_, r, hr, h⟩
    refine ⟨rfl, r, hr, ?_⟩
    rw [eval_print (s := s.within m) hs]
    exact h
  | callUnknown hn hk hf =>
    refine .of_forall fun m => .refused ?_
    rw [callee_function hs hn hk, hf]
  | callArity hn hk hf hl =>
    refine .of_forall fun m => .refused ?_
    rw [callee_function hs hn hk, hf]
    simp only [hl, if_false]
  | callArgs hn hk hf hl _ ih =>
    filter_upwards [ih] with m ⟨_, _, rfl, ha⟩
    refine ⟨rfl, _, rfl, ?_⟩
    rw [eval_call (s := s.within m) hs hn hk hf hl]
    exact ha.fails
  | call hn hk hf hl _ _ iha ihc =>
    filter_upwards [iha, ihc] with m ⟨_, _, rfl, ha⟩ ⟨_, r, hr, hc⟩
    refine ⟨rfl, r, hr, ?_⟩
    rw [eval_call (s := s.within m) hs hn hk hf hl]
    exact ha.bind ((EvalEnds.note _ _ _).silent_bind hc)
  | argsNil => exact .of_forall fun m => ⟨rfl, _, rfl, .pure⟩
  | argsCons _ _ ihv ihs =>
    filter_upwards [ihv, ihs] with m ⟨_, _, rfl, hv⟩ ⟨_, _, rfl, hs⟩
    exact ⟨rfl, _, rfl, hv.bind (hs.bind_silent .pure)⟩
  | argsHead _ ih => exact Task.eventually_of_first rfl ih
  | argsTail _ _ ihv ihs =>
    filter_upwards [ihv, ihs] with m ⟨_, _, rfl, hv⟩ ⟨_, _, rfl, hs⟩
    exact ⟨rfl, _, rfl, hv.bind hs.fails⟩
  | printNone => exact .of_forall fun m => ⟨rfl, _, rfl, (EvalEnds.write "\n").bind_silent .pure⟩
  | printLast _ ih =>
    filter_upwards [ih] with m ⟨_, _, rfl, hv⟩
    refine ⟨rfl, _, rfl, ?_⟩
    rw [List.append_assoc]
    exact hv.bind ((EvalEnds.write _).bind ((EvalEnds.write "\n").bind_silent .pure))
  | printMore _ _ ihv ihs =>
    filter_upwards [ihv, ihs] with m ⟨_, _, rfl, hv⟩ ⟨_, r, hr, hs⟩
    refine ⟨rfl, r, hr, ?_⟩
    rw [List.append_assoc, List.append_assoc]
    exact hv.bind ((EvalEnds.write _).bind ((EvalEnds.write " ").bind hs))
  | printFails _ ih => exact Task.eventually_of_first rfl ih
  | returns hb hstmts _ ih => exact Task.eventually_body hb hstmts ih rfl rfl
  | noReturn hb hstmts _ ih => exact Task.eventually_body hb hstmts ih rfl rfl
  | bodyFails hb hstmts _ ih => exact Task.eventually_body hb hstmts ih rfl rfl
  | declareBare hd =>
    exact .of_forall fun m => ⟨_, rfl, .silent_bind (.ofEval .pure) (.updated hd)⟩
  | declare _ hd ih =>
    filter_upwards [ih] with m ⟨_, _, rfl, hv⟩
    exact ⟨_, rfl, (ExecEnds.ofEval hv).bind_silent (.updated hd)⟩
  | declareFails _ ih => exact Task.eventually_of_first rfl ih
  | assign _ ha ih =>
    filter_upwards [ih] with m ⟨_, _, rfl, hv⟩
    exact ⟨_, rfl, (ExecEnds.ofEval hv).bind_silent (.updated ha)⟩
  | assignUnbound _ hk hb ih =>
    filter_upwards [ih] with m ⟨_, _, rfl, hv⟩
    refine ⟨_, rfl, (ExecEnds.ofEval hv).bind_silent (ExecEnds.update_refused ?_).fails⟩
    rw [Scope.assign_eq hk, hb]
  | assignFails _ ih => exact Task.eventually_of_first rfl ih
  | branchYes _ hstmts _ iht ih =>
    filter_upwards [iht, ih] with m ht h using ht.branch h rfl hstmts
  | branchNo _ hstmts _ iht ih =>
    filter_upwards [iht, ih] with m ht h using ht.branch h rfl hstmts
  | branchNone _ ih =>
    filter_upwards [ih] with m ⟨_, _, rfl, ht⟩
    exact ⟨_, rfl, (condition_ends ht).bind_silent .pure⟩
  | branchNoTruth _ hv ih =>
    filter_upwards [ih] with m ⟨_, _, rfl, ht⟩
    exact ⟨_, rfl, (condition_ends_noTruth ht hv).fails⟩
  | branchFails _ ih => exact Task.eventually_of_first rfl ih
  | loopEnds _ ih =>
    filter_upwards [ih, eventually_pred ih] with m ⟨_, _, rfl, ht⟩ ⟨k, hk, _⟩
    subst hk
    exact ⟨_, rfl, repeatTurns_last ((condition_ends ht).bind_silent .pure)⟩
  | loopAgain _ hstmts _ _ iht ih ihl =>
    filter_upwards [iht, ih, eventually_pred ihl] with m ⟨_, _, rfl, ht⟩ ⟨_, rfl, h⟩ ⟨k, hk, r, hr, hl⟩
    subst hk
    rw [← execBlock_eq hstmts] at h
    refine ⟨r, hr, ?_⟩
    exact repeatTurns_next ((condition_ends ht).bind (h.bind_silent .pure)) (repeatTurns_rest hl)
  | loopStops _ hstmts _ ho iht ih =>
    filter_upwards [iht, ih, eventually_pred ih] with m ⟨_, _, rfl, ht⟩ ⟨r, hr, h⟩ ⟨k, hk, _⟩
    subst hk
    rw [← execBlock_eq hstmts] at h
    exact ⟨r, hr, repeatTurns_stops (condition_ends ht) h (Outcome.completion?_ne_normal hr ho)⟩
  | loopNoTruth _ hv ih =>
    filter_upwards [ih, eventually_pred ih] with m ⟨_, _, rfl, ht⟩ ⟨k, hk, _⟩
    subst hk
    exact ⟨_, rfl, repeatTurns_fails (condition_ends_noTruth ht hv).fails⟩
  | loopFails _ ih => exact Task.eventually_of_first rfl ih
  | ret _ ih =>
    filter_upwards [ih] with m ⟨_, _, rfl, hv⟩
    refine ⟨_, rfl, (ExecEnds.ofEval hv).bind_silent ?_⟩
    exact (ExecEnds.note _ _ _).bind_silent .pure
  | retFails _ ih => exact Task.eventually_of_first rfl ih
  | expr _ ih =>
    filter_upwards [ih] with m ⟨_, _, rfl, hv⟩
    exact ⟨_, rfl, (ExecEnds.ofEval hv).bind_silent .pure⟩
  | exprFails _ ih => exact Task.eventually_of_first rfl ih
  | block _ ih => exact ih
  | seqNil => exact .of_forall fun m => ⟨_, rfl, .pure⟩
  | seqNext _ _ ih ihs =>
    filter_upwards [ih, ihs] with m ⟨_, rfl, h⟩ ⟨r, hr, hs⟩
    exact ⟨r, hr, h.bind hs⟩
  | seqStops _ ho ih =>
    filter_upwards [ih] with m ⟨r, hr, h⟩
    exact ⟨r, hr, execAll_stops h (Outcome.completion?_ne_normal hr ho)⟩

end SmallImp
