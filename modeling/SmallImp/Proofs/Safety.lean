import SmallImp.Proofs.Computation
import SmallImp.Proofs.Rules
import SmallImp.Proofs.Sorts

/-!
# Safe computations

A run of a program whose integer literals fit in 64 bits handles integers of 64 bits only. If every
part of the program moreover is of the sort that its place asks for, then it fails with an error of
the language or for lack of budget only. Both are shown in one induction, for the strict and for the
lax sense of `Program.Sorted`.

* `EvalSafe`, `ExecSafe` — safe evaluations and executions;
* `eval_safe`, `exec_safe`, `callWithin_safe` — expressions, statements and calls;
* `Interpreter.run_safe` — whole runs.
-/

namespace SmallImp

variable {strict : Prop} {α β : Type}

/-! ### Evaluations -/

/-- The evaluation gives a result of which `Q` holds, or fails; in the strict sense, it fails in an
ordinary way. -/
def EvalSafe (strict : Prop) (x : Eval α) (Q : α → Prop) : Prop :=
  ∀ log, Ensures x log (fun a _ => Q a) (fun e _ => strict → e.Ordinary)

namespace EvalSafe

variable {Q : α → Prop} {R : β → Prop}

theorem pure {a : α} (h : Q a) : EvalSafe strict (Pure.pure a) Q := fun _ => h

theorem ofExcept {r : Except Failure α} (hok : ∀ a, r = .ok a → Q a)
    (herror : ∀ e, r = .error e → strict → e.Ordinary) : EvalSafe strict (Eval.ofExcept r) Q :=
  fun _ => .ofExcept hok herror

theorem bind {x : Eval α} {f : α → Eval β} (hx : EvalSafe strict x Q)
    (hf : ∀ a, Q a → EvalSafe strict (f a) R) : EvalSafe strict (x >>= f) R :=
  fun log => (hx log).bind (fun _ _ he => he) fun a log' ha => hf a ha log'

theorem write_bind {text : Codes} {x : Eval β} (h : EvalSafe strict x R) :
    EvalSafe strict (Eval.write .any text >>= fun _ => x) R := fun log => h (log.write text)

theorem note_bind {verbosity level : Nat} {line : Codes} {x : Eval β} (h : EvalSafe strict x R) :
    EvalSafe strict (Eval.note .any verbosity level line >>= fun _ => x) R :=
  fun _ => .bindEvalNote fun log' _ => h log'

end EvalSafe

/-- Calls of sorted functions on values in range are safe, and what they give is in range. -/
def CallSafe (strict : Prop) (call : Caller) : Prop :=
  ∀ f args, f.Sorted strict → (∀ v ∈ args, v.InRange) → EvalSafe strict (call f args) Value.InRange

section Expressions

variable {s : Setting} {call : Caller} {σ : Scope}

/-- What a call refers to is sorted. -/
def Callee.Sorted (strict : Prop) : Callee → Prop
  | .builtin _ => True
  | .func f => f.Sorted strict

/-- A call refers to a builtin or to a sorted function. -/
theorem callee_sorted (hs : s.functions.Sorted strict) {name : Name} {count : Nat} {callee : Callee}
    (h : s.callee name count = .ok callee) : callee.Sorted strict := by
  cases callee with
  | builtin b => trivial
  | func f =>
    obtain ⟨key, first, -, -, hf, -⟩ := callee_eq_func h
    exact hs _ (Table.mem_entries_of_find? hf)

theorem callee_ordinary (hs : s.functions.Sorted strict) {name : Name} {count : Nat} {e : Failure}
    (hn : strict → name.IsText) (h : s.callee name count = .error e) (hstrict : strict) :
    e.Ordinary := by
  obtain ⟨key, hk⟩ := (hn hstrict).key?
  rw [callee_eq hk] at h
  split at h
  · split at h
    · cases h
    · cases h
      exact ⟨nofun, nofun⟩
  · split at h
    · cases h
      exact ⟨nofun, nofun⟩
    next first node hf => exact absurd hstrict (hs _ (Table.mem_entries_of_find? hf))
    next first f hf =>
      split at h
      · cases h
      · cases h
        exact ⟨nofun, nofun⟩

mutual

theorem eval_safe (hs : s.functions.Sorted strict)
    (hcall : CallSafe strict call) (hσ : σ.InRange) :
    ∀ e : Expr, e.Sorted strict → EvalSafe strict (eval s call σ e) Value.InRange
  | .lit value, h => .pure (Literal.value_inRange h)
  | .var name, h => .ofExcept (fun v hv => hσ.read hv) fun e he hstrict =>
    Scope.read_ordinary (h hstrict) he
  | .binary left op right, h => by
    refine (eval_safe hs hcall hσ left h.1).bind fun a ha => ?_
    refine (eval_safe hs hcall hσ right h.2).bind fun b hb => ?_
    exact .ofExcept (fun v hv => BinaryOp.apply_inRange hv)
      fun e he _ => BinaryOp.apply_ordinary ha hb he
  | .unary op operand, h => by
    refine (eval_safe hs hcall hσ operand h).bind fun a _ => ?_
    exact .ofExcept (fun v hv => UnaryOp.apply_inRange hv) fun e he _ => UnaryOp.apply_ordinary he
  | .call name args, h => by
    have hcallee : EvalSafe strict (Eval.ofExcept (s.callee name args.length))
        (Callee.Sorted strict) :=
      .ofExcept (fun callee hc => callee_sorted hs hc) fun e he => callee_ordinary hs h.1 he
    refine hcallee.bind fun callee hc => ?_
    cases callee with
    | builtin b =>
      cases hb : b.action with
      | print => simpa only [hb] using printAll_safe hs hcall hσ args h.2
      | last => simpa only [hb] using evalLast_safe hs hcall hσ .null args trivial h.2
    | func f =>
      refine (evalAll_safe hs hcall hσ args h.2).bind fun values hvalues => ?_
      exact .note_bind (hcall f values hc hvalues)
  | .misfit _, h => fun _ hstrict => absurd hstrict h

theorem evalAll_safe (hs : s.functions.Sorted strict)
    (hcall : CallSafe strict call) (hσ : σ.InRange) : ∀ args : List Expr, Expr.AllSorted strict args →
      EvalSafe strict (evalAll s call σ args) fun vs => ∀ v ∈ vs, v.InRange
  | [], _ => .pure nofun
  | e :: rest, h => by
    refine (eval_safe hs hcall hσ e h.1).bind fun v hv => ?_
    refine (evalAll_safe hs hcall hσ rest h.2).bind fun vs hvs => ?_
    exact .pure (List.forall_mem_cons.mpr ⟨hv, hvs⟩)

theorem printAll_safe (hs : s.functions.Sorted strict)
    (hcall : CallSafe strict call) (hσ : σ.InRange) : ∀ args : List Expr, Expr.AllSorted strict args →
      EvalSafe strict (printAll s call σ args) Value.InRange
  | [], _ => .write_bind (.pure trivial)
  | [e], h => by
    refine (eval_safe hs hcall hσ e h.1).bind fun v _ => ?_
    exact .write_bind (.write_bind (.pure trivial))
  | e :: next :: rest, h => by
    refine (eval_safe hs hcall hσ e h.1).bind fun v _ => ?_
    exact .write_bind (.write_bind (printAll_safe hs hcall hσ (next :: rest) h.2))

theorem evalLast_safe (hs : s.functions.Sorted strict)
    (hcall : CallSafe strict call) (hσ : σ.InRange) : ∀ (last : Value) (args : List Expr), last.InRange →
      Expr.AllSorted strict args → EvalSafe strict (evalLast s call σ last args) Value.InRange
  | _, [], hlast, _ => .pure hlast
  | _, e :: rest, _, h =>
    (eval_safe hs hcall hσ e h.1).bind fun v hv => evalLast_safe hs hcall hσ v rest hv h.2

end

end Expressions

/-! ### Executions -/

/-- From a scope in range the execution gives a result of which `Q` holds, or fails; in the strict
sense, it fails in an ordinary way. It leaves a scope in range in either case. -/
def ExecSafe (strict : Prop) (x : Exec α) (Q : α → Prop) : Prop :=
  ∀ st, st.scope.InRange → Ensures x st (fun a st' => st'.scope.InRange ∧ Q a)
    (fun e st' => st'.scope.InRange ∧ (strict → e.Ordinary))

namespace ExecSafe

variable {Q : α → Prop} {R : β → Prop}

theorem pure {a : α} (h : Q a) : ExecSafe strict (Pure.pure a) Q := fun _ hst => ⟨hst, h⟩

theorem bind {x : Exec α} {f : α → Exec β} (hx : ExecSafe strict x Q)
    (hf : ∀ a, Q a → ExecSafe strict (f a) R) : ExecSafe strict (x >>= f) R :=
  fun st hst => (hx st hst).bind (fun _ _ he => he) fun a st' ha => hf a ha.2 st' ha.1

theorem ofEval {f : Scope → Eval α} (h : ∀ σ, σ.InRange → EvalSafe strict (f σ) Q) :
    ExecSafe strict (Exec.ofEval f) Q :=
  fun st hst => .ofEval (h st.scope hst st.log) (fun _ _ ha => ⟨hst, ha⟩) fun _ _ he => ⟨hst, he⟩

theorem update_bind {f : Scope → Except Failure Scope} {x : Exec β}
    (hok : ∀ σ σ', σ.InRange → f σ = .ok σ' → σ'.InRange)
    (herror : ∀ σ e, f σ = .error e → strict → e.Ordinary) (hx : ExecSafe strict x R) :
    ExecSafe strict (Exec.update f >>= fun _ => x) R :=
  fun st hst => .bindUpdate (fun σ' hσ' => hx _ (hok st.scope σ' hst hσ'))
    fun e he => ⟨hst, herror st.scope e he⟩

theorem note_bind {verbosity level : Nat} {line : Codes} {x : Exec β} (h : ExecSafe strict x R) :
    ExecSafe strict (Exec.note .any verbosity level line >>= fun _ => x) R :=
  fun _ hst => .bindNote fun _ _ => h _ hst

end ExecSafe

section Statements

variable {s : Setting} {call : Caller}

theorem Value.condition_ordinary {statement : String} {v : Value} {e : Failure}
    (h : v.condition statement = .error e) : e.Ordinary := by
  cases v with
  | bool b => cases h
  | _ =>
    cases h
    exact ⟨nofun, nofun⟩

theorem condition_safe (hs : s.functions.Sorted strict) (hcall : CallSafe strict call)
    {test : Expr} (htest : test.Sorted strict) (statement : String) :
    ExecSafe strict (condition s call statement test) fun _ => True := by
  refine (ExecSafe.ofEval fun σ hσ => eval_safe hs hcall hσ test htest).bind fun v _ => ?_
  have htruth : ExecSafe strict (Exec.ofEval fun _ => Eval.ofExcept (v.condition statement))
      fun _ => True :=
    .ofEval fun _ _ => .ofExcept (fun _ _ => trivial) fun _ he _ => Value.condition_ordinary he
  exact htruth.bind fun _ _ => .note_bind (.pure trivial)

theorem startValue_safe (hs : s.functions.Sorted strict) (hcall : CallSafe strict call) {σ : Scope}
    (hσ : σ.InRange) {start : Option Expr} (hstart : ∀ e ∈ start, e.Sorted strict) :
    EvalSafe strict (startValue s call σ start) Value.InRange := by
  cases start with
  | some e => exact eval_safe hs hcall hσ e (hstart e rfl)
  | none => exact .pure trivial

/-- What a turn of a loop completes the loop with, if anything, is in range. -/
theorem loopTurn_safe {x : Exec Bool} {y : Exec Completion} (hx : ExecSafe strict x fun _ => True)
    (hy : ExecSafe strict y Completion.InRange) :
    ExecSafe strict (loopTurn x y) fun next => ∀ c, next = some c → c.InRange := by
  refine hx.bind fun holds _ => ?_
  cases holds with
  | false =>
    refine .pure ?_
    rintro c ⟨rfl⟩
    trivial
  | true =>
    refine hy.bind fun c hc => ?_
    cases c with
    | normal => exact .pure nofun
    | returned v =>
      refine .pure ?_
      rintro c ⟨rfl⟩
      exact hc

/-- The turns of a loop, by induction on how many it may take. -/
theorem repeatTurns_safe {turn : Exec (Option Completion)}
    (hturn : ExecSafe strict turn fun next => ∀ c, next = some c → c.InRange) :
    ∀ turns, ExecSafe strict (repeatTurns turn turns) Completion.InRange := by
  intro turns
  induction turns with
  | zero => exact fun st hst => ⟨hst, fun _ => trivial⟩
  | succ turns ih =>
    refine hturn.bind fun next hnext => ?_
    cases next with
    | some c => exact .pure (hnext c rfl)
    | none => exact ih

mutual

theorem exec_safe (hs : s.functions.Sorted strict) (hcall : CallSafe strict call) :
    ∀ stmt : Stmt, stmt.Sorted strict → ExecSafe strict (exec s call stmt) Completion.InRange
  | .declare tag name start, h => by
    have hstart : ExecSafe strict (Exec.ofEval fun σ => startValue s call σ start) Value.InRange :=
      .ofEval fun σ hσ => startValue_safe hs hcall hσ h.2
    refine hstart.bind fun v hv => .update_bind ?_ ?_ (.note_bind (.pure trivial))
    · intro σ σ' hσ hd
      exact hσ.declare hv hd
    · intro σ e he hstrict
      have hd : ∃ σ', σ.declare tag name v = .ok σ' := Scope.declare_ok (h.1 hstrict).2
      obtain ⟨σ', hσ'⟩ := hd
      rw [hσ'] at he
      cases he
  | .assign name e, h => by
    have hvalue : ExecSafe strict (Exec.ofEval fun σ => eval s call σ e) Value.InRange :=
      .ofEval fun σ hσ => eval_safe hs hcall hσ e h.2
    refine hvalue.bind fun v hv => .update_bind ?_ ?_ (.note_bind (.pure trivial))
    · intro σ σ' hσ ha
      exact hσ.assign hv ha
    · intro σ err he hstrict
      exact Scope.assign_ordinary (h.1 hstrict) he
  | .branch test yes no, h => by
    refine (condition_safe hs hcall h.1 "if").bind fun holds _ => ?_
    cases holds with
    | true => exact execBlock_safe hs hcall yes h.2.1
    | false => exact execElse_safe hs hcall no h.2.2
  | .loop test body, h =>
    repeatTurns_safe (loopTurn_safe (condition_safe hs hcall h.1 "while")
      (execBlock_safe hs hcall body h.2)) s.turns
  | .ret e, h => by
    have hvalue : ExecSafe strict (Exec.ofEval fun σ => eval s call σ e) Value.InRange :=
      .ofEval fun σ hσ => eval_safe hs hcall hσ e h
    exact hvalue.bind fun v hv => .note_bind (.pure hv)
  | .expr e, h => by
    have hvalue : ExecSafe strict (Exec.ofEval fun σ => eval s call σ e) Value.InRange :=
      .ofEval fun σ hσ => eval_safe hs hcall hσ e h
    exact hvalue.bind fun v _ => .pure trivial
  | .block body, h => execAll_safe hs hcall body h.2
  | .misfit _, h => fun _ hst => ⟨hst, fun hstrict => absurd hstrict h⟩

theorem execBlock_safe (hs : s.functions.Sorted strict) (hcall : CallSafe strict call) :
    ∀ block : Block, block.Sorted strict False →
      ExecSafe strict (execBlock s call block) Completion.InRange
  | .stmts body, h => execAll_safe hs hcall body h
  | .main body, h => execAll_safe hs hcall body h.2
  | .absent, h => fun _ hst => ⟨hst, fun hstrict => (h hstrict).elim⟩
  | .misfit _, h => fun _ hst => ⟨hst, fun hstrict => absurd hstrict h⟩

theorem execElse_safe (hs : s.functions.Sorted strict) (hcall : CallSafe strict call) :
    ∀ block : Block, block.Sorted strict True →
      ExecSafe strict (execElse s call block) Completion.InRange
  | .stmts body, h => execAll_safe hs hcall body h
  | .main body, h => execAll_safe hs hcall body h.2
  | .absent, _ => .pure trivial
  | .misfit _, h => fun _ hst => ⟨hst, fun hstrict => absurd hstrict h⟩

theorem execAll_safe (hs : s.functions.Sorted strict) (hcall : CallSafe strict call) :
    ∀ body : List Stmt, Stmt.AllSorted strict body →
      ExecSafe strict (execAll s call body) Completion.InRange
  | [], _ => .pure trivial
  | stmt :: rest, h => by
    refine (exec_safe hs hcall stmt h.1).bind fun c hc => ?_
    cases c with
    | normal => exact execAll_safe hs hcall rest h.2
    | returned v => exact .pure hc

end

end Statements

/-! ### Calls -/

theorem Binds.inRange {σ σ' : Scope} {params : List Param} {args : List Value}
    (h : Binds σ params args σ') (hσ : σ.InRange) (hargs : ∀ v ∈ args, v.InRange) : σ'.InRange := by
  induction h with
  | done h => exact hσ
  | param hp hd h ih =>
    obtain ⟨hv, hargs⟩ := List.forall_mem_cons.mp hargs
    exact ih (hσ.declare hv hd) hargs

/-- Sorted parameters can be declared. -/
theorem bindParams_ok {params : List Param} (h : ∀ p ∈ params, p.Sorted True) :
    ∀ (σ : Scope) (args : List Value), ∃ σ', bindParams σ params args = .ok σ' := by
  induction params with
  | nil => exact fun σ args => ⟨σ, rfl⟩
  | cons p params ih =>
    intro σ args
    obtain ⟨hp, hrest⟩ := List.forall_mem_cons.mp h
    cases args with
    | nil => exact ⟨σ, rfl⟩
    | cons v args =>
      cases p with
      | misfit node => exact absurd trivial hp
      | param tag name =>
        have hd : ∃ σ', σ.declare tag name v = .ok σ' := Scope.declare_ok (hp trivial).2
        obtain ⟨σ₁, hσ₁⟩ := hd
        obtain ⟨σ', hσ'⟩ := ih hrest σ₁ args
        refine ⟨σ', ?_⟩
        simp only [bindParams, Param.binding?, hσ₁]
        exact hσ'

section Calls

variable {s : Setting} {call : Caller}

theorem runBody_safe (hs : s.functions.Sorted strict) (hcall : CallSafe strict call) {f : FuncDecl}
    (hf : f.Sorted strict) {σ : Scope} (hσ : σ.InRange) :
    EvalSafe strict (runBody s call f σ) Value.InRange := by
  intro log
  have hbody := execBlock_safe hs hcall f.body hf.body ⟨σ, log⟩ hσ
  rw [Ensures, runBody]
  cases hx : execBlock s call f.body ⟨σ, log⟩ with
  | ok c st =>
    cases c with
    | returned v => exact (hbody.ok hx).2
    | normal => simp [Failure.Ordinary]
  | error e st => exact (hbody.error hx).2

theorem callWith_safe (hs : s.functions.Sorted strict) (hcall : CallSafe strict call) :
    CallSafe strict (callWith s call) := by
  intro f args hf hargs
  have hframe : EvalSafe strict (Eval.ofExcept (bindParams .empty f.params args)) Scope.InRange := by
    refine .ofExcept (fun σ hσ => ?_) (fun e he hstrict => ?_)
    · exact (bindParams_iff.mp hσ).inRange .empty hargs
    · have hparams : ∀ p ∈ f.params, p.Sorted True := by
        have hp := hf.params
        rwa [eq_true hstrict] at hp
      obtain ⟨σ', hσ'⟩ := bindParams_ok hparams .empty args
      rw [hσ'] at he
      cases he
  exact hframe.bind fun σ hσ => runBody_safe hs hcall hf hσ

/-- Calls of any depth, by induction on the depth. -/
theorem callWithin_safe (hs : s.functions.Sorted strict) :
    ∀ depth, CallSafe strict (callWithin s depth) := by
  intro depth
  induction depth with
  | zero => exact fun f args _ _ log _ => trivial
  | succ depth ih => exact callWith_safe hs ih

end Calls

/-! ### Runs -/

/-- The functions of a world are sorted, and its variables are in range. -/
structure World.Safe (strict : Prop) (w : World) : Prop where
  functions : w.functions.Sorted strict
  scope : w.scope.InRange

theorem World.Safe.empty : World.empty.Safe strict := ⟨nofun, .empty⟩

/-- From a safe world the computation leads to a safe world, whether it fails or not; in the strict
sense, it fails in an ordinary way. -/
def RunSafe (strict : Prop) (x : Run α) : Prop :=
  ∀ w, w.Safe strict → Ensures x w (fun _ w' => w'.Safe strict)
    (fun e w' => w'.Safe strict ∧ (strict → e.Ordinary))

theorem RunSafe.bind {x : Run α} {f : α → Run β} (hx : RunSafe strict x)
    (hf : ∀ a, RunSafe strict (f a)) : RunSafe strict (x >>= f) :=
  fun w hw => (hx w hw).bind (fun _ _ he => he) fun a w' hw' => hf a w' hw'

namespace Interpreter

variable {i : Interpreter}

theorem register_safe {func : Func} (hfunc : func.Sorted strict) :
    RunSafe strict (i.register func) := by
  intro w hw
  rcases named_or func with ⟨name, key, hn, hk⟩ | hk
  · obtain ⟨log, -, hr⟩ := register_ok (i := i) hn hk w
    rw [Ensures, hr]
    refine ⟨fun r hr => ?_, hw.scope⟩
    rcases Table.mem_entries_upsert hr with hr | rfl
    · exact hw.functions r hr
    · cases w.functions.find? key with
      | some r => exact hfunc
      | none => exact hfunc
  · obtain ⟨d, hd⟩ := register_refused (i := i) hk w
    rw [Ensures, hd]
    refine ⟨hw, fun hstrict => ?_⟩
    cases func with
    | misfit node => exact absurd hstrict hfunc
    | decl f =>
      obtain ⟨key, hkey⟩ := (hfunc.texts hstrict).1.key?
      rw [hk f.name rfl] at hkey
      cases hkey

theorem registerAll_safe {functions : List Func} (h : ∀ func ∈ functions, func.Sorted strict) :
    RunSafe strict (i.registerAll functions) := by
  induction functions with
  | nil => exact fun w hw => hw
  | cons func rest ih =>
    obtain ⟨hfunc, hrest⟩ := List.forall_mem_cons.mp h
    exact (register_safe hfunc).bind fun _ => ih hrest

/-- An execution in the top-level scope. -/
theorem inScope_safe {f : Setting → Caller → Exec α} {Q : α → Prop}
    (h : ∀ s call, s.functions.Sorted strict → CallSafe strict call → ExecSafe strict (f s call) Q)
    (w : World) (hw : w.Safe strict) : Ensures (i.inScope f) w (fun a w' => w'.Safe strict ∧ Q a)
      (fun e w' => w'.Safe strict ∧ (strict → e.Ordinary)) := by
  have hx := h (i.setting w.functions) (i.caller w.functions) hw.functions
    (callWithin_safe hw.functions _) ⟨w.scope, w.log⟩ hw.scope
  rw [Ensures, inScope]
  cases he : f (i.setting w.functions) (i.caller w.functions) ⟨w.scope, w.log⟩ with
  | ok a st => exact ⟨⟨hw.functions, (hx.ok he).1⟩, (hx.ok he).2⟩
  | error e st => exact ⟨⟨hw.functions, (hx.error he).1⟩, (hx.error he).2⟩

theorem runMain_safe {block : Block} (h : block.MainSorted strict) :
    RunSafe strict (i.runMain block) := by
  have hbody : ∀ body, Stmt.AllSorted strict body → ∀ s call, s.functions.Sorted strict →
      CallSafe strict call → ExecSafe strict (SmallImp.execAll s call body) Completion.InRange :=
    fun body hb s call hs hcall => execAll_safe hs hcall body hb
  have hreport : RunSafe strict (if i.report then reportState .free else pure ()) := by
    intro w hw
    split
    · rw [Ensures, reportState_free]
      exact ⟨hw.functions, hw.scope⟩
    · exact hw
  cases block with
  | absent => exact fun w hw => hw
  | main body =>
    exact RunSafe.bind (fun w hw => (inScope_safe (hbody body h) w hw).weaken
      (fun _ _ h => h.1) fun _ _ h => h) fun _ => hreport
  | stmts body =>
    exact RunSafe.bind (fun w hw => (inScope_safe (hbody body h.2) w hw).weaken
      (fun _ _ h => h.1) fun _ _ h => h) fun _ => hreport
  | misfit node => exact fun w hw => ⟨⟨hw.functions, hw.scope⟩, fun hstrict => absurd hstrict h⟩

/-- **Runs are safe.** -/
theorem run_safe {p : Program} (h : p.Sorted strict) : RunSafe strict (i.run p) := by
  intro w hw
  have hparts : RunSafe strict (i.runParts p) :=
    (registerAll_safe h.functions).bind fun _ => runMain_safe h.main
  have hw := hparts w hw
  rw [Ensures, run]
  cases hr : i.runParts p w with
  | ok u w' => exact hw.ok hr
  | error e w' =>
    obtain ⟨hw', he⟩ := hw.error hr
    refine ⟨hw', fun hstrict => ?_⟩
    -- too many calls are an error of the language
    cases e with
    | error err => exact he hstrict
    | defect d => exact (he hstrict).elim
    | unencodable => exact (he hstrict).elim
    | exhausted resource =>
      cases resource with
      | calls => simp [Failure.Ordinary, runFailure]
      | turns => trivial

end Interpreter

end SmallImp
