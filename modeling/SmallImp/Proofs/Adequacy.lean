import SmallImp.Proofs.Completeness

/-!
# Adequacy of the rules

The interpreter and the rules say the same. What the interpreter comes to in some budget is what the
rules derive, for every task and for whole programs, and a budget that was enough can be enlarged.

* `Outcome.ending` — how the interpreter ends a task that comes to an outcome;
* `Task.perform_iff_derives` — tasks in some budget, against the rules;
* `Interpreter.run_iff_runs` — whole runs in some budget, against the rules;
* `Interpreter.run_of_le` — a run in a larger budget;
* `interpreter_adequate` — all of it for a new interpreter.
-/

namespace SmallImp

/-! ### Tasks -/

/-- The end of a task that comes to an outcome. -/
def Outcome.ending : Outcome → Store → EStateM.Result Failure Store Outcome
  | .failed e, st => .error (.error e) st
  | o, st => .ok o st

theorem Outcome.ending_of_value? {o : Outcome} {r : Except RuntimeError Value}
    (h : o.value? = some r) (st : Store) : o.ending st = SmallImp.ending (r.map .value) st := by
  cases o <;> cases h <;> rfl

theorem Outcome.ending_of_values? {o : Outcome} {r : Except RuntimeError (List Value)}
    (h : o.values? = some r) (st : Store) : o.ending st = SmallImp.ending (r.map .values) st := by
  cases o <;> cases h <;> rfl

theorem Outcome.ending_of_completion? {o : Outcome} {r : Except RuntimeError Completion}
    (h : o.completion? = some r) (st : Store) :
    o.ending st = SmallImp.ending (r.map .completed) st := by
  cases o <;> cases h <;> rfl

theorem ExecEnds.map {α β : Type} {x : Exec α} {σ σ' : Scope} {r : Except RuntimeError α}
    {out : Codes} (g : α → β) (h : ExecEnds x σ r σ' out) :
    ExecEnds (g <$> x) σ (r.map g) σ' out := by
  rw [map_eq_pure_bind]
  cases r with
  | ok a => exact h.bind_silent .pure
  | error e => exact h.fails

/-- A settled task ends with its outcome. -/
theorem Task.Settles.perform {s : Setting} {m : Nat} {task : Task} {σ σ' : Scope} {o : Outcome}
    {out : Codes} (h : task.Settles s m σ o σ' out) (log : Log) :
    ∃ log' : Log, log'.out = log.out ++ out ∧
      task.perform (s.within m) m ⟨σ, log⟩ = o.ending ⟨σ', log'⟩ := by
  cases task with
  | eval e =>
    obtain ⟨rfl, r, hr, h⟩ := h
    rw [funext (Outcome.ending_of_value? hr)]
    exact (ExecEnds.ofEval h).map _ log
  | evalAll args =>
    obtain ⟨rfl, r, hr, h⟩ := h
    rw [funext (Outcome.ending_of_values? hr)]
    exact (ExecEnds.ofEval h).map _ log
  | print args =>
    obtain ⟨rfl, r, hr, h⟩ := h
    rw [funext (Outcome.ending_of_value? hr)]
    exact (ExecEnds.ofEval h).map _ log
  | call f args =>
    obtain ⟨rfl, r, hr, h⟩ := h
    rw [funext (Outcome.ending_of_value? hr)]
    exact (ExecEnds.ofEval h).map _ log
  | exec stmt =>
    obtain ⟨r, hr, h⟩ := h
    rw [funext (Outcome.ending_of_completion? hr)]
    exact h.map _ log
  | execAll body =>
    obtain ⟨r, hr, h⟩ := h
    rw [funext (Outcome.ending_of_completion? hr)]
    exact h.map _ log

theorem Accounted.derives {table : FunctionTable} {task : Task} {σ σ' : Scope} {log log' : Log}
    {o : Outcome} {out : Codes} (h : Accounted table task σ log o σ' log')
    (hout : log'.out = log.out ++ out) : Derives table task σ o σ' out := by
  obtain ⟨out', hout', hd⟩ := h
  rw [hout] at hout'
  rw [List.append_cancel_left hout']
  exact hd

/-- A task ends with an outcome in some budget just when the rules derive it. -/
theorem Task.perform_iff_derives {s : Setting} (hs : s.builtins = .standard) {task : Task}
    {σ σ' : Scope} {log : Log} {o : Outcome} {out : Codes} :
    (∃ (b : Budget) (log' : Log), log'.out = log.out ++ out ∧
      task.perform (s.within b.turns) b.calls ⟨σ, log⟩ = o.ending ⟨σ', log'⟩) ↔
      Derives s.functions task σ o σ' out := by
  constructor
  · rintro ⟨b, log', hout, hx⟩
    have h := task.perform_accounted (s := (s.within b.turns)) hs b.calls ⟨σ, log⟩
    cases o with
    | failed e => exact (h.error hx e rfl).derives hout
    | value v => exact (h.ok hx).derives hout
    | values vs => exact (h.ok hx).derives hout
    | completed c => exact (h.ok hx).derives hout
  · intro h
    obtain ⟨m, hm⟩ := (h.settles hs).exists
    obtain ⟨log', hout, hx⟩ := hm.perform log
    exact ⟨⟨m, m⟩, log', hout, hx⟩

/-! ### Runs -/

namespace Interpreter

variable {i : Interpreter}

/-- A main block and what comes after it. -/
theorem runMain_eq {block : Block} {body : List Stmt} (h : block.statements? = some body) (w : World) :
    i.runMain block w =
      match execAll (i.setting w.functions) (i.caller w.functions) body ⟨w.scope, w.log⟩ with
      | .ok _ st => .ok () ⟨w.functions, st.scope,
        if i.report then st.log.write (reportText st.scope) else st.log⟩
      | .error e st => .error e ⟨w.functions, st.scope, st.log⟩ := by
  have hmain : i.runMain block = i.execBlock block >>= fun _ =>
      if i.report then reportState .free else pure () := by
    cases block with
    | absent => cases h
    | _ => rfl
  rw [hmain, ← execBlock_eq h]
  cases hx : SmallImp.execBlock (i.setting w.functions) (i.caller w.functions) block
      ⟨w.scope, w.log⟩ with
  | ok c st =>
    have hblock : i.execBlock block w = .ok c ⟨w.functions, st.scope, st.log⟩ := by
      rw [execBlock, inScope, hx]
    rw [bind_of_ok hblock]
    cases i.report with
    | false => rfl
    | true => exact reportState_free _
  | error e st =>
    have hblock : i.execBlock block w = .error e ⟨w.functions, st.scope, st.log⟩ := by
      rw [execBlock, inScope, hx]
    rw [bind_of_error hblock]

/-- A run that failed with an error of the language other than too many calls failed with it when it
happened. -/
theorem runFailure_eq_error {e : Failure} {err : RuntimeError} (h : runFailure e = .error err)
    (herr : err ≠ .callDepth) : e = .error err := by
  cases e with
  | exhausted resource =>
    cases resource with
    | calls =>
      cases h
      exact absurd rfl herr
    | turns => cases h
  | error e => exact h
  | defect d => cases h
  | unencodable => cases h

/-- What a run makes of the end of its main block. -/
def finish : EStateM.Result Failure World Unit → EStateM.Result Failure World Unit
  | .ok () w => .ok () w
  | .error e w => .error (runFailure e) w

/-- A run registers the functions of the program, and then runs its main block. -/
theorem run_of_registers {p : Program} {table' : FunctionTable} {w : World}
    (h : Registers w.functions p.functions table') : ∃ log : Log, log.out = w.log.out ∧
      i.run p w = finish (i.runMain p.main ⟨table', w.scope, log⟩) := by
  obtain ⟨log, hlog, hw⟩ := registerAll_of_registers (i := i) h rfl
  refine ⟨log, hlog, ?_⟩
  rw [run, runParts, bind_of_ok hw]
  rfl

section Runs

variable {verbosity : Nat} {report : Bool} {b : Budget} {p : Program} {w : World}
variable {r : Except RuntimeError Unit} {table table' : FunctionTable} {σ' : Scope} {out : Codes}
variable {log log' : Log}

/-- The end of a main block with statements is the end of a run that the rules derive. -/
theorem runs_of_runMain {body : List Stmt} (hreg : Registers w.functions p.functions table)
    (hmain : p.main.statements? = some body) (hlog : log.out = w.log.out)
    (hout : log'.out = w.log.out ++ out) (hr : r ≠ .error .callDepth)
    (hx : finish ((fresh verbosity report b).runMain p.main ⟨table, w.scope, log⟩) =
      ending r ⟨table', σ', log'⟩) :
    Runs report w.functions w.scope p r table' σ' out := by
  have hbody := execAll_accounted (s := (fresh verbosity report b).setting table) rfl
    (callWithin_accounted rfl b.calls) body ⟨w.scope, log⟩
  rw [runMain_eq hmain] at hx
  cases hend : execAll ((fresh verbosity report b).setting table)
      ((fresh verbosity report b).caller table) body ⟨w.scope, log⟩ with
  | ok c st =>
    obtain ⟨out₁, hout₁, hd⟩ := hbody.ok hend
    rw [hend] at hx
    cases r with
    | error err => cases hx
    | ok u =>
      cases hx
      have htext : out = out₁ ++ if report then reportText st.scope else [] := by
        rw [← List.append_right_inj w.log.out, ← hout, ← hlog, ← List.append_assoc, ← hout₁]
        cases report with
        | true => rfl
        | false => exact (List.append_nil _).symm
      rw [htext]
      exact .main hreg hmain hd
  | error e st =>
    rw [hend] at hx
    cases r with
    | ok u => cases hx
    | error err =>
      injection hx with he hw
      cases hw
      have he := runFailure_eq_error he (by rintro rfl; exact hr rfl)
      refine .mainFails hreg hmain ((hbody.error hend err he).derives ?_)
      rw [hout, hlog]

/-- A run ends in some budget, not for lack of it, just when the rules derive its end. -/
theorem run_iff_runs (hr : r ≠ .error .callDepth) :
    (∃ (b : Budget) (log' : Log), log'.out = w.log.out ++ out ∧
      (fresh verbosity report b).run p w = ending r ⟨table', σ', log'⟩) ↔
      Runs report w.functions w.scope p r table' σ' out := by
  constructor
  · rintro ⟨b, log', hout, hx⟩
    rcases registers_or_defect (i := fresh verbosity report b) p.functions w with
      ⟨table, hreg⟩ | ⟨d, w', hd⟩
    · obtain ⟨log, hlog, hrun⟩ := run_of_registers (i := fresh verbosity report b) hreg
      rw [hrun] at hx
      cases hmain : p.main with
      | stmts body => exact runs_of_runMain hreg (by rw [hmain]; rfl) hlog hout hr hx
      | main body => exact runs_of_runMain hreg (by rw [hmain]; rfl) hlog hout hr hx
      | absent =>
        rw [hmain] at hx
        cases r with
        | error err => cases hx
        | ok u =>
          cases hx
          have htext : out = [] := by
            rw [← List.append_right_inj w.log.out, ← hout, hlog, List.append_nil]
          rw [htext]
          exact .noMain hreg hmain
      | misfit node =>
        rw [hmain] at hx
        cases r <;> cases hx
    · rw [run, runParts, bind_of_error hd] at hx
      cases r <;> cases hx
  · intro h
    cases h with
    | noMain hreg hmain =>
      obtain ⟨log, hlog, hrun⟩ := run_of_registers (i := fresh verbosity report .standard) hreg
      refine ⟨.standard, log, ?_, ?_⟩
      · rw [hlog, List.append_nil]
      · rw [hrun, hmain]
        rfl
    | main hreg hmain hd =>
      obtain ⟨m, _, ⟨rfl⟩, hm⟩ :=
        (hd.settles (s := ⟨.standard, table', verbosity, 0⟩) rfl).exists
      obtain ⟨log, hlog, hrun⟩ := run_of_registers (i := fresh verbosity report ⟨m, m⟩) hreg
      obtain ⟨log₁, hlog₁, hend⟩ := hm log
      have hend : execAll ((fresh verbosity report ⟨m, m⟩).setting table')
        ((fresh verbosity report ⟨m, m⟩).caller table') _ ⟨w.scope, log⟩ = .ok _ ⟨σ', log₁⟩ := hend
      refine ⟨⟨m, m⟩, if report then log₁.write (reportText σ') else log₁, ?_, ?_⟩
      · rw [← List.append_assoc, ← hlog, ← hlog₁]
        cases report with
        | true => rfl
        | false => exact (List.append_nil _).symm
      · rw [hrun, runMain_eq hmain, hend]
        rfl
    | mainFails hreg hmain hd =>
      obtain ⟨m, _, ⟨rfl⟩, hm⟩ :=
        (hd.settles (s := ⟨.standard, table', verbosity, 0⟩) rfl).exists
      obtain ⟨log, hlog, hrun⟩ := run_of_registers (i := fresh verbosity report ⟨m, m⟩) hreg
      obtain ⟨log₁, hlog₁, hend⟩ := hm log
      have hend : execAll ((fresh verbosity report ⟨m, m⟩).setting table')
        ((fresh verbosity report ⟨m, m⟩).caller table') _ ⟨w.scope, log⟩ =
          .error (.error _) ⟨σ', log₁⟩ := hend
      refine ⟨⟨m, m⟩, log₁, ?_, ?_⟩
      · rw [hlog₁, hlog]
      · rw [hrun, runMain_eq hmain, hend]
        rfl

end Runs

/-! ### Larger budgets -/

theorem inScope_cutShort {α : Type} {i i' : Interpreter} {f : Setting → Caller → Exec α}
    (h : ∀ functions, CutShort (f (i.setting functions) (i.caller functions))
      (f (i'.setting functions) (i'.caller functions))) : CutShort (i.inScope f) (i'.inScope f) := by
  intro w
  rcases h w.functions ⟨w.scope, w.log⟩ with ⟨resource, st, hx⟩ | hx
  · exact .inl ⟨resource, ⟨w.functions, st.scope, st.log⟩, by rw [inScope, hx]⟩
  · exact .inr (by rw [inScope, inScope, hx])

/-- The order of budgets, in which both limits count. -/
instance : LE Budget := ⟨fun b b' => b.calls ≤ b'.calls ∧ b.turns ≤ b'.turns⟩

/-- The same interpreter in another budget. -/
abbrev within (i : Interpreter) (budget : Budget) : Interpreter := { i with budget }

theorem registerAll_within (i : Interpreter) (b b' : Budget) (functions : List Func) :
    (i.within b).registerAll functions = (i.within b').registerAll functions := by
  induction functions with
  | nil => rfl
  | cons func rest ih =>
    rw [registerAll, registerAll, ih]
    rfl

theorem runParts_cutShort (i : Interpreter) {b b' : Budget} (hb : b ≤ b') (p : Program) :
    CutShort ((i.within b).runParts p) ((i.within b').runParts p) := by
  have hblock : ∀ block, CutShort ((i.within b).execBlock block) ((i.within b').execBlock block) := by
    intro block
    refine inScope_cutShort fun functions => ?_
    have hcall := callWithin_cutShort (s := i.setting functions) hb.2 hb.1
    exact (cutShortCongruence (i.setting functions) hb.2).execBlock hcall block
  rw [runParts, runParts, registerAll_within i b b']
  refine (CutShort.refl _).bind fun _ => ?_
  cases p.main with
  | absent => exact .refl _
  | stmts body => exact (hblock (.stmts body)).bind fun _ => .refl _
  | main body => exact (hblock (.main body)).bind fun _ => .refl _
  | misfit node => exact (hblock (.misfit node)).bind fun _ => .refl _

/-- A run that did not end for lack of calls or turns ends in the same way in a larger budget. -/
theorem run_of_le (i : Interpreter) {b b' : Budget} (hb : b ≤ b') {p : Program} {w : World}
    (hcalls : ∀ w', (i.within b).run p w ≠ .error (.error .callDepth) w')
    (hturns : ∀ w', (i.within b).run p w ≠ .error (.exhausted .turns) w') :
    (i.within b').run p w = (i.within b).run p w := by
  rw [run, run, (runParts_cutShort i hb p).eq_of_ended]
  intro resource w' hw
  cases resource with
  | calls =>
    refine hcalls w' ?_
    rw [run, hw]
    rfl
  | turns =>
    refine hturns w' ?_
    rw [run, hw]
    rfl

end Interpreter

/-- **Adequacy.** For an interpreter that knows `print` only, whatever it traces and reports, and
for every function table, scope and output it may start from:

* a task ends in some budget with an outcome, a scope and a printed text just when the rules derive
  them;
* so does the run of a program, unless it ends because calls are nested too deeply;
* a larger budget changes nothing in what did not end for lack of the smaller one. -/
theorem interpreter_adequate (verbosity : Nat) (report : Bool) :
    (∀ (table : FunctionTable) (task : Task) (σ : Scope) (log : Log) (o : Outcome) (σ' : Scope)
      (out : Codes),
      (∃ (b : Budget) (log' : Log), log'.out = log.out ++ out ∧
        task.perform ((Interpreter.fresh verbosity report b).setting table) b.calls ⟨σ, log⟩ =
          o.ending ⟨σ', log'⟩) ↔
        Derives table task σ o σ' out) ∧
    (∀ (p : Program) (w : World) (r : Except RuntimeError Unit) (table' : FunctionTable) (σ' : Scope)
      (out : Codes), r ≠ .error .callDepth →
      ((∃ (b : Budget) (log' : Log), log'.out = w.log.out ++ out ∧
        (Interpreter.fresh verbosity report b).run p w = ending r ⟨table', σ', log'⟩) ↔
        Runs report w.functions w.scope p r table' σ' out)) ∧
    ∀ b b' : Budget, b ≤ b' →
      (∀ (table : FunctionTable) (task : Task) (st : Store),
        (∀ resource st', task.perform ((Interpreter.fresh verbosity report b).setting table) b.calls
          st ≠ .error (.exhausted resource) st') →
        task.perform ((Interpreter.fresh verbosity report b').setting table) b'.calls st =
          task.perform ((Interpreter.fresh verbosity report b).setting table) b.calls st) ∧
      ∀ (p : Program) (w : World),
        (∀ w', (Interpreter.fresh verbosity report b).run p w ≠ .error (.error .callDepth) w') →
        (∀ w', (Interpreter.fresh verbosity report b).run p w ≠ .error (.exhausted .turns) w') →
        (Interpreter.fresh verbosity report b').run p w =
          (Interpreter.fresh verbosity report b).run p w := by
  refine ⟨?_, ?_, ?_⟩
  · intro table task σ log o σ' out
    exact Task.perform_iff_derives (s := ⟨.standard, table, verbosity, 0⟩) rfl
  · intro p w r table' σ' out hr
    exact Interpreter.run_iff_runs hr
  · intro b b' hb
    refine ⟨?_, ?_⟩
    · intro table task st hended
      exact (task.perform_cutShort (s := ⟨.standard, table, verbosity, 0⟩) hb.2 hb.1).eq_of_ended
        hended
    · intro p w hcalls hturns
      exact Interpreter.run_of_le (.fresh verbosity report b) hb hcalls hturns

/-- A program with a call, a loop within it, and a `return` after the loop:
`f(n) { while (!(n == 0)) { print(n); n := n - 1; } return n; }`, and `print(f(2))` as main block. -/
def countdown : Program where
  functions := [.decl {
    name := .str "f"
    returnTag := .str "int"
    params := [.param (.str "int") (.str "n")]
    body := .stmts [
      .loop (.unary .not (.binary (.var (.str "n")) .eq (.lit (.int 0)))) (.stmts [
        .expr (.call (.str "print") [.var (.str "n")]),
        .assign (.str "n") (.binary (.var (.str "n")) .sub (.lit (.int 1)))]),
      .ret (.var (.str "n"))] }]
  main := .main [.expr (.call (.str "print") [.call (.str "f") [.lit (.int 2)]])]

/-- The countdown in the least budget that is enough for it, and in a larger one. -/
theorem interpreter_adequate_countdown :
    (∃ table, Runs false .empty .empty countdown (.ok ()) table .empty "2\n1\n0\n") ∧
      (Interpreter.fresh 0 false ⟨4, 9⟩).run countdown .empty =
        (Interpreter.fresh 0 false ⟨1, 3⟩).run countdown .empty ∧
      (Task.execAll [.ret (.lit (.int 7))]).perform
          ((Interpreter.fresh 0 false ⟨5, 5⟩).setting .empty) 5 ⟨.empty, .empty⟩ =
        (Task.execAll [.ret (.lit (.int 7))]).perform
          ((Interpreter.fresh 0 false ⟨0, 0⟩).setting .empty) 0 ⟨.empty, .empty⟩ ∧
      Derives .empty (.eval (.binary (.lit (.int 1)) .div (.lit (.int 0)))) .empty
        (.failed .zeroDivisor) .empty [] := by
  obtain ⟨table, hrun⟩ : ∃ table, (Interpreter.fresh 0 false ⟨1, 3⟩).run countdown .empty =
      .ok () ⟨table, .empty, ⟨"2\n1\n0\n", #[]⟩⟩ := ⟨_, rfl⟩
  obtain ⟨htask, hruns, hlarger⟩ := interpreter_adequate 0 false
  refine ⟨⟨table, ?_⟩, ?_, ?_, ?_⟩
  · exact (hruns countdown .empty (.ok ()) table .empty "2\n1\n0\n" nofun).mp
      ⟨⟨1, 3⟩, ⟨"2\n1\n0\n", #[]⟩, rfl, hrun⟩
  · refine (hlarger ⟨1, 3⟩ ⟨4, 9⟩ (by constructor <;> decide)).2 countdown .empty ?_ ?_
    · rw [hrun]
      nofun
    · rw [hrun]
      nofun
  · exact (hlarger ⟨0, 0⟩ ⟨5, 5⟩ (by constructor <;> decide)).1 .empty
      (.execAll [.ret (.lit (.int 7))]) ⟨.empty, .empty⟩ nofun
  · exact (htask .empty _ .empty .empty _ .empty []).mp ⟨⟨0, 0⟩, .empty, rfl, rfl⟩

end SmallImp
