import SmallImp.Proofs.InStep
import SmallImp.Proofs.Rules

/-!
# Splitting a main block over two runs

A list of statements can be cut anywhere: the second part goes on where the first part stopped, unless
that returned or failed, and then nothing of the second part is executed. Since nothing depends on what
was printed before, the second part may as well be a run of its own, and the outputs of the two runs
together are the output of the single one.

* `execAll_append` — statements in two parts;
* `Interpreter.completion` — how the statements of a main block complete;
* `Log.after`, `World.after` — an output that follows an earlier one;
* `Interpreter.run_after` — a run after earlier output;
* `Interpreter.split_runs` — a main block in one run and in two.
-/

namespace SmallImp

/-! ### Statements in two parts -/

/-- Goes on with a computation, unless the one before it returned. -/
def Completion.andThen {σ : Type} (next : EStateM Failure σ Completion) :
    Completion → EStateM Failure σ Completion
  | .normal => next
  | .returned value => pure (.returned value)

theorem execAll_cons (s : Setting) (call : Caller) (stmt : Stmt) (rest : List Stmt) :
    execAll s call (stmt :: rest) = exec s call stmt >>= Completion.andThen (execAll s call rest) := by
  rw [execAll]
  refine congrArg (bind _) (funext fun c => ?_)
  cases c with
  | normal => rfl
  | returned value => rfl

theorem Completion.andThen_andThen {σ : Type} (x y : EStateM Failure σ Completion) (c : Completion) :
    c.andThen (x >>= Completion.andThen y) = c.andThen x >>= Completion.andThen y := by
  cases c with
  | normal => rfl
  | returned value => rfl

theorem execAll_append (s : Setting) (call : Caller) (front back : List Stmt) :
    execAll s call (front ++ back) =
      execAll s call front >>= Completion.andThen (execAll s call back) := by
  induction front with
  | nil => rfl
  | cons stmt rest ih =>
    rw [List.cons_append, execAll_cons, execAll_cons, ih, bind_assoc]
    exact congrArg (bind _) (funext fun c => c.andThen_andThen _ _)

namespace Interpreter

variable {i : Interpreter} {functions : List Func} {body : List Stmt} {w w' : World}

/-- Two executions in the top-level scope, one after the other. -/
theorem inScope_bind {α β : Type} (f : Setting → Caller → Exec α) (g : Setting → Caller → α → Exec β) :
    i.inScope (fun s call => f s call >>= g s call) =
      i.inScope f >>= fun a => i.inScope fun s call => g s call a := by
  funext w
  cases h : f (i.setting w.functions) (i.caller w.functions) ⟨w.scope, w.log⟩ with
  | ok a st =>
    have hf : i.inScope f w = .ok a ⟨w.functions, st.scope, st.log⟩ := by rw [inScope, h]
    rw [bind_of_ok hf, inScope, inScope, bind_of_ok h]
  | error e st =>
    have hf : i.inScope f w = .error e ⟨w.functions, st.scope, st.log⟩ := by rw [inScope, h]
    rw [bind_of_error hf, inScope, bind_of_error h]

/-- How the statements of a main block complete, once the functions have been registered. -/
def completion (i : Interpreter) (functions : List Func) (body : List Stmt) : Run Completion := do
  i.registerAll functions
  i.execBlock (.main body)

/-- The functions are registered before the first part, and none before the second. -/
theorem completion_append (i : Interpreter) (functions : List Func) (front back : List Stmt) :
    i.completion functions (front ++ back) =
      i.completion functions front >>= Completion.andThen (i.completion [] back) := by
  have hblock : i.execBlock (.main (front ++ back)) =
      i.execBlock (.main front) >>= Completion.andThen (i.execBlock (.main back)) := by
    simp only [execBlock, SmallImp.execBlock, execAll_append]
    rw [inScope_bind]
    refine congrArg (bind _) (funext fun c => ?_)
    cases c with
    | normal => rfl
    | returned value => rfl
  rw [completion, completion, hblock, bind_assoc]
  rfl

theorem runParts_main (i : Interpreter) (functions : List Func) (body : List Stmt) :
    i.runParts ⟨functions, .main body⟩ =
      i.completion functions body >>= fun _ => if i.report then reportState .free else pure () := by
  rw [completion, bind_assoc]
  rfl

theorem run_of_completed (hreport : i.report = false) {c : Completion}
    (h : i.completion functions body w = .ok c w') :
    i.run ⟨functions, .main body⟩ w = .ok () w' := by
  rw [run, runParts_main, bind_of_ok h, hreport]
  rfl

theorem run_of_failed {e : Failure} (h : i.completion functions body w = .error e w') :
    i.run ⟨functions, .main body⟩ w = .error (runFailure e) w' := by
  rw [run, runParts_main, bind_of_error h]

end Interpreter

/-! ### Earlier output -/

/-- An output that follows an earlier one. -/
def Log.after (log before : Log) : Log := ⟨before.out ++ log.out, before.trace ++ log.trace⟩

theorem Log.after_empty (log : Log) : Log.empty.after log = log := by
  simp [Log.after, Log.empty]

theorem Log.kept_after (d : Nat) (before : Log) :
    Log.Kept d d (fun log log' => log' = log.after before) where
  write := by
    rintro log _ rfl text
    simp only [Log.after, Log.write, List.append_assoc]
  note := by
    rintro log _ rfl level - line
    rw [Log.noteAt, Log.noteAt]
    split
    · simp only [Log.after, Log.note, Array.push_eq_append, Array.append_assoc]
    · rfl

/-- A world whose output follows an earlier one. -/
def World.after (w : World) (before : Log) : World := { w with log := w.log.after before }

/-- A run does not depend on earlier output, and adds to it. -/
theorem Interpreter.run_after (i : Interpreter) (p : Program) (w : World) (before : Log) :
    SameEnding (fun w₁ w₂ => w₂ = w₁.after before) (i.run p w) (i.run p (w.after before)) := by
  have hend := run_linked (Log.kept_after i.verbosity before) p w (w.after before) ⟨rfl, rfl, rfl⟩
  refine hend.mono ?_
  rintro ⟨functions, scope, log⟩ ⟨_, _, _⟩ ⟨⟨rfl⟩, ⟨rfl⟩, ⟨rfl⟩⟩
  rfl

/-! ### One run and two -/

namespace Interpreter

variable {i : Interpreter} {functions : List Func} {front back : List Stmt} {w w' : World}

/-- If the first part completes normally, the second part is a run from where it stopped. -/
theorem run_append_of_normal (hreport : i.report = false)
    (h : i.completion functions front w = .ok .normal w') :
    i.run ⟨functions, .main (front ++ back)⟩ w = i.run ⟨[], .main back⟩ w' := by
  have happend : i.completion functions (front ++ back) w = i.completion [] back w' := by
    rw [completion_append, bind_of_ok h]
    rfl
  cases hback : i.completion [] back w' with
  | ok c w₂ =>
    rw [run_of_completed hreport hback, run_of_completed hreport (happend.trans hback)]
  | error e w₂ => rw [run_of_failed hback, run_of_failed (happend.trans hback)]

/-- If the first part returns, the second part is not executed. -/
theorem run_append_of_returned (hreport : i.report = false) {value : Value}
    (h : i.completion functions front w = .ok (.returned value) w') :
    i.run ⟨functions, .main (front ++ back)⟩ w = .ok () w' := by
  refine run_of_completed hreport (c := .returned value) ?_
  rw [completion_append, bind_of_ok h]
  rfl

/-- If the first part fails, the second part is not executed. -/
theorem run_append_of_failed {e : Failure} (h : i.completion functions front w = .error e w') :
    i.run ⟨functions, .main (front ++ back)⟩ w = .error (runFailure e) w' := by
  refine run_of_failed ?_
  rw [completion_append, bind_of_error h]

/-- **A main block in one run and in two.** Suppose that nothing is reported. If the first part of the
main block completes normally, a second run with the other part, on the functions and variables that
the first run left, ends as a single run of both parts does, with the same functions and variables, and
the outputs of the two runs together are that of the single one. If the first part returns or fails,
the single run is the run of the first part. -/
theorem split_runs (i : Interpreter) (hreport : i.report = false) (functions : List Func)
    (front back : List Stmt) (w : World) :
    (∀ w₁, i.run ⟨functions, .main front⟩ w = .ok () w₁ →
      ∃ c, i.completion functions front w = .ok c w₁ ∧
        (c = .normal → SameEnding (fun w₂ w₃ => w₃ = w₂.after w₁.log)
          (i.run ⟨[], .main back⟩ { w₁ with log := .empty })
          (i.run ⟨functions, .main (front ++ back)⟩ w)) ∧
        (c ≠ .normal → i.run ⟨functions, .main (front ++ back)⟩ w = .ok () w₁)) ∧
    ∀ e w₁, i.run ⟨functions, .main front⟩ w = .error e w₁ →
      i.run ⟨functions, .main (front ++ back)⟩ w = .error e w₁ := by
  cases hc : i.completion functions front w with
  | ok c w₁ =>
    rw [run_of_completed hreport hc]
    refine ⟨?_, fun e w₂ h => (by cases h)⟩
    rintro _ ⟨⟩
    refine ⟨c, rfl, ?_, ?_⟩
    · rintro rfl
      rw [run_append_of_normal hreport hc]
      have hafter := run_after i ⟨[], .main back⟩ { w₁ with log := .empty } w₁.log
      rwa [World.after, Log.after_empty] at hafter
    · intro hne
      cases c with
      | normal => exact absurd rfl hne
      | returned value => exact run_append_of_returned hreport hc
  | error e w₁ =>
    rw [run_of_failed hc]
    refine ⟨fun w₂ h => (by cases h), ?_⟩
    rintro _ _ ⟨⟩
    exact run_append_of_failed hc

/-- `f() -> int { return 7; }` -/
def constantSeven : Func :=
  .decl ⟨.str "f", .str "int", [], .stmts [.ret (.lit (.int 7))]⟩

/-- `int x = f(); print(x);` -/
def declareSeven : List Stmt :=
  [.declare (.str "int") (.str "x") (some (.call (.str "f") [])),
    .expr (.call (.str "print") [.var (.str "x")])]

/-- `if (true) { return 1; }` -/
def returnWithin : List Stmt := [.branch (.lit (.bool true)) (.stmts [.ret (.lit (.int 1))]) .absent]

/-- `print(x); y = 1;` prints and then fails. -/
def printAndFail : List Stmt :=
  [.expr (.call (.str "print") [.var (.str "x")]), .assign (.str "y") (.lit (.int 1))]

/-- What `f` and `declareSeven` leave. -/
def sevenDeclared : World :=
  ⟨FunctionTable.define .empty (.str "f") (.str "f") constantSeven,
    ⟨[(.str "x", ⟨.str "x", .str "int", .int 7⟩)]⟩, ⟨"7\n", #[]⟩⟩

/-- The second run prints and fails, and so does the single run, with all that was printed. After a
`return` within a branch nothing is printed and nothing fails. -/
theorem split_runs_printAndFail :
    (fresh 0 false ⟨5, 5⟩).run ⟨[constantSeven], .main declareSeven⟩ .empty = .ok () sevenDeclared ∧
    (fresh 0 false ⟨5, 5⟩).run ⟨[], .main printAndFail⟩ { sevenDeclared with log := .empty } =
      .error (.error (.unbound (.str "y"))) sevenDeclared ∧
    (fresh 0 false ⟨5, 5⟩).run ⟨[constantSeven], .main (declareSeven ++ printAndFail)⟩ .empty =
      .error (.error (.unbound (.str "y"))) { sevenDeclared with log := ⟨"7\n7\n", #[]⟩ } ∧
    (fresh 0 false ⟨5, 5⟩).run ⟨[], .main (returnWithin ++ printAndFail)⟩ .empty = .ok () .empty := by
  have hfirst : (fresh 0 false ⟨5, 5⟩).run ⟨[constantSeven], .main declareSeven⟩ .empty =
    .ok () sevenDeclared := rfl
  have hsecond : (fresh 0 false ⟨5, 5⟩).run ⟨[], .main printAndFail⟩
    { sevenDeclared with log := .empty } = .error (.error (.unbound (.str "y"))) sevenDeclared := rfl
  refine ⟨hfirst, hsecond, ?_, ?_⟩
  · obtain ⟨c, hc, hnormal, -⟩ :=
      (split_runs (fresh 0 false ⟨5, 5⟩) rfl [constantSeven] declareSeven printAndFail .empty).1 _ hfirst
    have hend := hnormal (EStateM.Result.ok.inj hc).1.symm
    rw [hsecond] at hend
    generalize (fresh 0 false ⟨5, 5⟩).run
      ⟨[constantSeven], .main (declareSeven ++ printAndFail)⟩ .empty = r at hend ⊢
    cases hend with
    | error h => rw [h]; rfl
  · obtain ⟨c, hc, -, hreturned⟩ :=
      (split_runs (fresh 0 false ⟨5, 5⟩) rfl [] returnWithin printAndFail .empty).1 .empty rfl
    refine hreturned fun hn => ?_
    rw [hn] at hc
    cases hc

end Interpreter

end SmallImp
