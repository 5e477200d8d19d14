import SmallImp.Proofs.Budget
import SmallImp.Proofs.Lookup

/-!
# What the interpreter does, the rules derive

Every way in which a task ends, other than by running out of its budget or by a defect of the tree,
is derived by the rules.

* `Accounted` — an outcome and the text printed up to it are derived by the rules;
* `eval_accounted`, `exec_accounted`, `callWithin_accounted` — expressions, statements and calls;
* `Task.perform_accounted` — any task.
-/

namespace SmallImp

/-! ### Outcomes that the rules derive -/

/-- The rules derive that the task, from the given scope, comes to `o`, leaves the scope `σ'`, and
prints what the second log has more than the first. -/
def Accounted (table : FunctionTable) (task : Task) (σ : Scope) (log : Log) (o : Outcome) (σ' : Scope)
    (log' : Log) : Prop :=
  ∃ out, log'.out = log.out ++ out ∧ Derives table task σ o σ' out

/-- A failure is accounted for, if it is an error of the language. -/
def FailureAccounted (table : FunctionTable) (task : Task) (σ : Scope) (log : Log) (e : Failure)
    (σ' : Scope) (log' : Log) : Prop :=
  ∀ err, e = .error err → Accounted table task σ log (.failed err) σ' log'

/-- All endings of an evaluation are accounted for. -/
def EvalAccounted {α : Type} (table : FunctionTable) (task : Task) (σ : Scope) (x : Eval α)
    (outcome : α → Outcome) : Prop :=
  ∀ log, Ensures x log (fun a log' => Accounted table task σ log (outcome a) σ log')
    (fun e log' => FailureAccounted table task σ log e σ log')

/-- All endings of an execution are accounted for. -/
def ExecAccounted (table : FunctionTable) (task : Task) (x : Exec Completion) : Prop :=
  ∀ st, Ensures x st
    (fun c st' => Accounted table task st.scope st.log (.completed c) st'.scope st'.log)
    (fun e st' => FailureAccounted table task st.scope st.log e st'.scope st'.log)

/-- All endings of all calls are accounted for. -/
def CallAccounted (table : FunctionTable) (call : Caller) : Prop :=
  ∀ f args σ, EvalAccounted table (.call f args) σ (call f args) .value

section Rules

variable {table : FunctionTable} {task task₁ task₂ : Task} {σ σ' σ'' σ₀ : Scope}
variable {log log' log'' : Log} {o o₁ o₂ : Outcome} {e : Failure}

/-- A rule without output. -/
theorem Accounted.silent (h : Derives table task σ o σ' []) : Accounted table task σ log o σ' log :=
  ⟨[], (List.append_nil _).symm, h⟩

/-- A rule with one premise. -/
theorem Accounted.rule (h : Accounted table task₁ σ log o₁ σ' log')
    (rule : ∀ {out}, Derives table task₁ σ o₁ σ' out → Derives table task σ₀ o σ'' out) :
    Accounted table task σ₀ log o σ'' log' := by
  obtain ⟨out, hout, hd⟩ := h
  exact ⟨out, hout, rule hd⟩

/-- A rule with two premises, one after the other. -/
theorem Accounted.rule₂ {σ₂ σ₃ : Scope} (h₁ : Accounted table task₁ σ log o₁ σ' log')
    (h₂ : Accounted table task₂ σ'' log' o₂ σ₂ log'')
    (rule : ∀ {out₁ out₂}, Derives table task₁ σ o₁ σ' out₁ → Derives table task₂ σ'' o₂ σ₂ out₂ →
      Derives table task σ o σ₃ (out₁ ++ out₂)) :
    Accounted table task σ log o σ₃ log'' := by
  obtain ⟨out₁, hout₁, hd₁⟩ := h₁
  obtain ⟨out₂, hout₂, hd₂⟩ := h₂
  refine ⟨out₁ ++ out₂, ?_, rule hd₁ hd₂⟩
  rw [hout₂, hout₁, List.append_assoc]

/-- A failure that is none of the language needs no account. -/
theorem FailureAccounted.defect {d : Defect} :
    FailureAccounted table task σ log (.defect d) σ' log' := by
  intro err herr
  cases herr

theorem FailureAccounted.exhausted {r : Resource} :
    FailureAccounted table task σ log (.exhausted r) σ' log' := by
  intro err herr
  cases herr

/-- The failure of the first premise of a rule. -/
theorem FailureAccounted.rule (h : FailureAccounted table task₁ σ log e σ' log')
    (rule : ∀ {err out}, Derives table task₁ σ (.failed err) σ' out →
      Derives table task σ (.failed err) σ'' out) :
    FailureAccounted table task σ log e σ'' log' :=
  fun err herr => (h err herr).rule rule

/-- The failure of a later premise of a rule. -/
theorem Accounted.failure {σ₂ σ₃ : Scope} (h₁ : Accounted table task₁ σ log o₁ σ' log')
    (h₂ : FailureAccounted table task₂ σ'' log' e σ₂ log'')
    (rule : ∀ {err out₁ out₂}, Derives table task₁ σ o₁ σ' out₁ →
      Derives table task₂ σ'' (.failed err) σ₂ out₂ →
      Derives table task σ (.failed err) σ₃ (out₁ ++ out₂)) :
    FailureAccounted table task σ log e σ₃ log'' :=
  fun err herr => h₁.rule₂ (h₂ err herr) rule

/-- What is traced is not looked at. -/
theorem Accounted.of_out (h : Accounted table task σ log o σ' log') (hout : log''.out = log'.out) :
    Accounted table task σ log o σ' log'' := by
  rw [Accounted, hout]
  exact h

/-- Printing a text after what was accounted for. -/
theorem Accounted.write (h : Accounted table task σ log o σ' log') (text : Codes) :
    ∃ out, (log'.write text).out = log.out ++ (out ++ text) ∧ Derives table task σ o σ' out := by
  obtain ⟨out, hout, hd⟩ := h
  refine ⟨out, ?_, hd⟩
  show log'.out ++ text = _
  rw [hout, List.append_assoc]

end Rules

/-! ### Expressions -/

section Expressions

variable {s : Setting} {call : Caller}

theorem read_accounted (σ : Scope) (name : Name) :
    EvalAccounted s.functions (.eval (.var name)) σ (Eval.ofExcept (σ.read name)) .value := by
  intro log
  cases hk : Json.key? name with
  | none =>
    rw [Scope.read_unusable hk]
    exact FailureAccounted.defect
  | some key =>
    rw [Scope.read_eq hk]
    cases hb : σ.find? key with
    | some b => exact .silent (.var hk hb)
    | none =>
      rintro err ⟨rfl⟩
      exact .silent (.unbound hk hb)

-- The induction is on the expression. Each premise of a rule is an evaluation that ended before the
-- next one began, so the texts they printed follow each other.
mutual

theorem eval_accounted (hs : s.builtins = .standard) (hcall : CallAccounted s.functions call)
    (σ : Scope) : ∀ e : Expr, EvalAccounted s.functions (.eval e) σ (eval s call σ e) .value
  | .lit value => fun log => Accounted.silent .lit
  | .var name => read_accounted σ name
  | .binary left op right => by
    intro log
    refine (eval_accounted hs hcall σ left log).bind (fun e log' h => h.rule .binaryLeft) ?_
    intro a log₁ ha
    refine (eval_accounted hs hcall σ right log₁).bind
      (fun e log' h => ha.failure h .binaryRight) ?_
    intro b log₂ hb
    refine .ofExcept (fun v hv => ?_) (fun e he err herr => ?_)
    · exact ha.rule₂ hb fun h₁ h₂ => .binary h₁ h₂ (.of_ok hv)
    · subst herr
      exact ha.rule₂ hb fun h₁ h₂ => .binaryFails h₁ h₂ (.of_error he)
  | .unary op operand => by
    intro log
    refine (eval_accounted hs hcall σ operand log).bind (fun e log' h => h.rule .unaryOperand) ?_
    intro a log₁ ha
    refine .ofExcept (fun v hv => ?_) (fun e he err herr => ?_)
    · exact ha.rule fun h => .unary h (.of_ok hv)
    · subst herr
      exact ha.rule fun h => .unaryFails h (.of_error he)
  | .call name args => by
    intro log
    show Ensures (Eval.ofExcept (s.callee name args.length) >>= _) log _ _
    by_cases hn : name = .str "print"
    · subst hn
      rw [callee_print hs]
      exact (printAll_accounted hs hcall σ args log).weaken (fun v log' h => h.rule .callPrint)
        (fun e log' h => h.rule .callPrint)
    cases hk : Json.key? name with
    | none =>
      rw [callee_unusable hk]
      exact FailureAccounted.defect
    | some key =>
      rw [callee_function hs hn hk]
      rcases hf : s.functions.find? key with _ | ⟨first, func⟩
      · rintro err ⟨rfl⟩
        exact .silent (.callUnknown hn hk hf)
      · cases func with
        | misfit node => exact FailureAccounted.defect
        | decl f =>
          by_cases hl : args.length = f.params.length
          · simp only [hl, if_true]
            refine (evalAll_accounted hs hcall σ args log).bind
              (fun e log' h => h.rule fun h => .callArgs hn hk hf hl h) ?_
            intro vs log₁ hvs
            refine Ensures.bindEvalNote fun log₂ hlog₂ => ?_
            have hvs := hvs.of_out hlog₂
            exact (hcall f vs σ log₂).weaken
              (fun v log' h => hvs.rule₂ h fun h₁ h₂ => .call hn hk hf hl h₁ h₂)
              (fun e log' h => hvs.failure h fun h₁ h₂ => .call hn hk hf hl h₁ h₂)
          · simp only [hl, if_false]
            rintro err ⟨rfl⟩
            exact .silent (.callArity hn hk hf hl)
  | .misfit node => fun log => FailureAccounted.defect

theorem evalAll_accounted (hs : s.builtins = .standard) (hcall : CallAccounted s.functions call)
    (σ : Scope) : ∀ args : List Expr,
      EvalAccounted s.functions (.evalAll args) σ (evalAll s call σ args) .values
  | [] => fun log => Accounted.silent .argsNil
  | e :: rest => by
    intro log
    refine (eval_accounted hs hcall σ e log).bind (fun e log' h => h.rule .argsHead) ?_
    intro v log₁ hv
    refine (evalAll_accounted hs hcall σ rest log₁).bind
      (fun e log' h => hv.failure h .argsTail) ?_
    intro vs log₂ hvs
    exact hv.rule₂ hvs .argsCons

theorem printAll_accounted (hs : s.builtins = .standard) (hcall : CallAccounted s.functions call)
    (σ : Scope) : ∀ args : List Expr,
      EvalAccounted s.functions (.print args) σ (printAll s call σ args) .value
  | [] => fun log => ⟨"\n", rfl, .printNone⟩
  | [e] => by
    intro log
    refine (eval_accounted hs hcall σ e log).bind (fun e log' h => h.rule .printFails) ?_
    intro v log₁ hv
    show Accounted _ _ _ log _ _ ((log₁.write v.display).write "\n")
    obtain ⟨out, hout, hd⟩ := hv.write v.display
    refine ⟨out ++ v.display ++ "\n", ?_, .printLast hd⟩
    show (log₁.write v.display).out ++ "\n" = _
    rw [hout, List.append_assoc]
  | e :: next :: rest => by
    intro log
    refine (eval_accounted hs hcall σ e log).bind (fun e log' h => h.rule .printFails) ?_
    intro v log₁ hv
    obtain ⟨out, hout, hd⟩ := hv.write v.display
    -- the rest is printed after the value and a blank
    have hstart : ((log₁.write v.display).write " ").out = log.out ++ (out ++ v.display ++ " ") := by
      show (log₁.write v.display).out ++ " " = _
      rw [hout, List.append_assoc]
    refine (printAll_accounted hs hcall σ (next :: rest) ((log₁.write v.display).write " ")).weaken
      ?_ ?_
    · rintro v' log' ⟨out', hout', hd'⟩
      refine ⟨out ++ v.display ++ " " ++ out', ?_, .printMore hd hd'⟩
      rw [hout', hstart, List.append_assoc]
    · intro e log' h err herr
      obtain ⟨out', hout', hd'⟩ := h err herr
      refine ⟨out ++ v.display ++ " " ++ out', ?_, .printMore hd hd'⟩
      rw [hout', hstart, List.append_assoc]

end

end Expressions

/-! ### Statements -/

section Statements

variable {s : Setting} {call : Caller}

theorem Value.condition_noTruth (statement : String) {v : Value} (h : ∀ b, v ≠ .bool b) :
    v.condition statement = .error (.error (.condition statement v.typeName)) := by
  cases v with
  | bool b => exact absurd rfl (h b)
  | _ => rfl

/-- All endings of a condition: it gives a truth value that the rules derive, its evaluation fails
as they say, or its value is no truth value. The scope stays. -/
def ConditionAccounted (table : FunctionTable) (statement : String) (test : Expr) (x : Exec Bool) :
    Prop :=
  ∀ st, Ensures x st
    (fun b st' => st'.scope = st.scope ∧
      Accounted table (.eval test) st.scope st.log (.value (.bool b)) st.scope st'.log)
    (fun e st' => st'.scope = st.scope ∧
      (FailureAccounted table (.eval test) st.scope st.log e st.scope st'.log ∨
        ∃ v, (∀ b, v ≠ .bool b) ∧ e = .error (.condition statement v.typeName) ∧
          Accounted table (.eval test) st.scope st.log (.value v) st.scope st'.log))

theorem condition_accounted (hs : s.builtins = .standard) (hcall : CallAccounted s.functions call)
    (statement : String) (test : Expr) :
    ConditionAccounted s.functions statement test (condition s call statement test) := by
  intro st
  refine Ensures.bindEval (eval_accounted hs hcall st.scope test st.log)
    (fun e log h => ⟨rfl, .inl h⟩) ?_
  intro v log hv
  by_cases hb : ∃ b, v = .bool b
  · obtain ⟨b, rfl⟩ := hb
    exact Ensures.bindNote fun log' hlog' => ⟨rfl, hv.of_out hlog'⟩
  · have hb := not_exists.mp hb
    show Ensures (Exec.ofEval (fun _ => Eval.ofExcept (v.condition statement)) >>= _) _ _ _
    rw [Value.condition_noTruth statement hb]
    exact ⟨rfl, .inr ⟨v, hb, rfl, hv⟩⟩

/-- All endings of a block are those of its statements. -/
def BlockAccounted (table : FunctionTable) (block : Block) (x : Exec Completion) : Prop :=
  ∀ st, Ensures x st
    (fun c st' => ∃ body, block.statements? = some body ∧
      Accounted table (.execAll body) st.scope st.log (.completed c) st'.scope st'.log)
    (fun e st' => ∀ err, e = .error err → ∃ body, block.statements? = some body ∧
      Accounted table (.execAll body) st.scope st.log (.failed err) st'.scope st'.log)

/-- All endings of a turn of a loop. A turn that goes on is the beginning of a longer loop: whatever
the loop comes to from there, it comes to from here. -/
def TurnAccounted (table : FunctionTable) (test : Expr) (block : Block)
    (turn : Exec (Option Completion)) : Prop :=
  ∀ st, Ensures turn st
    (fun next st' =>
      match next with
      | some c =>
        Accounted table (.exec (.loop test block)) st.scope st.log (.completed c) st'.scope st'.log
      | none => ∃ out, st'.log.out = st.log.out ++ out ∧ ∀ {o σ'' out'},
        Derives table (.exec (.loop test block)) st'.scope o σ'' out' →
          Derives table (.exec (.loop test block)) st.scope o σ'' (out ++ out'))
    (fun e st' =>
      FailureAccounted table (.exec (.loop test block)) st.scope st.log e st'.scope st'.log)

theorem loopTurn_accounted {table : FunctionTable} {test : Expr} {block : Block} {x : Exec Bool}
    {y : Exec Completion} (hx : ConditionAccounted table "while" test x)
    (hy : BlockAccounted table block y) : TurnAccounted table test block (loopTurn x y) := by
  intro st
  refine (hx st).bind ?_ ?_
  · rintro e ⟨σ', log'⟩ ⟨rfl, he | ⟨v, hv, rfl, ha⟩⟩
    · exact he.rule .loopFails
    · rintro err ⟨rfl⟩
      exact ha.rule fun h => .loopNoTruth h hv
  · rintro holds ⟨σ', log'⟩ ⟨rfl, ht⟩
    cases holds with
    | false => exact ht.rule .loopEnds
    | true =>
      refine (hy ⟨st.scope, log'⟩).bind ?_ ?_
      · intro e st' he err herr
        obtain ⟨body, hbody, hb⟩ := he err herr
        exact ht.rule₂ hb fun h₁ h₂ => .loopStops h₁ hbody h₂ nofun
      · rintro c st' ⟨body, hbody, hb⟩
        cases c with
        | returned v => exact ht.rule₂ hb fun h₁ h₂ => .loopStops h₁ hbody h₂ nofun
        | normal =>
          obtain ⟨out₁, hout₁, h₁⟩ := ht
          obtain ⟨out₂, hout₂, h₂⟩ := hb
          refine ⟨out₁ ++ out₂, ?_, fun h₃ => .loopAgain h₁ hbody h₂ h₃⟩
          rw [hout₂, hout₁, List.append_assoc]

/-- The turns of a loop, by induction on how many it may take. -/
theorem repeatTurns_accounted {table : FunctionTable} {test : Expr} {block : Block}
    {turn : Exec (Option Completion)} (hturn : TurnAccounted table test block turn) :
    ∀ turns, ExecAccounted table (.exec (.loop test block)) (repeatTurns turn turns) := by
  intro turns
  induction turns with
  | zero =>
    intro st
    exact FailureAccounted.exhausted
  | succ turns ih =>
    intro st
    refine (hturn st).bind (fun e st' h => h) ?_
    intro next st' hnext
    cases next with
    | some c => exact hnext
    | none =>
      obtain ⟨out, hout, hagain⟩ := hnext
      refine (ih st').weaken ?_ ?_
      · rintro c st'' ⟨out', hout', h⟩
        refine ⟨out ++ out', ?_, hagain h⟩
        rw [hout', hout, List.append_assoc]
      · intro e st'' he err herr
        obtain ⟨out', hout', h⟩ := he err herr
        refine ⟨out ++ out', ?_, hagain h⟩
        rw [hout', hout, List.append_assoc]

theorem startValue_accounted (hs : s.builtins = .standard) (hcall : CallAccounted s.functions call)
    (tag : TypeTag) (name : Name) (start : Option Expr) (st : Store) :
    Ensures (startValue s call st.scope start) st.log
      (fun v log => ∀ {σ'}, st.scope.declare tag name v = .ok σ' →
        Accounted s.functions (.exec (.declare tag name start)) st.scope st.log
          (.completed .normal) σ' log)
      (fun e log => FailureAccounted s.functions (.exec (.declare tag name start)) st.scope st.log e
        st.scope log) := by
  cases start with
  | none => exact fun hd => .silent (.declareBare hd)
  | some e =>
    exact (eval_accounted hs hcall st.scope e st.log).weaken
      (fun v log hv _ hd => hv.rule fun h => .declare h hd) (fun e log he => he.rule .declareFails)

/-- The block of an `else`, unless it is missing, is a block like any other. -/
theorem execElse_eq_execBlock {block : Block} (h : block ≠ .absent) :
    execElse s call block = execBlock s call block := by
  cases block with
  | absent => exact absurd rfl h
  | _ => rfl

mutual

theorem exec_accounted (hs : s.builtins = .standard) (hcall : CallAccounted s.functions call) :
    ∀ stmt : Stmt, ExecAccounted s.functions (.exec stmt) (exec s call stmt)
  | .declare tag name start => by
    intro st
    refine Ensures.bindEval (startValue_accounted hs hcall tag name start st) (fun e log he => he) ?_
    intro v log hv
    refine Ensures.bindUpdate (fun σ' hd => ?_) (fun e he => ?_)
    · exact Ensures.bindNote fun log₂ hlog₂ => (hv hd).of_out hlog₂
    · obtain ⟨d, rfl⟩ := Scope.declare_error he
      exact FailureAccounted.defect
  | .assign name e => by
    intro st
    refine Ensures.bindEval (eval_accounted hs hcall st.scope e st.log)
      (fun e log he => he.rule .assignFails) ?_
    intro v log hv
    refine Ensures.bindUpdate (fun σ' ha => ?_) (fun e he err herr => ?_)
    · refine Ensures.bindNote fun log₂ hlog₂ => ?_
      exact (hv.rule fun h => .assign h ha).of_out hlog₂
    · subst herr
      obtain ⟨key, hk, hb, rfl⟩ := Scope.assign_error he
      exact hv.rule fun h => .assignUnbound h hk hb
  | .branch test yes no => by
    intro st
    refine (condition_accounted hs hcall "if" test st).bind ?_ ?_
    · rintro e ⟨σ', log'⟩ ⟨rfl, he | ⟨v, hv, rfl, ha⟩⟩
      · exact he.rule .branchFails
      · rintro err ⟨rfl⟩
        exact ha.rule fun h => .branchNoTruth h hv
    · rintro holds ⟨σ', log'⟩ ⟨rfl, ht⟩
      cases holds with
      | true =>
        refine (execBlock_accounted hs hcall yes ⟨st.scope, log'⟩).weaken ?_ ?_
        · rintro c st' ⟨body, hbody, hb⟩
          exact ht.rule₂ hb fun h₁ h₂ => .branchYes h₁ hbody h₂
        · intro e st' he err herr
          obtain ⟨body, hbody, hb⟩ := he err herr
          exact ht.rule₂ hb fun h₁ h₂ => .branchYes h₁ hbody h₂
      | false =>
        by_cases hno : no = .absent
        · subst hno
          exact ht.rule .branchNone
        · show Ensures (execElse s call no) ⟨st.scope, log'⟩ _ _
          rw [execElse_eq_execBlock hno]
          refine (execBlock_accounted hs hcall no ⟨st.scope, log'⟩).weaken ?_ ?_
          · rintro c st' ⟨body, hbody, hb⟩
            exact ht.rule₂ hb fun h₁ h₂ => .branchNo h₁ hbody h₂
          · intro e st' he err herr
            obtain ⟨body, hbody, hb⟩ := he err herr
            exact ht.rule₂ hb fun h₁ h₂ => .branchNo h₁ hbody h₂
  | .loop test body =>
    repeatTurns_accounted (loopTurn_accounted (condition_accounted hs hcall "while" test)
      (execBlock_accounted hs hcall body)) s.turns
  | .ret e => by
    intro st
    refine Ensures.bindEval (eval_accounted hs hcall st.scope e st.log)
      (fun e log he => he.rule .retFails) ?_
    intro v log hv
    exact Ensures.bindNote fun log₂ hlog₂ => (hv.rule .ret).of_out hlog₂
  | .expr e => by
    intro st
    refine Ensures.bindEval (eval_accounted hs hcall st.scope e st.log)
      (fun e log he => he.rule .exprFails) ?_
    intro v log hv
    exact hv.rule .expr
  | .block body => by
    intro st
    exact (execAll_accounted hs hcall body st).weaken (fun c st' h => h.rule .block)
      (fun e st' h => h.rule .block)
  | .misfit node => fun st => FailureAccounted.defect

theorem execBlock_accounted (hs : s.builtins = .standard) (hcall : CallAccounted s.functions call) :
    ∀ block : Block, BlockAccounted s.functions block (execBlock s call block)
  | .stmts body => by
    intro st
    exact (execAll_accounted hs hcall body st).weaken (fun c st' h => ⟨body, rfl, h⟩)
      (fun e st' h err herr => ⟨body, rfl, h err herr⟩)
  | .main body => by
    intro st
    exact (execAll_accounted hs hcall body st).weaken (fun c st' h => ⟨body, rfl, h⟩)
      (fun e st' h err herr => ⟨body, rfl, h err herr⟩)
  | .absent => fun st err herr => nomatch herr
  | .misfit _ => fun st err herr => nomatch herr

theorem execAll_accounted (hs : s.builtins = .standard) (hcall : CallAccounted s.functions call) :
    ∀ body : List Stmt, ExecAccounted s.functions (.execAll body) (execAll s call body)
  | [] => fun st => Accounted.silent .seqNil
  | stmt :: rest => by
    intro st
    refine (exec_accounted hs hcall stmt st).bind (fun e st' h => h.rule fun h => .seqStops h nofun) ?_
    intro c st' hc
    cases c with
    | returned v => exact hc.rule fun h => .seqStops h nofun
    | normal =>
      exact (execAll_accounted hs hcall rest st').weaken (fun c st'' h => hc.rule₂ h .seqNext)
        (fun e st'' h => hc.failure h .seqNext)

end

end Statements

/-! ### Calls and tasks -/

/-- A call runs the body of the function in a scope of its own, which is forgotten. -/
theorem callWith_accounted {s : Setting} {call : Caller} (hs : s.builtins = .standard)
    (hcall : CallAccounted s.functions call)
    (f : FuncDecl) (args : List Value) (σ : Scope) :
    EvalAccounted s.functions (.call f args) σ (callWith s call f args) .value := by
  intro log
  show Ensures (Eval.ofExcept (bindParams .empty f.params args) >>= fun frame =>
    runBody s call f frame) log _ _
  cases hb : bindParams .empty f.params args with
  | error e =>
    obtain ⟨d, rfl⟩ := bindParams_error hb
    exact FailureAccounted.defect
  | ok frame =>
    have hframe := bindParams_iff.mp hb
    have hbody := execBlock_accounted hs hcall f.body ⟨frame, log⟩
    show Ensures (runBody s call f frame) log _ _
    rw [Ensures, runBody]
    cases hx : execBlock s call f.body ⟨frame, log⟩ with
    | ok c st =>
      obtain ⟨body, hstmts, ha⟩ := hbody.ok hx
      cases c with
      | returned v => exact ha.rule fun h => .returns hframe hstmts h
      | normal =>
        rintro err ⟨rfl⟩
        exact ha.rule fun h => .noReturn hframe hstmts h
    | error e st =>
      intro err herr
      obtain ⟨body, hstmts, ha⟩ := hbody.error hx err herr
      exact ha.rule fun h => .bodyFails hframe hstmts h

/-- Calls of any depth, by induction on the depth. -/
theorem callWithin_accounted {s : Setting} (hs : s.builtins = .standard) (depth : Nat) :
    CallAccounted s.functions (callWithin s depth) := by
  induction depth with
  | zero => exact fun f args σ log => FailureAccounted.exhausted
  | succ depth ih => exact callWith_accounted hs ih

/-- **What the interpreter does, the rules derive.** -/
theorem Task.perform_accounted {s : Setting} (hs : s.builtins = .standard) (depth : Nat)
    (task : Task) (st : Store) :
    Ensures (task.perform s depth) st
      (fun o st' => Accounted s.functions task st.scope st.log o st'.scope st'.log)
      (fun e st' => FailureAccounted s.functions task st.scope st.log e st'.scope st'.log) := by
  have hcall := callWithin_accounted hs depth
  cases task with
  | eval e =>
    exact .map (.ofEval (eval_accounted hs hcall st.scope e st.log) (fun v log h => h)
      (fun e log h => h)) (fun v st' h => h)
  | evalAll args =>
    exact .map (.ofEval (evalAll_accounted hs hcall st.scope args st.log) (fun v log h => h)
      (fun e log h => h)) (fun v st' h => h)
  | print args =>
    exact .map (.ofEval (printAll_accounted hs hcall st.scope args st.log) (fun v log h => h)
      (fun e log h => h)) (fun v st' h => h)
  | call f args =>
    exact .map (.ofEval (hcall f args st.scope st.log) (fun v log h => h)
      (fun e log h => h)) (fun v st' h => h)
  | exec stmt => exact .map (exec_accounted hs hcall stmt st) (fun c st' h => h)
  | execAll body => exact .map (execAll_accounted hs hcall body st) (fun c st' h => h)

end SmallImp
