import SmallImp.Proofs.FailurePoints

/-!
# Bodies that return

Whether the statements of a function return on every path can be read off them: they do if there is a
`return` among them, or a branch that returns on both sides, or a loop that is never left. If this holds
of every registered function, then no call misses a `return`.

* `Stmt.closes`, `Block.closed`, `Stmt.someCloses` — statements after which nothing is executed;
* `execAll_closed` — such statements are never completed normally;
* `FunctionTable.Closed`, `Fails.kind_ne_missingReturn` — calls of functions that are all closed;
* `closed_bodies_return` — whole runs.
-/

namespace SmallImp

/-! ### Closed statements -/

mutual

/-- Nothing is executed after the statement: it is a `return`, a branch whose two blocks are closed, or
a loop whose condition is the literal `true`. -/
def Stmt.closes : Stmt → Bool
  | .ret _ => true
  | .branch _ yes no => Block.closed yes && Block.closed no
  | .loop (.lit (.bool true)) _ => true
  | _ => false

/-- A block with a statement after which nothing is executed. -/
def Block.closed : Block → Bool
  | .stmts body => Stmt.someCloses body
  | .main body => Stmt.someCloses body
  | _ => false

/-- Statements among which is one after which nothing is executed. -/
def Stmt.someCloses : List Stmt → Bool
  | [] => false
  | stmt :: rest => Stmt.closes stmt || Stmt.someCloses rest

end

theorem Block.closed_eq {block : Block} {body : List Stmt} (h : block.statements? = some body) :
    block.closed = Stmt.someCloses body := by
  cases block <;> cases h <;> rfl

/-- The execution never completes normally: it returns, fails, or runs out of its budget. -/
def NeverNormal (x : Exec Completion) : Prop :=
  ∀ st, Ensures x st (fun c _ => c ≠ .normal) (fun _ _ => True)

variable {s : Setting} {call : Caller}

/-- A loop none of whose turns completes it normally. -/
theorem repeatTurns_neverNormal {turn : Exec (Option Completion)}
    (hturn : ∀ st, Ensures turn st (fun next _ => next ≠ some .normal) (fun _ _ => True)) :
    ∀ turns, NeverNormal (repeatTurns turn turns) := by
  intro turns
  induction turns with
  | zero => exact fun _ => trivial
  | succ turns ih =>
    intro st
    refine (hturn st).bind (fun _ _ h => h) fun next st' hnext => ?_
    cases next with
    | some c => exact fun hc => hnext (congrArg some hc)
    | none => exact ih st'

/-- The literal `true` is a condition that holds. -/
theorem condition_true (statement : String) (st : Store) :
    Ensures (condition s call statement (.lit (.bool true))) st (fun holds _ => holds = true)
      (fun _ _ => True) :=
  .bindNote fun _ _ => rfl

/-- A turn of a loop whose condition always holds does not complete the loop normally. -/
theorem loopTurn_neverNormal {test : Exec Bool} (body : Exec Completion)
    (htest : ∀ st, Ensures test st (fun holds _ => holds = true) (fun _ _ => True)) (st : Store) :
    Ensures (loopTurn test body) st (fun next _ => next ≠ some .normal) (fun _ _ => True) := by
  refine (htest st).bind (fun _ _ h => h) ?_
  rintro _ st' rfl
  refine .steps (fun _ _ _ => trivial) fun c st'' _ => ?_
  cases c with
  | normal => exact fun h => nomatch h
  | returned v => exact fun h => nomatch h

-- The cases that are missing are those of statements that close nothing.
mutual

theorem exec_closed : ∀ stmt : Stmt, stmt.closes = true → NeverNormal (exec s call stmt)
  | .ret value, _ => fun st =>
    .steps (fun _ _ _ => trivial) fun v st' _ => .bindNote fun _ _ h => nomatch h
  | .branch test yes no, h => by
    intro st
    obtain ⟨hyes, hno⟩ := Bool.and_eq_true_iff.mp h
    refine .steps (fun _ _ _ => trivial) fun holds st' _ => ?_
    cases holds with
    | true => exact execBlock_closed yes hyes st'
    | false => exact execElse_closed no hno st'
  | .loop (.lit (.bool true)) block, _ =>
    repeatTurns_neverNormal (loopTurn_neverNormal _ (condition_true "while")) s.turns

theorem execBlock_closed : ∀ block : Block, block.closed = true → NeverNormal (execBlock s call block)
  | .stmts body, h => execAll_closed body h
  | .main body, h => execAll_closed body h

theorem execElse_closed : ∀ block : Block, block.closed = true → NeverNormal (execElse s call block)
  | .stmts body, h => execAll_closed body h
  | .main body, h => execAll_closed body h

/-- **Closed statements are never completed normally.** -/
theorem execAll_closed : ∀ body : List Stmt, Stmt.someCloses body = true →
    NeverNormal (execAll s call body)
  | stmt :: rest, h => by
    intro st
    rcases Bool.or_eq_true_iff.mp h with hstmt | hrest
    · refine (exec_closed stmt hstmt st).bind (fun _ _ h => h) fun c st' hc => ?_
      cases c with
      | normal => exact absurd rfl hc
      | returned v => exact hc
    · refine .steps (fun _ _ _ => trivial) fun c st' _ => ?_
      cases c with
      | normal => exact execAll_closed rest hrest st'
      | returned v => exact fun h => nomatch h

end

/-! ### Calls of closed functions -/

/-- The bodies of all functions of a table are closed. -/
def FunctionTable.Closed (table : FunctionTable) : Prop :=
  ∀ r ∈ table.entries, ∀ f, r.func = .decl f → f.body.closed = true

/-- A function that is called at a point has a closed body. -/
def Point.CallsClosed (point : Point) : Prop :=
  ∀ f args, point.task = .call f args → f.body.closed = true

theorem Starts.callsClosed (hs : s.functions.Closed) {point point' : Point}
    (h : Starts s point point') : point'.CallsClosed := by
  intro f args htask
  cases h <;> cases htask
  -- of all points that are started, a call is one only if its name was looked up
  case call hc _ _ =>
    obtain ⟨key, first, -, -, hfind, -⟩ := callee_eq_func hc
    exact hs _ (Table.mem_entries_of_find? hfind) f rfl

/-- **No call of a closed function misses a `return`,** nor does any call that it leads to. -/
theorem Fails.kind_ne_missingReturn (hs : s.functions.Closed) {point : Point} {err : RuntimeError}
    (hpoint : point.CallsClosed) (h : Fails s point (.error err)) : err.kind ≠ .missingReturn := by
  obtain ⟨point', hsteps, hraises⟩ := h
  have hpoint' : point'.CallsClosed := by
    cases hsteps with
    | refl => exact hpoint
    | tail _ hstart => exact hstart.callsClosed hs
  rcases hraises.classify with himmediate | ⟨d, f, args, frame, body, st, st', rfl, hb, hx, -⟩ |
    ⟨_, _, _, -, he⟩ | ⟨_, _, _, _, -, he⟩
  · exact himmediate.1
  · have hclosed : Stmt.someCloses body = true := by
      rw [← Block.closed_eq hb]
      exact hpoint' f args rfl
    exact absurd rfl ((execAll_closed body hclosed _).ok hx)
  · cases he
  · cases he

/-- **Closed bodies return.** Closed statements are never completed normally, in whatever setting and
store they are executed and by the rules of the language. Hence, if the functions that a program finds
registered all have closed bodies, then neither the run of the program nor any task that it comes to
fails for a missing `return`, nor does a call of one of these functions with other arguments, at another
depth. -/
theorem closed_bodies_return :
    (∀ body : List Stmt, Stmt.someCloses body = true →
      (∀ (s : Setting) (call : Caller) (st st' : Store), execAll s call body st ≠ .ok .normal st') ∧
      ∀ (table : FunctionTable) (σ σ' : Scope) (out : Codes),
        ¬Derives table (.execAll body) σ (.completed .normal) σ' out) ∧
    ∀ (i : Interpreter) (p : Program) (w : World) (table : FunctionTable), p.WellSorted →
      Registers w.functions p.functions table → table.Closed →
      (∀ err w', i.run p w = .error (.error err) w' → err.kind ≠ .missingReturn) ∧
      (∀ functions point, i.Reaches p w functions point → ∀ err st',
        point.task.perform (i.setting functions) point.depth point.store = .error (.error err) st' →
        err.kind ≠ .missingReturn) ∧
      ∀ r ∈ table.entries, ∀ f, r.func = .decl f → ∀ depth args log err log',
        callWithin (i.setting table) depth f args log = .error (.error err) log' →
        err.kind ≠ .missingReturn := by
  refine ⟨fun body hbody => ⟨fun s call st st' hx => (execAll_closed body hbody st).ok hx rfl, ?_⟩, ?_⟩
  · intro table σ σ' out hderives
    let s := (Interpreter.fresh 0 false ⟨0, 0⟩).setting table
    obtain ⟨b, log', -, hx⟩ : ∃ (b : Budget) (log' : Log), log'.out = Log.empty.out ++ out ∧
        (Task.execAll body).perform (s.within b.turns) b.calls ⟨σ, .empty⟩ =
          Outcome.ending (.completed .normal) ⟨σ', log'⟩ :=
      (Task.perform_iff_derives rfl).mpr hderives
    have hnever : Ensures ((Task.execAll body).perform (s.within b.turns) b.calls) ⟨σ, .empty⟩
        (fun o _ => o ≠ .completed .normal) (fun _ _ => True) :=
      (execAll_closed body hbody _).map fun c _ hc h => hc (by cases h; rfl)
    exact hnever.ok hx rfl
  · intro i p w table hp hreg hclosed
    have htable : ∀ functions point, i.Reaches p w functions point →
        functions = table ∧ point.CallsClosed := by
      rintro functions point ⟨w', body, hw, rfl, -, hsteps⟩
      obtain ⟨log, -, hw'⟩ := Interpreter.registerAll_of_registers (i := i) hreg rfl
      cases hw.symm.trans hw'
      refine ⟨rfl, ?_⟩
      cases hsteps with
      | refl => exact fun f args htask => nomatch htask
      | tail _ hstart => exact hstart.callsClosed hclosed
    refine ⟨?_, ?_, ?_⟩
    · intro err w' hrun
      obtain ⟨functions, point, e₀, hreach, hraises, he⟩ := Interpreter.run_error_raised hp hrun
      obtain ⟨rfl, hpoint⟩ := htable functions point hreach
      by_cases hdepth : err = .callDepth
      · rw [hdepth]
        decide
      · rw [Interpreter.runFailure_eq_error he.symm hdepth] at hraises
        exact Fails.kind_ne_missingReturn hclosed hpoint (.here hraises)
    · intro functions point hreach err st' hx
      obtain ⟨rfl, hpoint⟩ := htable functions point hreach
      exact Fails.kind_ne_missingReturn hclosed hpoint
        ((Task.perform_located (i.setting functions) point.depth point.task point.store).error hx)
    · intro r hr f hf depth args log err log' hx
      have hpoint : Point.CallsClosed ⟨depth, .call f args, ⟨.empty, log⟩⟩ := by
        rintro _ _ ⟨⟩
        exact hclosed r hr f hf
      exact Fails.kind_ne_missingReturn hclosed hpoint
        ((callWithin_located (i.setting table) depth f args .empty log).error hx)

/-- A function that returns on every path:
`f(n) { while (true) { if (n == 0) { return m; } else { return f(n - 1); } } }`. -/
def descend : FuncDecl where
  name := .str "f"
  returnTag := .str "int"
  params := [.param (.str "int") (.str "n")]
  body := .stmts [.loop (.lit (.bool true)) (.stmts [
    .branch (.binary (.var (.str "n")) .eq (.lit (.int 0)))
      (.stmts [.ret (.var (.str "m"))])
      (.stmts [.ret (.call (.str "f") [.binary (.var (.str "n")) .sub (.lit (.int 1))])])])]

/-- The function called in a main block: `main { int x := f(1); }`. -/
def descent : Program :=
  ⟨[.decl descend], .main [.declare (.str "int") (.str "x") (some (.call (.str "f") [.lit (.int 1)]))]⟩

theorem descent_wellSorted : descent.WellSorted := by
  have htext : ∀ s : Codes, Json.IsText (.str s) := fun s => ⟨s, rfl⟩
  refine ⟨List.forall_mem_singleton.mpr ⟨?_, ?_, ?_⟩, ?_⟩ <;>
    simp [descent, descend, htext, Param.Sorted, Block.Sorted, Block.MainSorted, Stmt.AllSorted,
      Stmt.Sorted, Expr.AllSorted, Expr.Sorted, Literal.InRange, InRange, minInt, maxInt]

/-- The run of `descent` fails in a call within a call, for a variable and not for a `return`. -/
theorem closed_bodies_return_descent :
    let i := Interpreter.fresh 0 false ⟨2, 1⟩
    let body : List Stmt :=
      [.branch (.var (.str "c")) descend.body (.stmts [.ret (.var (.str "n"))])]
    Stmt.someCloses body = true ∧ descent.WellSorted ∧
    (∃ w, i.run descent .empty = .error (.error (.unbound (.str "m"))) w ∧
      (RuntimeError.unbound (.str "m")).kind ≠ .missingReturn) ∧
    ∀ call st st', execAll (i.setting .empty) call body st ≠ .ok .normal st' := by
  intro i body
  obtain ⟨hlists, hruns⟩ := closed_bodies_return
  have hreg : Registers World.empty.functions descent.functions
      ⟨[(.str "f", ⟨.str "f", .decl descend⟩)]⟩ := .func rfl rfl .none
  have hclosed : FunctionTable.Closed ⟨[(.str "f", ⟨.str "f", .decl descend⟩)]⟩ := by
    intro r hr f hf
    cases List.mem_singleton.mp hr
    cases hf
    rfl
  obtain ⟨w, hw⟩ : ∃ w, i.run descent .empty = .error (.error (.unbound (.str "m"))) w := ⟨_, rfl⟩
  refine ⟨rfl, descent_wellSorted, ⟨w, hw, ?_⟩, fun call => (hlists _ rfl).1 _ call⟩
  exact (hruns i descent .empty _ descent_wellSorted hreg hclosed).1 _ w hw

end SmallImp
