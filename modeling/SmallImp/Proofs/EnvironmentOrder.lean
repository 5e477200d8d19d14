import SmallImp.Proofs.Declarations
import SmallImp.Proofs.Points

/-!
# The order of names

What holds of the names of variables and functions at all points of a run, whether it completes or
breaks off.

* `FunctionTable.ofRows`, `LastNamed`, `Latest` — a function table as a dictionary, with the last
  function declared under each name;
* `registerAll_latest` — registration leads to such a table;
* `Point.Ordered`, `Starts.ordered`, `Interpreter.Reaches.ordered` — at every point the environment
  is orderly;
* `Environment.GrowsTo` — an environment stays orderly, and new names come at its end;
* `environments_ordered` — the names of a whole run.
-/

namespace SmallImp

/-! ### Function tables -/

/-- The name under which a function is declared. -/
def Func.names : Func → List Codes
  | .decl f => f.name.texts
  | .misfit _ => []

/-- The table of functions under their names. -/
def FunctionTable.ofRows (rows : List (Codes × FuncDecl)) : FunctionTable :=
  ⟨rows.map fun row => (.str row.1, ⟨.str row.1, .decl row.2⟩)⟩

/-- Among these functions, the last one that is declared under a name. -/
def LastNamed (functions : List Func) (name : Codes) (f : FuncDecl) : Prop :=
  f.name = .str name ∧ ∃ before after, functions = before ++ .decl f :: after ∧
    ∀ g, Func.decl g ∈ after → g.name ≠ .str name

/-- The names of functions in the order in which they are first declared, each with the function that
is declared last under it. -/
structure Latest (functions : List Func) (rows : List (Codes × FuncDecl)) : Prop where
  names : rows.map Prod.fst = (functions.flatMap Func.names).eraseDups
  last : ∀ name f, (name, f) ∈ rows → LastNamed functions name f

/-- What is in a dictionary after an entry was put there. -/
theorem mem_put {α : Type} {rows : List (Codes × α)} {name name' : Codes} {a b : α}
    (hrows : (rows.map Prod.fst).Nodup) (h : (name', b) ∈ put name a rows) :
    (name' = name ∧ b = a) ∨ (name' ≠ name ∧ (name', b) ∈ rows) := by
  induction rows with
  | nil =>
    cases List.mem_singleton.mp h
    exact .inl ⟨rfl, rfl⟩
  | cons row rest ih =>
    obtain ⟨hrow, hrest⟩ := List.nodup_cons.mp hrows
    rw [put] at h
    split at h
    next heq =>
      rcases List.mem_cons.mp h with hfirst | hmem
      · cases hfirst
        exact .inl ⟨rfl, rfl⟩
      · have hname : name' ≠ name := by
          rintro rfl
          exact hrow (heq ▸ List.mem_map_of_mem hmem)
        exact .inr ⟨hname, List.mem_cons_of_mem _ hmem⟩
    next hne =>
      rcases List.mem_cons.mp h with rfl | h
      · exact .inr ⟨hne, List.mem_cons_self⟩
      · exact (ih hrest h).imp_right fun h => ⟨h.1, List.mem_cons_of_mem _ h.2⟩

theorem FunctionTable.define_ofRows (rows : List (Codes × FuncDecl)) (name : Codes) (f : FuncDecl) :
    FunctionTable.define (.ofRows rows) (.str name) (.str name) (.decl f) =
      .ofRows (put name f rows) := by
  induction rows with
  | nil => rfl
  | cons row rest ih =>
    rw [put]
    by_cases hrow : row.1 = name
    · subst hrow
      rw [if_pos rfl, FunctionTable.define, Table.upsert, ofRows, List.map_cons, Table.upsertRows,
        if_pos rfl]
      rfl
    · have hrows := congrArg Table.rows ih
      rw [if_neg hrow, FunctionTable.define, Table.upsert, ofRows, List.map_cons, Table.upsertRows,
        if_neg (by simpa using hrow)]
      exact congrArg (fun rows => Table.mk (_ :: rows)) hrows

namespace Latest

theorem none : Latest [] [] := ⟨rfl, nofun⟩

theorem nodup {functions : List Func} {rows : List (Codes × FuncDecl)} (h : Latest functions rows) :
    (rows.map Prod.fst).Nodup := by
  rw [h.names, eraseDups_eq_foldl]
  exact nodup_foldl_addName _ List.nodup_nil

/-- One more function. -/
theorem func {functions : List Func} {rows : List (Codes × FuncDecl)} (h : Latest functions rows)
    {name : Codes} {f : FuncDecl} (hf : f.name = .str name) :
    Latest (functions ++ [.decl f]) (put name f rows) := by
  refine ⟨?_, ?_⟩
  · have hnames : Func.names (.decl f) = [name] := by rw [Func.names, hf, Json.texts]
    rw [map_fst_put, h.names, List.flatMap_append, List.flatMap_singleton, hnames,
      eraseDups_eq_foldl, eraseDups_eq_foldl, List.foldl_append, List.foldl_cons, List.foldl_nil]
  · intro name' g hg
    rcases mem_put h.nodup hg with ⟨rfl, rfl⟩ | ⟨hne, hg⟩
    · exact ⟨hf, functions, [], rfl, nofun⟩
    · obtain ⟨hname, before, after, rfl, hafter⟩ := h.last name' g hg
      refine ⟨hname, before, after ++ [.decl f], by simp, ?_⟩
      intro g' hg' heq
      rcases List.mem_append.mp hg' with hg' | hg'
      · exact hafter g' hg' heq
      · cases List.mem_singleton.mp hg'
        rw [hf] at heq
        cases heq
        exact hne rfl

end Latest

/-- Functions registered after others, by induction on those that are left. -/
theorem Latest.registers {functions : List Func} (hsorted : ∀ func ∈ functions, func.Sorted True) :
    ∀ {before : List Func} {rows : List (Codes × FuncDecl)}, Latest before rows →
      ∃ rows', Latest (before ++ functions) rows' ∧ Registers (.ofRows rows) functions (.ofRows rows') := by
  induction functions with
  | nil =>
    intro before rows h
    exact ⟨rows, by rwa [List.append_nil], .none⟩
  | cons func rest ih =>
    intro before rows h
    obtain ⟨hfunc, hrest⟩ := List.forall_mem_cons.mp hsorted
    cases func with
    | misfit node => exact absurd trivial hfunc
    | decl f =>
      obtain ⟨name, hname⟩ := (hfunc.texts trivial).1
      obtain ⟨rows', hrows', hregisters⟩ := ih hrest (h.func hname)
      rw [← FunctionTable.define_ofRows] at hregisters
      refine ⟨rows', by rwa [List.append_assoc] at hrows', ?_⟩
      exact .func (congrArg some hname) (Json.key?_str name) hregisters

/-! ### Points -/

/-- The names that a task declares in the scope in which it is started. A call declares names in a
scope of its own only. -/
def Task.declared (s : Setting) (depth : Nat) : Task → Store → List Codes
  | .exec stmt => stmt.declared s (callWithin s depth)
  | .execAll body => Stmt.allDeclared s (callWithin s depth) body
  | .eval _ | .evalAll _ | .print _ | .call _ _ => fun _ => []

/-- The environment at a point is orderly, and a call has as many arguments as parameters. -/
structure Point.Ordered (point : Point) : Prop where
  environment : ∃ E, point.store.scope.Shows E ∧ E.Orderly
  arguments : ∀ f args, point.task = .call f args → args.length = f.params.length

section

variable {s : Setting}

theorem Task.Safe.declares {task : Task} (h : task.Safe True) (depth : Nat) :
    Declares (task.perform s depth) (task.declared s depth) := by
  cases task with
  | eval e => exact (Declares.ofEval _).map _
  | evalAll args => exact (Declares.ofEval _).map _
  | print args => exact (Declares.ofEval _).map _
  | call f args => exact (Declares.ofEval _).map _
  | exec stmt => exact (exec_declares stmt h).map _
  | execAll body => exact (execAll_declares body h).map _

/-- A function is called with as many arguments as it has parameters. -/
theorem callee_length {name : Name} {count : Nat} {f : FuncDecl}
    (h : s.callee name count = .ok (.func f)) : count = f.params.length := by
  obtain ⟨-, -, -, -, -, hl⟩ := callee_eq_func h
  exact hl

theorem evalAll_length {call : Caller} {σ : Scope} : ∀ (args : List Expr) (log : Log),
    Ensures (evalAll s call σ args) log (fun vs _ => vs.length = args.length) (fun _ _ => True)
  | [], _ => .pure rfl
  | e :: rest, log => by
    rw [evalAll]
    refine Ensures.bind (Q := fun _ _ => True) (.intro (fun _ _ _ => trivial) fun _ _ _ => trivial)
      (fun _ _ h => h) fun v log' _ => ?_
    exact (evalAll_length rest log').bind (fun _ _ h => h) fun vs _ hvs =>
      .pure (congrArg Nat.succ hvs)

/-- Declarations and assignments keep the environment of a scope orderly. -/
theorem Scope.Becomes.orderly {σ σ' : Scope} {declared : List Codes} (h : σ.Becomes declared σ')
    (hσ : ∃ E, σ.Shows E ∧ E.Orderly) : ∃ E, σ'.Shows E ∧ E.Orderly := by
  obtain ⟨E, hE, horderly⟩ := hσ
  obtain ⟨E', hchanges, hE'⟩ := h E hE
  exact ⟨E', hE', hchanges.orderly horderly⟩

/-- **The environment stays orderly from each point to those that it starts.** -/
theorem Starts.ordered {point point' : Point} (h : Starts s point point') (hsafe : point.Safe True)
    (hp : point.Ordered) : point'.Ordered := by
  obtain ⟨henv, hargs⟩ := hp
  have htask := hsafe.task
  cases h with
  | left | right _ | operand | print _ _ | last _ _ | args _ | firstArg | nextArgs _ | firstPrinted
  | nextPrinted _ | start | assigned | returned | expr | block | branchTest | loopTest | firstStmt =>
    exact ⟨henv, nofun⟩
  | call h ha hn =>
    refine ⟨henv, ?_⟩
    rintro _ _ ⟨⟩
    rw [(evalAll_length _ _).ok ha]
    exact callee_length h
  | body hb hs =>
    refine ⟨?_, nofun⟩
    exact ((bindParams_iff.mp hb).becomes htask.1.params (hargs _ _ rfl)).orderly
      ⟨.empty, .empty, .empty⟩
  | yes h hs | no h hs => exact ⟨((condition_declares "if" _ _).ok h).orderly henv, nofun⟩
  | turn h hs => exact ⟨((condition_declares "while" _ _).ok h).orderly henv, nofun⟩
  | again h hs hb =>
    have hturn := ((condition_declares "while" _ _).ok h).orderly henv
    exact ⟨((execAll_declares _ (htask.2.statements hs) _).ok hb).orderly hturn, nofun⟩
  | nextStmts h => exact ⟨((exec_declares _ htask.1 _).ok h).orderly henv, nofun⟩

end

/-! ### Runs -/

/-- Assignments, and declarations of these names in this order, lead from an environment to that of a
scope. It is orderly, the names that were there keep their places, and new ones come after them in the
order in which they are first declared. -/
def Environment.GrowsTo (E : Environment) (declared : List Codes) (σ : Scope) : Prop :=
  ∃ E', σ.Shows E' ∧ E'.Orderly ∧ E.Changes declared E' ∧
    E'.keys = E.keys ++ (declared.filter (· ∉ E.keys)).eraseDups

theorem Scope.Becomes.growsTo {σ σ' : Scope} {declared : List Codes} (h : σ.Becomes declared σ')
    {E : Environment} (hE : σ.Shows E) (horderly : E.Orderly) : E.GrowsTo declared σ' := by
  obtain ⟨E', hchanges, hE'⟩ := h E hE
  exact ⟨E', hE', hchanges.orderly horderly, hchanges, hchanges.keys_eq⟩

namespace Interpreter

variable {i : Interpreter} {p : Program}

/-- The functions of a well-sorted program are registered, the last one under each name. -/
theorem registerAll_latest (i : Interpreter) (hp : p.WellSorted) : ∃ rows log,
    Latest p.functions rows ∧ i.registerAll p.functions .empty = .ok () ⟨.ofRows rows, .empty, log⟩ := by
  obtain ⟨rows, hrows, hregisters⟩ := Latest.none.registers hp.functions
  have hempty : World.empty.functions = .ofRows [] := rfl
  obtain ⟨log, -, hw⟩ := registerAll_of_registers (i := i) hregisters hempty
  exact ⟨rows, log, hrows, hw⟩

/-- The points of a run, by induction on the tasks that are started on the way there. -/
theorem Reaches.ordered {functions : FunctionTable} {point : Point} (hp : p.WellSorted)
    (h : i.Reaches p .empty functions point) : point.Ordered := by
  obtain ⟨w', body, hr, rfl, hmain, hsteps⟩ := h
  obtain ⟨rows, log, -, hw⟩ := i.registerAll_latest hp
  have hw' := hr.symm.trans hw
  cases hw'
  induction hsteps with
  | refl => exact ⟨⟨.empty, .empty, .empty⟩, nofun⟩
  | tail hsteps hstep ih =>
    have hreach : i.Reaches p .empty (.ofRows rows) _ := ⟨_, body, hw, rfl, hmain, hsteps⟩
    exact hstep.ordered (hreach.safe hp .empty).2 ih

/-- The main block declares its names in the top-level scope, and keeps the functions. -/
theorem runMain_becomes {block : Block} (h : block.MainSorted True) (w : World) :
    let Q : World → Prop := fun w' => w'.functions = w.functions ∧ w.scope.Becomes
      (block.declared (i.setting w.functions) (i.caller w.functions) ⟨w.scope, w.log⟩) w'.scope
    Ensures (i.runMain block) w (fun _ => Q) (fun _ => Q) := by
  intro Q
  cases block with
  | absent => exact ⟨rfl, .refl _⟩
  | stmts body => exact absurd trivial h.1
  | misfit node => exact absurd trivial h
  | main body =>
    have hbody : Declares (execAll (i.setting w.functions) (i.caller w.functions) body)
        (Stmt.allDeclared (i.setting w.functions) (i.caller w.functions) body) :=
      execAll_declares body h
    rw [runMain]
    · refine (inScope_ensures (hbody ⟨w.scope, w.log⟩)).bind (fun _ _ h => h) fun _ w' hw' => ?_
      split
      · rw [Ensures, reportState_free]
        exact hw'
      · exact hw'
    · intro habsent
      cases habsent

/-- What holds at the end of the parts of a run holds at the end of the run. -/
theorem run_ensures {w : World} {Q : World → Prop}
    (h : Ensures (i.runParts p) w (fun _ => Q) (fun _ => Q)) :
    Ensures (i.run p) w (fun _ => Q) (fun _ => Q) := by
  rw [Ensures, run]
  cases hx : i.runParts p w with
  | ok u w' => exact h.ok hx
  | error e w' => exact h.error hx

end Interpreter

/-- **Names keep their places.** When a well-sorted program is run in an empty world, in any budget:

* the function table holds the names of the functions in the order in which they are first declared,
  each with the function declared last under it, from the start of the main block to the end;
* wherever the run comes to, the names of the values in scope are distinct, and they are the names of
  the types, in the same order. Whether the task at this point succeeds or fails, the scope is then in
  order again: no name has lost its place, and the names that are new come at the end, in the order in
  which the task first declares them;
* the scope of a call has the names of the parameters in the order in which they first occur;
* at the end, whether the run succeeds or fails, the top-level scope is in order and has the names
  that the main block declares. -/
theorem environments_ordered {p : Program} (hp : p.WellSorted) (i : Interpreter) :
    ∃ (rows : List (Codes × FuncDecl)) (log : Log),
      rows.map Prod.fst = (p.functions.flatMap Func.names).eraseDups ∧
      (∀ name f, (name, f) ∈ rows → LastNamed p.functions name f) ∧
      i.registerAll p.functions .empty = .ok () ⟨.ofRows rows, .empty, log⟩ ∧
      (∀ functions point, i.Reaches p .empty functions point →
        functions = .ofRows rows ∧
        ∃ E, point.store.scope.Shows E ∧ E.Orderly ∧
          let declared := point.task.declared (i.setting functions) point.depth point.store
          Ensures (point.task.perform (i.setting functions) point.depth) point.store
            (fun _ st => E.GrowsTo declared st.scope) (fun _ st => E.GrowsTo declared st.scope)) ∧
      (∀ functions depth f args st, i.Reaches p .empty functions ⟨depth, .call f args, st⟩ →
        ∃ frame, bindParams .empty f.params args = .ok frame ∧
          Environment.empty.GrowsTo (f.params.flatMap Param.names) frame) ∧
      let declared := p.main.declared (i.setting (.ofRows rows)) (i.caller (.ofRows rows)) ⟨.empty, log⟩
      Ensures (i.run p) .empty
        (fun _ w => w.functions = .ofRows rows ∧ Environment.empty.GrowsTo declared w.scope)
        (fun _ w => w.functions = .ofRows rows ∧ Environment.empty.GrowsTo declared w.scope) := by
  obtain ⟨rows, log, hlatest, hw⟩ := i.registerAll_latest hp
  refine ⟨rows, log, hlatest.names, hlatest.last, hw, ?_, ?_, ?_⟩
  · intro functions point hreach
    obtain ⟨E, hE, horderly⟩ := (hreach.ordered hp).environment
    have hfunctions : functions = .ofRows rows := by
      obtain ⟨w', -, hw', rfl, -⟩ := hreach
      cases hw'.symm.trans hw
      rfl
    have htask := (hreach.safe hp .empty).2.task
    refine ⟨hfunctions, E, hE, horderly, ?_⟩
    exact (htask.declares point.depth point.store).weaken (fun _ _ h => h.growsTo hE horderly)
      fun _ _ h => h.growsTo hE horderly
  · intro functions depth f args st hreach
    have hparams := (hreach.safe hp .empty).2.task.1.params
    obtain ⟨frame, hframe⟩ := bindParams_ok hparams .empty args
    have hbinds := (bindParams_iff.mp hframe).becomes hparams ((hreach.ordered hp).arguments f args rfl)
    exact ⟨frame, hframe, hbinds.growsTo .empty .empty⟩
  · intro declared
    refine Interpreter.run_ensures ?_
    rw [Interpreter.runParts, Ensures, bind_of_ok hw]
    exact (Interpreter.runMain_becomes hp.main ⟨.ofRows rows, .empty, log⟩).weaken
      (fun _ _ h => ⟨h.1, h.2.growsTo .empty .empty⟩) fun _ _ h => ⟨h.1, h.2.growsTo .empty .empty⟩

/-- A function without parameters that returns an integer. -/
def constantly (name : Codes) (n : Int) : FuncDecl :=
  ⟨.str name, .str "int", [], .stmts [.ret (.lit (.int n))]⟩

/-- A function with two parameters of one name, whose body fails at its end. -/
def repeatedParams : FuncDecl where
  name := .str "g"
  returnTag := .str "int"
  params :=
    [.param (.str "int") (.str "b"), .param (.str "int") (.str "a"), .param (.str "int") (.str "b")]
  body := .stmts [.declare (.str "int") (.str "c") none, .assign (.str "a") (.var (.str "b")),
    .ret (.var (.str "missing"))]

/-- Functions, parameters and variables that are declared more than once. -/
def repeatedNames : Program where
  functions := [.decl (constantly "f" 1), .decl repeatedParams, .decl (constantly "f" 2)]
  main := .main [
    .declare (.str "int") (.str "y") (some (.call (.str "f") [])),
    .declare (.str "int") (.str "x") (some (.lit (.int 3))),
    .declare (.str "bool") (.str "y") none,
    .declare (.str "int") (.str "z")
      (some (.call (.str "g") [.lit (.int 4), .var (.str "x"), .lit (.int 5)]))]

theorem repeatedNames_wellSorted : repeatedNames.WellSorted := by
  have htext : ∀ s : Codes, Json.IsText (.str s) := fun s => ⟨s, rfl⟩
  refine ⟨?_, ?_⟩
  · simp only [repeatedNames, List.forall_mem_cons]
    refine ⟨⟨?_, ?_, ?_⟩, ⟨?_, ?_, ?_⟩, ⟨?_, ?_, ?_⟩, nofun⟩ <;>
      simp [constantly, repeatedParams, htext, Param.Sorted, Block.Sorted, Stmt.AllSorted, Stmt.Sorted,
        Expr.Sorted, Literal.InRange, InRange, minInt, maxInt]
  · simp [repeatedNames, htext, Block.MainSorted, Stmt.AllSorted, Stmt.Sorted, Expr.Sorted,
      Expr.AllSorted, Literal.InRange, InRange, minInt, maxInt]

/-- The scope at the end of the body of `repeatedParams`. -/
def repeatedFrame : Scope :=
  ⟨[(.str "b", ⟨.str "b", .str "int", .int 5⟩), (.str "a", ⟨.str "a", .str "int", .int 5⟩),
    (.str "c", ⟨.str "c", .str "int", .null⟩)]⟩

/-- The run of `repeatedNames` comes to the end of the body of `repeatedParams`. -/
theorem repeatedNames_reaches_ret : ∃ functions,
    (Interpreter.fresh 0 false ⟨1, 0⟩).Reaches repeatedNames .empty functions
      ⟨0, .execAll [.ret (.var (.str "missing"))], ⟨repeatedFrame, .empty⟩⟩ := by
  refine ⟨_, _, _, rfl, rfl, rfl, ?_⟩
  refine .head (.nextStmts rfl) (.head (.nextStmts rfl) (.head (.nextStmts rfl) ?_))
  refine .head .firstStmt (.head .start (.head (.call rfl rfl rfl) (.head (.body rfl rfl) ?_)))
  exact .head (.nextStmts rfl) (.single (.nextStmts rfl))

/-- Repeated names keep their places, in the function table and in both scopes, although the run
fails in a call. -/
theorem environments_ordered_repeatedNames :
    let i := Interpreter.fresh 0 false ⟨1, 0⟩
    repeatedNames.WellSorted ∧
    (∃ E, repeatedFrame.Shows E ∧ E.Orderly ∧ E.keys.map Key.str = [.str "b", .str "a", .str "c"]) ∧
    ∃ w, i.run repeatedNames .empty = .error (.error (.unbound (.str "missing"))) w ∧
      w.functions = .ofRows [("f", constantly "f" 2), ("g", repeatedParams)] ∧
      Environment.empty.GrowsTo ["y", "x", "y"] w.scope := by
  intro i
  obtain ⟨rows, log, -, -, hw, hpoints, -, hend⟩ := environments_ordered repeatedNames_wellSorted i
  obtain ⟨functions, hreach⟩ := repeatedNames_reaches_ret
  obtain ⟨-, E, hE, horderly, -⟩ := hpoints functions _ hreach
  have hregistered : i.registerAll repeatedNames.functions .empty = .ok ()
      ⟨.ofRows [("f", constantly "f" 2), ("g", repeatedParams)], .empty, .empty⟩ := rfl
  injection hw.symm.trans hregistered with _ hworld
  injection hworld with hrows _ hlog
  rw [hrows, hlog] at hend
  exact ⟨repeatedNames_wellSorted, ⟨E, hE, horderly, hE.keys.symm⟩, _, rfl, hend.error rfl⟩

end SmallImp
