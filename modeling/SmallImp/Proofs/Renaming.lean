import Mathlib.Data.List.Forall2
import SmallImp.Proofs.Isolation
import SmallImp.Proofs.Rules
import SmallImp.Proofs.Sorts

/-!
# Renaming of variables

The variables of a function, or of the main block, may be given other names, as long as different
names stay different. Each function has a renaming of its own, so in a chain of calls every scope is
renamed in another way. Nothing but the names changes.

* `Expr.renamed`, `Stmt.renamed`, `FuncDecl.renamed`, `Program.renamed` — parts of programs under a
  renaming of their variables;
* `Scope.renamed` — a scope under a renaming, with its look-ups and changes;
* `EndsAlike`, `RunsAlike` — two computations that end alike, up to the names of unbound variables;
* `FuncDecl.RenamedTo`, `Setting.RenamedTo`, `Caller.RenamedTo` — what surrounds two runs;
* `eval_renamed`, `exec_renamed`, `callWithin_renamed`, `run_renamed` — a run and the renamed run, from
  expressions to programs;
* `renaming_invariant` — whole programs on a fresh interpreter.
-/

namespace SmallImp

/-! ### Programs under a renaming -/

/-- A name under a renaming. Only texts are renamed. -/
def Json.renamed (ρ : Codes → Codes) : Name → Name
  | .str s => .str (ρ s)
  | name => name

/-- A key under a renaming. -/
def Key.renamed (ρ : Codes → Codes) : Key → Key
  | .str s => .str (ρ s)
  | key => key

mutual

/-- An expression under a renaming of its variables. Names of functions are kept. -/
def Expr.renamed (ρ : Codes → Codes) : Expr → Expr
  | .lit value => .lit value
  | .var name => .var (name.renamed ρ)
  | .binary left op right => .binary (Expr.renamed ρ left) op (Expr.renamed ρ right)
  | .unary op operand => .unary op (Expr.renamed ρ operand)
  | .call name args => .call name (Expr.allRenamed ρ args)
  | .misfit node => .misfit node

/-- Expressions under a renaming. -/
def Expr.allRenamed (ρ : Codes → Codes) : List Expr → List Expr
  | [] => []
  | e :: rest => Expr.renamed ρ e :: Expr.allRenamed ρ rest

end

mutual

/-- A statement under a renaming of its variables. Types are kept. -/
def Stmt.renamed (ρ : Codes → Codes) : Stmt → Stmt
  | .declare tag name start => .declare tag (name.renamed ρ) (start.map (Expr.renamed ρ))
  | .assign name e => .assign (name.renamed ρ) (e.renamed ρ)
  | .branch test yes no => .branch (test.renamed ρ) (Block.renamed ρ yes) (Block.renamed ρ no)
  | .loop test body => .loop (test.renamed ρ) (Block.renamed ρ body)
  | .ret e => .ret (e.renamed ρ)
  | .expr e => .expr (e.renamed ρ)
  | .block body => .block (Stmt.allRenamed ρ body)
  | .misfit node => .misfit node

/-- A block under a renaming. -/
def Block.renamed (ρ : Codes → Codes) : Block → Block
  | .stmts body => .stmts (Stmt.allRenamed ρ body)
  | .main body => .main (Stmt.allRenamed ρ body)
  | .absent => .absent
  | .misfit node => .misfit node

/-- Statements under a renaming. -/
def Stmt.allRenamed (ρ : Codes → Codes) : List Stmt → List Stmt
  | [] => []
  | stmt :: rest => Stmt.renamed ρ stmt :: Stmt.allRenamed ρ rest

end

/-- A parameter under a renaming. -/
def Param.renamed (ρ : Codes → Codes) : Param → Param
  | .param tag name => .param tag (name.renamed ρ)
  | .misfit node => .misfit node

/-- A function under a renaming of its parameters and of the variables of its body. -/
def FuncDecl.renamed (ρ : Codes → Codes) (f : FuncDecl) : FuncDecl :=
  { f with params := f.params.map (Param.renamed ρ), body := f.body.renamed ρ }

/-- What stands in the place of a function, under a renaming. -/
def Func.renamed (ρ : Codes → Codes) : Func → Func
  | .decl f => .decl (f.renamed ρ)
  | .misfit node => .misfit node

/-- A program with one renaming for its main block and one for each function, by its place. -/
def Program.renamed (main : Codes → Codes) (parts : Nat → Codes → Codes) (p : Program) : Program :=
  ⟨p.functions.mapIdx fun n func => func.renamed (parts n), p.main.renamed main⟩

/-- The variable that a parameter declares. -/
def Param.variables : Param → List Key
  | .param _ name => (Json.key? name).toList
  | .misfit _ => []

/-- The variables of a function. -/
def FuncDecl.variables (f : FuncDecl) : List Key := f.params.flatMap Param.variables ++ f.body.variables

/-- Different names among the given variables stay different. -/
def InjectiveOn (ρ : Codes → Codes) (V : List Key) : Prop :=
  ∀ a b : Codes, .str a ∈ V → .str b ∈ V → ρ a = ρ b → a = b

/-! ### Keys and scopes -/

section

variable {ρ : Codes → Codes} {V : List Key}

theorem Json.key?_renamed (name : Name) :
    Json.key? (name.renamed ρ) = (Json.key? name).map (Key.renamed ρ) := by
  cases name with
  | float x =>
    simp only [Json.renamed, Json.key?]
    cases Binary64.toInt? x <;> rfl
  | _ => rfl

theorem InjectiveOn.key_renamed {k k' : Key} (h : InjectiveOn ρ V) (hk : k ∈ V) (hk' : k' ∈ V) :
    k.renamed ρ = k'.renamed ρ ↔ k = k' := by
  refine ⟨fun heq => ?_, congrArg _⟩
  cases k with
  | str a =>
    cases k' with
    | str b => exact congrArg Key.str (h a b hk hk' (Key.str.inj heq))
    | _ => cases heq
  | _ =>
    cases k' with
    | str b => cases heq
    | _ => exact heq

/-- A variable under a renaming. -/
def Binding.renamed (ρ : Codes → Codes) (b : Binding) : Binding := { b with name := b.name.renamed ρ }

namespace Scope

/-- A scope under a renaming. -/
def renamed (ρ : Codes → Codes) (σ : Scope) : Scope :=
  ⟨σ.rows.map fun row => (row.1.renamed ρ, row.2.renamed ρ)⟩

variable {σ : Scope} {key : Key} {name : Name}

theorem find?_renamed (hρ : InjectiveOn ρ V) (hσ : σ.keys ⊆ V) (hkey : key ∈ V) :
    (σ.renamed ρ).find? (key.renamed ρ) = (σ.find? key).map (Binding.renamed ρ) := by
  obtain ⟨rows⟩ := σ
  show Table.lookup _ (rows.map _) = (Table.lookup key rows).map _
  replace hσ : rows.map (·.1) ⊆ V := hσ
  induction rows with
  | nil => rfl
  | cons row rest ih =>
    obtain ⟨k, b⟩ := row
    rw [List.map_cons, List.cons_subset] at hσ
    rw [List.map_cons, Table.lookup, Table.lookup, ih hσ.2]
    simp only [hρ.key_renamed hσ.1 hkey]
    split <;> rfl

/-- Setting a variable and renaming it come to the same in either order. -/
theorem upsert_renamed (hρ : InjectiveOn ρ V) (hσ : σ.keys ⊆ V) (hkey : key ∈ V)
    {f g : Option Binding → Binding} (h : ∀ b, g (b.map (Binding.renamed ρ)) = (f b).renamed ρ) :
    (σ.renamed ρ).upsert (key.renamed ρ) g = renamed ρ (σ.upsert key f) := by
  obtain ⟨rows⟩ := σ
  refine congrArg Table.mk ?_
  show Table.upsertRows _ g (rows.map _) = (Table.upsertRows key f rows).map _
  replace hσ : rows.map (·.1) ⊆ V := hσ
  induction rows with
  | nil => simp only [List.map_nil, Table.upsertRows, List.map_cons, ← h none, Option.map_none]
  | cons row rest ih =>
    obtain ⟨k, b⟩ := row
    rw [List.map_cons, List.cons_subset] at hσ
    rw [List.map_cons, Table.upsertRows, Table.upsertRows, ih hσ.2]
    simp only [hρ.key_renamed hσ.1 hkey]
    split
    · simp only [List.map_cons, ← h (some b), Option.map_some]
    · rfl

theorem keys_upsert (hσ : σ.keys ⊆ V) (hkey : key ∈ V) (f : Option Binding → Binding) :
    (σ.upsert key f).keys ⊆ V := by
  obtain ⟨rows⟩ := σ
  show (Table.upsertRows key f rows).map (·.1) ⊆ V
  replace hσ : rows.map (·.1) ⊆ V := hσ
  induction rows with
  | nil => simpa [Table.upsertRows] using hkey
  | cons row rest ih =>
    obtain ⟨k, b⟩ := row
    rw [List.map_cons, List.cons_subset] at hσ
    rw [Table.upsertRows]
    split
    · exact List.cons_subset.mpr hσ
    · exact List.cons_subset.mpr ⟨hσ.1, ih hσ.2⟩

theorem values_renamed (ρ : Codes → Codes) (σ : Scope) :
    (σ.renamed ρ).values = σ.values.map fun row => (row.1.renamed ρ, row.2) := by
  simp [values, Table.entries, renamed, Binding.renamed]

theorem tags_renamed (ρ : Codes → Codes) (σ : Scope) :
    (σ.renamed ρ).tags = σ.tags.map fun row => (row.1.renamed ρ, row.2) := by
  simp [tags, Table.entries, renamed, Binding.renamed]

end Scope

end

/-! ### Computations that end alike -/

/-- The same failure, or in both cases an unbound variable. -/
inductive Failure.Alike : Failure → Failure → Prop where
  | same {e : Failure} : Alike e e
  | unbound {name name' : Name} : Alike (.error (.unbound name)) (.error (.unbound name'))

/-- The same result, or failures that are alike; in states that are related. -/
inductive EndsAlike {σ α : Type} (R : σ → σ → Prop) :
    EStateM.Result Failure σ α → EStateM.Result Failure σ α → Prop where
  | ok {a : α} {st st' : σ} (h : R st st') : EndsAlike R (.ok a st) (.ok a st')
  | error {e e' : Failure} {st st' : σ} (he : e.Alike e') (h : R st st') :
      EndsAlike R (.error e st) (.error e' st')

/-- From states that are related, two computations end alike. -/
def RunsAlike {σ α : Type} (R : σ → σ → Prop) (x y : EStateM Failure σ α) : Prop :=
  ∀ st st', R st st' → EndsAlike R (x st) (y st')

theorem EndsAlike.mono {σ α : Type} {R R' : σ → σ → Prop} {r r' : EStateM.Result Failure σ α}
    (h : EndsAlike R r r') (hR : ∀ st st', R st st' → R' st st') : EndsAlike R' r r' := by
  cases h with
  | ok h => exact .ok (hR _ _ h)
  | error he h => exact .error he (hR _ _ h)

namespace RunsAlike

variable {σ α β : Type} {R : σ → σ → Prop}

theorem pure (a : α) : RunsAlike R (Pure.pure a) (Pure.pure a) := fun _ _ h => .ok h

theorem throw {e e' : Failure} (he : e.Alike e') :
    RunsAlike R (throw e : EStateM Failure σ α) (throw e') := fun _ _ h => .error he h

theorem bind {x y : EStateM Failure σ α} {f g : α → EStateM Failure σ β} (h : RunsAlike R x y)
    (hf : ∀ a, RunsAlike R (f a) (g a)) : RunsAlike R (x >>= f) (y >>= g) := by
  intro st st' hst
  have hend := h st st' hst
  cases hx : x st with
  | ok a st₁ =>
    cases hy : y st' with
    | ok b st₂ =>
      rw [hx, hy] at hend
      cases hend with
      | ok h =>
        rw [bind_of_ok hx, bind_of_ok hy]
        exact hf a st₁ st₂ h
    | error e st₂ =>
      rw [hx, hy] at hend
      cases hend
  | error e st₁ =>
    cases hy : y st' with
    | ok b st₂ =>
      rw [hx, hy] at hend
      cases hend
    | error e' st₂ =>
      rw [hx, hy] at hend
      cases hend with
      | error he h =>
        rw [bind_of_error hx, bind_of_error hy]
        exact .error he h

end RunsAlike

/-- The same text was printed, whatever was traced. -/
def Log.SameOut (log log' : Log) : Prop := log.out = log'.out

section

variable {α : Type}

theorem Eval.ofExcept_runsAlike (r : Except Failure α) :
    RunsAlike Log.SameOut (Eval.ofExcept r) (Eval.ofExcept r) := by
  cases r with
  | ok a => exact .pure a
  | error e => exact .throw .same

theorem Eval.write_runsAlike (text : Codes) :
    RunsAlike Log.SameOut (Eval.write .any text) (Eval.write .any text) :=
  fun _ _ h => .ok (congrArg (· ++ text) h)

theorem Eval.note_runsAlike (verbosity verbosity' level : Nat) (line line' : Codes) :
    RunsAlike Log.SameOut (Eval.note .any verbosity level line)
      (Eval.note .any verbosity' level line') := by
  intro log log' h
  rw [Eval.note, Eval.note, if_pos (Encoding.takes_any line), if_pos (Encoding.takes_any line')]
  split <;> split <;> exact .ok h

end

/-! ### Scopes in two runs -/

section

variable {ρ : Codes → Codes} {V : List Key} {σ : Scope} {name : Name}

theorem Json.renamed_of_unusable (hk : Json.key? name = none) : name.renamed ρ = name := by
  cases name with
  | str s => cases hk
  | _ => rfl

theorem Json.key?_renamed_of_some {key : Key} (hk : Json.key? name = some key) :
    Json.key? (name.renamed ρ) = some (key.renamed ρ) := by
  rw [Json.key?_renamed, hk]
  rfl

theorem Scope.read_renamed (hρ : InjectiveOn ρ V) (hσ : σ.keys ⊆ V)
    (hV : (Json.key? name).toList ⊆ V) :
    RunsAlike Log.SameOut (Eval.ofExcept (σ.read name))
      (Eval.ofExcept ((σ.renamed ρ).read (name.renamed ρ))) := by
  cases hk : Json.key? name with
  | none =>
    rw [Json.renamed_of_unusable hk, read_unusable hk, read_unusable hk]
    exact .throw .same
  | some key =>
    rw [read_eq hk, read_eq (Json.key?_renamed_of_some hk),
      find?_renamed hρ hσ (mem_of_key? hk hV)]
    cases σ.find? key with
    | none => exact .throw .unbound
    | some b => exact .pure b.value

/-- Two scopes refuse a change with failures that are alike, or the second is the first one renamed
after it. -/
inductive Scope.ChangesAlike (ρ : Codes → Codes) (V : List Key) :
    Except Failure Scope → Except Failure Scope → Prop where
  | ok {σ : Scope} (h : σ.keys ⊆ V) : ChangesAlike ρ V (.ok σ) (.ok (σ.renamed ρ))
  | error {e e' : Failure} (h : e.Alike e') : ChangesAlike ρ V (.error e) (.error e')

theorem Scope.declare_renamed (hρ : InjectiveOn ρ V) (hσ : σ.keys ⊆ V)
    (hV : (Json.key? name).toList ⊆ V) (tag : TypeTag) (v : Value) :
    ChangesAlike ρ V (σ.declare tag name v) ((σ.renamed ρ).declare tag (name.renamed ρ) v) := by
  cases hk : Json.key? name with
  | none =>
    rw [Json.renamed_of_unusable hk, declare_unusable hk, declare_unusable hk]
    exact .error .same
  | some key =>
    have hkey := mem_of_key? hk hV
    rw [declare_eq hk, declare_eq (Json.key?_renamed_of_some hk), upsert_renamed hρ hσ hkey]
    · exact .ok (keys_upsert hσ hkey _)
    · intro b
      cases b <;> rfl

theorem Scope.assign_renamed (hρ : InjectiveOn ρ V) (hσ : σ.keys ⊆ V)
    (hV : (Json.key? name).toList ⊆ V) (v : Value) :
    ChangesAlike ρ V (σ.assign name v) ((σ.renamed ρ).assign (name.renamed ρ) v) := by
  cases hk : Json.key? name with
  | none =>
    rw [Json.renamed_of_unusable hk, assign_unusable hk, assign_unusable hk]
    exact .error .same
  | some key =>
    have hkey := mem_of_key? hk hV
    rw [assign_eq hk, assign_eq (Json.key?_renamed_of_some hk), find?_renamed hρ hσ hkey]
    cases σ.find? key with
    | none => exact .error .unbound
    | some b =>
      show ChangesAlike ρ V (.ok _) (.ok ((σ.renamed ρ).upsert _ _))
      rw [upsert_renamed hρ hσ hkey (f := fun _ => { b with value := v })]
      · exact .ok (keys_upsert hσ hkey _)
      · exact fun _ => rfl

/-- A store and the renamed one. The same was printed, and the scope has none but the given
variables. -/
structure Store.RenamedTo (ρ : Codes → Codes) (V : List Key) (st st' : Store) : Prop where
  scope : st'.scope = st.scope.renamed ρ
  keys : st.scope.keys ⊆ V
  out : st.log.SameOut st'.log

variable {α : Type}

theorem Exec.ofEval_runsAlike {f g : Scope → Eval α}
    (h : ∀ σ : Scope, σ.keys ⊆ V → RunsAlike Log.SameOut (f σ) (g (σ.renamed ρ))) :
    RunsAlike (Store.RenamedTo ρ V) (Exec.ofEval f) (Exec.ofEval g) := by
  rintro ⟨σ, log⟩ ⟨τ, log'⟩ ⟨hscope, hkeys, hout⟩
  obtain rfl : τ = σ.renamed ρ := hscope
  have hend := h σ hkeys log log' hout
  simp only [Exec.ofEval]
  generalize f σ log = r, g (σ.renamed ρ) log' = r' at hend
  cases hend with
  | ok hout => exact .ok ⟨rfl, hkeys, hout⟩
  | error he hout => exact .error he ⟨rfl, hkeys, hout⟩

theorem Exec.update_runsAlike {f g : Scope → Except Failure Scope}
    (h : ∀ σ : Scope, σ.keys ⊆ V → Scope.ChangesAlike ρ V (f σ) (g (σ.renamed ρ))) :
    RunsAlike (Store.RenamedTo ρ V) (Exec.update f) (Exec.update g) := by
  rintro ⟨σ, log⟩ ⟨τ, log'⟩ ⟨hscope, hkeys, hout⟩
  obtain rfl : τ = σ.renamed ρ := hscope
  have hafter := h σ hkeys
  simp only [Exec.update]
  generalize f σ = r, g (σ.renamed ρ) = r' at hafter
  cases hafter with
  | ok hkeys => exact .ok ⟨rfl, hkeys, hout⟩
  | error he => exact .error he ⟨rfl, hkeys, hout⟩

theorem Exec.note_runsAlike (verbosity verbosity' level : Nat) (line line' : Codes) :
    RunsAlike (Store.RenamedTo ρ V) (Exec.note .any verbosity level line)
      (Exec.note .any verbosity' level line') := by
  intro st st' h
  rw [Exec.note, Exec.note, if_pos (Encoding.takes_any line), if_pos (Encoding.takes_any line')]
  split <;> split <;> exact .ok ⟨h.scope, h.keys, h.out⟩

end

/-! ### Functions in two runs -/

/-- A function and the same one under some renaming that keeps its variables apart. -/
structure FuncDecl.RenamedTo (f f' : FuncDecl) : Prop where
  sorted : f.Sorted True
  renamed : ∃ ρ, InjectiveOn ρ f.variables ∧ f' = f.renamed ρ

/-- The same of what stands in the place of a function. -/
def Func.RenamedTo (func func' : Func) : Prop :=
  ∃ f f', func = .decl f ∧ func' = .decl f' ∧ f.RenamedTo f'

/-- Two tables with renamed functions under the same names. -/
def FunctionTable.RenamedTo (table table' : FunctionTable) : Prop :=
  ∀ key, Option.Rel (fun r r' : Registered => r.func.RenamedTo r'.func) (table.find? key)
    (table'.find? key)

/-- Two settings that differ in the variables of functions, and perhaps in what is traced. -/
structure Setting.RenamedTo (s s' : Setting) : Prop where
  builtins : s'.builtins = s.builtins
  turns : s'.turns = s.turns
  functions : s.functions.RenamedTo s'.functions

/-- Two ways to call functions that go alike on renamed functions. -/
def Caller.RenamedTo (call call' : Caller) : Prop :=
  ∀ f f' args, f.RenamedTo f' → RunsAlike Log.SameOut (call f args) (call' f' args)

theorem FunctionTable.RenamedTo.define {table table' : FunctionTable} (h : table.RenamedTo table')
    {func func' : Func} (hfunc : func.RenamedTo func') (key : Key) (name : Name) :
    (FunctionTable.define table key name func).RenamedTo
      (FunctionTable.define table' key name func') := by
  intro key'
  rw [FunctionTable.define, FunctionTable.define, Table.find?_upsert, Table.find?_upsert]
  split
  · refine .some ?_
    cases table.find? key <;> cases table'.find? key <;> exact hfunc
  · exact h key'

/-- A call refers to the same builtin, to a renamed function, or to nothing in both cases. -/
theorem Setting.RenamedTo.callee {s s' : Setting} (h : s.RenamedTo s') (name : Name) (count : Nat) :
    (∃ e, s.callee name count = .error e ∧ s'.callee name count = .error e) ∨
    (∃ b, s.callee name count = .ok (.builtin b) ∧ s'.callee name count = .ok (.builtin b)) ∨
    ∃ f f', s.callee name count = .ok (.func f) ∧ s'.callee name count = .ok (.func f') ∧
      f.RenamedTo f' := by
  cases hk : Json.key? name with
  | none => exact .inl ⟨_, callee_unusable hk, callee_unusable hk⟩
  | some key =>
    rw [callee_eq hk, callee_eq hk, h.builtins]
    cases s.builtins.find? key with
    | some b =>
      by_cases hb : b.takes count
      · exact .inr (.inl ⟨b, if_pos hb, if_pos hb⟩)
      · exact .inl ⟨_, if_neg hb, if_neg hb⟩
    | none =>
      have hfound := h.functions key
      generalize s.functions.find? key = r, s'.functions.find? key = r' at hfound
      cases hfound with
      | none => exact .inl ⟨_, rfl, rfl⟩
      | @some r r' hfunc =>
        obtain ⟨_, func⟩ := r
        obtain ⟨_, func'⟩ := r'
        obtain ⟨f, f', ⟨rfl⟩, ⟨rfl⟩, hf⟩ := hfunc
        obtain ⟨ρ, -, rfl⟩ := hf.renamed
        have hlength : (f.renamed ρ).params.length = f.params.length := List.length_map _
        dsimp only
        rw [hlength]
        by_cases hcount : count = f.params.length
        · exact .inr (.inr ⟨f, f.renamed ρ, if_pos hcount, if_pos hcount, hf⟩)
        · exact .inl ⟨_, if_neg hcount, if_neg hcount⟩

/-! ### Expressions and statements -/

/-- What is assumed of two runs in one scope: a renaming that keeps the given variables apart, and
renamed functions. -/
structure Renames (ρ : Codes → Codes) (V : List Key) (s s' : Setting) (call call' : Caller) : Prop where
  injective : InjectiveOn ρ V
  settings : s.RenamedTo s'
  calls : call.RenamedTo call'

section

variable {ρ : Codes → Codes} {V : List Key} {s s' : Setting} {call call' : Caller} {σ : Scope}

theorem Expr.length_allRenamed (args : List Expr) :
    (Expr.allRenamed ρ args).length = args.length := by
  induction args with
  | nil => rfl
  | cons e rest ih => rw [Expr.allRenamed, List.length_cons, ih, List.length_cons]

mutual

theorem eval_renamed (h : Renames ρ V s s' call call') (hσ : σ.keys ⊆ V) : ∀ e : Expr,
    e.variables ⊆ V → RunsAlike Log.SameOut (eval s call σ e)
      (eval s' call' (σ.renamed ρ) (e.renamed ρ))
  | .lit value, _ => .pure value.value
  | .var name, hV => Scope.read_renamed h.injective hσ hV
  | .binary left op right, hV => by
    obtain ⟨hleft, hright⟩ := List.append_subset.mp hV
    rw [Expr.renamed, eval, eval]
    refine (eval_renamed h hσ left hleft).bind fun a => ?_
    exact (eval_renamed h hσ right hright).bind fun b => Eval.ofExcept_runsAlike (op.apply a b)
  | .unary op operand, hV => by
    rw [Expr.renamed, eval, eval]
    exact (eval_renamed h hσ operand hV).bind fun a => Eval.ofExcept_runsAlike (op.apply a)
  | .call name args, hV => by
    rw [Expr.renamed, eval, eval, Expr.length_allRenamed]
    rcases h.settings.callee name args.length with
      ⟨e, hc, hc'⟩ | ⟨⟨_, _, action⟩, hc, hc'⟩ | ⟨f, f', hc, hc', hf⟩
    · rw [hc, hc']
      exact .throw .same
    · rw [hc, hc']
      cases action with
      | print => exact printAll_renamed h hσ args hV
      | last => exact evalLast_renamed h hσ .null args hV
    · rw [hc, hc']
      refine (evalAll_renamed h hσ args hV).bind fun values => ?_
      exact (Eval.note_runsAlike _ _ _ _ _).bind fun _ => h.calls f f' values hf
  | .misfit node, _ => .throw .same

theorem evalAll_renamed (h : Renames ρ V s s' call call') (hσ : σ.keys ⊆ V) : ∀ args : List Expr,
    Expr.allVariables args ⊆ V → RunsAlike Log.SameOut (evalAll s call σ args)
      (evalAll s' call' (σ.renamed ρ) (Expr.allRenamed ρ args))
  | [], _ => .pure []
  | e :: rest, hV => by
    obtain ⟨he, hrest⟩ := List.append_subset.mp hV
    rw [Expr.allRenamed, evalAll, evalAll]
    refine (eval_renamed h hσ e he).bind fun value => ?_
    exact (evalAll_renamed h hσ rest hrest).bind fun values => .pure (value :: values)

theorem printAll_renamed (h : Renames ρ V s s' call call') (hσ : σ.keys ⊆ V) : ∀ args : List Expr,
    Expr.allVariables args ⊆ V → RunsAlike Log.SameOut (printAll s call σ args)
      (printAll s' call' (σ.renamed ρ) (Expr.allRenamed ρ args))
  | [], _ => by
    rw [Expr.allRenamed, printAll, printAll]
    exact (Eval.write_runsAlike _).bind fun _ => .pure _
  | [e], hV => by
    obtain ⟨he, -⟩ := List.append_subset.mp hV
    rw [Expr.allRenamed, Expr.allRenamed, printAll, printAll]
    refine (eval_renamed h hσ e he).bind fun value => ?_
    refine (Eval.write_runsAlike value.display).bind fun _ => ?_
    exact (Eval.write_runsAlike _).bind fun _ => .pure _
  | e :: next :: rest, hV => by
    obtain ⟨he, hrest⟩ := List.append_subset.mp hV
    have hnext := printAll_renamed h hσ (next :: rest) hrest
    rw [Expr.allRenamed] at hnext
    rw [Expr.allRenamed, Expr.allRenamed, printAll, printAll]
    refine (eval_renamed h hσ e he).bind fun value => ?_
    refine (Eval.write_runsAlike value.display).bind fun _ => ?_
    exact (Eval.write_runsAlike _).bind fun _ => hnext

theorem evalLast_renamed (h : Renames ρ V s s' call call') (hσ : σ.keys ⊆ V) :
    ∀ (last : Value) (args : List Expr), Expr.allVariables args ⊆ V →
      RunsAlike Log.SameOut (evalLast s call σ last args)
        (evalLast s' call' (σ.renamed ρ) last (Expr.allRenamed ρ args))
  | last, [], _ => .pure last
  | last, e :: rest, hV => by
    obtain ⟨he, hrest⟩ := List.append_subset.mp hV
    rw [Expr.allRenamed, evalLast, evalLast]
    exact (eval_renamed h hσ e he).bind fun value => evalLast_renamed h hσ value rest hrest

end

theorem startValue_renamed (h : Renames ρ V s s' call call') (hσ : σ.keys ⊆ V) {start : Option Expr}
    (hV : start.elim [] Expr.variables ⊆ V) :
    RunsAlike Log.SameOut (startValue s call σ start)
      (startValue s' call' (σ.renamed ρ) (start.map (Expr.renamed ρ))) := by
  cases start with
  | none => exact .pure _
  | some e => exact eval_renamed h hσ e hV

theorem condition_renamed (h : Renames ρ V s s' call call') {test : Expr} (hV : test.variables ⊆ V)
    (statement : String) :
    RunsAlike (Store.RenamedTo ρ V) (condition s call statement test)
      (condition s' call' statement (test.renamed ρ)) := by
  refine (Exec.ofEval_runsAlike fun σ hσ => eval_renamed h hσ test hV).bind fun value => ?_
  refine (Exec.ofEval_runsAlike fun _ _ => Eval.ofExcept_runsAlike _).bind fun holds => ?_
  exact (Exec.note_runsAlike _ _ _ _ _).bind fun _ => .pure holds

theorem loopTurn_runsAlike {R : Store → Store → Prop} {x x' : Exec Bool} {y y' : Exec Completion}
    (hx : RunsAlike R x x') (hy : RunsAlike R y y') : RunsAlike R (loopTurn x y) (loopTurn x' y') := by
  refine hx.bind fun holds => ?_
  cases holds with
  | false => exact .pure _
  | true =>
    refine hy.bind fun c => ?_
    cases c with
    | normal => exact .pure _
    | returned v => exact .pure _

/-- The turns of two loops, by induction on how many they may take. -/
theorem repeatTurns_runsAlike {R : Store → Store → Prop} {turn turn' : Exec (Option Completion)}
    (h : RunsAlike R turn turn') :
    ∀ turns, RunsAlike R (repeatTurns turn turns) (repeatTurns turn' turns) := by
  intro turns
  induction turns with
  | zero => exact .throw .same
  | succ turns ih =>
    refine h.bind fun next => ?_
    cases next with
    | some c => exact .pure c
    | none => exact ih

mutual

theorem exec_renamed (h : Renames ρ V s s' call call') : ∀ stmt : Stmt, stmt.variables ⊆ V →
    RunsAlike (Store.RenamedTo ρ V) (exec s call stmt) (exec s' call' (stmt.renamed ρ))
  | .declare tag name start, hV => by
    obtain ⟨hname, hstart⟩ := List.append_subset.mp hV
    rw [Stmt.renamed, exec, exec]
    refine (Exec.ofEval_runsAlike fun σ hσ => startValue_renamed h hσ hstart).bind fun value => ?_
    refine (Exec.update_runsAlike fun σ hσ =>
      Scope.declare_renamed h.injective hσ hname tag value).bind fun _ => ?_
    exact (Exec.note_runsAlike _ _ _ _ _).bind fun _ => .pure _
  | .assign name e, hV => by
    obtain ⟨hname, he⟩ := List.append_subset.mp hV
    rw [Stmt.renamed, exec, exec]
    refine (Exec.ofEval_runsAlike fun σ hσ => eval_renamed h hσ e he).bind fun value => ?_
    refine (Exec.update_runsAlike fun σ hσ =>
      Scope.assign_renamed h.injective hσ hname value).bind fun _ => ?_
    exact (Exec.note_runsAlike _ _ _ _ _).bind fun _ => .pure _
  | .branch test yes no, hV => by
    obtain ⟨htest, hblocks⟩ := List.append_subset.mp hV
    obtain ⟨hyes, hno⟩ := List.append_subset.mp hblocks
    rw [Stmt.renamed, exec, exec]
    refine (condition_renamed h htest "if").bind fun holds => ?_
    cases holds with
    | true => exact execBlock_renamed h yes hyes
    | false => exact execElse_renamed h no hno
  | .loop test body, hV => by
    obtain ⟨htest, hbody⟩ := List.append_subset.mp hV
    rw [Stmt.renamed, exec, exec, h.settings.turns]
    exact repeatTurns_runsAlike (loopTurn_runsAlike (condition_renamed h htest "while")
      (execBlock_renamed h body hbody)) s.turns
  | .ret e, hV => by
    rw [Stmt.renamed, exec, exec]
    refine (Exec.ofEval_runsAlike fun σ hσ => eval_renamed h hσ e hV).bind fun value => ?_
    exact (Exec.note_runsAlike _ _ _ _ _).bind fun _ => .pure _
  | .expr e, hV => by
    rw [Stmt.renamed, exec, exec]
    exact (Exec.ofEval_runsAlike fun σ hσ => eval_renamed h hσ e hV).bind fun _ => .pure _
  | .block body, hV => by
    rw [Stmt.renamed, exec, exec]
    exact execAll_renamed h body hV
  | .misfit node, _ => .throw .same

theorem execBlock_renamed (h : Renames ρ V s s' call call') : ∀ block : Block, block.variables ⊆ V →
    RunsAlike (Store.RenamedTo ρ V) (execBlock s call block) (execBlock s' call' (block.renamed ρ))
  | .stmts body, hV => execAll_renamed h body hV
  | .main body, hV => execAll_renamed h body hV
  | .absent, _ => .throw .same
  | .misfit _, _ => .throw .same

theorem execElse_renamed (h : Renames ρ V s s' call call') : ∀ block : Block, block.variables ⊆ V →
    RunsAlike (Store.RenamedTo ρ V) (execElse s call block) (execElse s' call' (block.renamed ρ))
  | .stmts body, hV => execAll_renamed h body hV
  | .main body, hV => execAll_renamed h body hV
  | .absent, _ => .pure _
  | .misfit _, _ => .throw .same

theorem execAll_renamed (h : Renames ρ V s s' call call') : ∀ body : List Stmt,
    Stmt.allVariables body ⊆ V → RunsAlike (Store.RenamedTo ρ V) (execAll s call body)
      (execAll s' call' (Stmt.allRenamed ρ body))
  | [], _ => .pure _
  | stmt :: rest, hV => by
    obtain ⟨hstmt, hrest⟩ := List.append_subset.mp hV
    rw [Stmt.allRenamed, execAll, execAll]
    refine (exec_renamed h stmt hstmt).bind fun c => ?_
    cases c with
    | normal => exact execAll_renamed h rest hrest
    | returned value => exact .pure _

end

/-! ### Calls -/

/-- The scope of a call is renamed with the parameters. -/
theorem bindParams_renamed (hρ : InjectiveOn ρ V) {params : List Param}
    (hparams : ∀ p ∈ params, p.Sorted True) (hV : params.flatMap Param.variables ⊆ V) :
    ∀ (σ : Scope) (args : List Value), σ.keys ⊆ V → ∃ σ', σ'.keys ⊆ V ∧
      bindParams σ params args = .ok σ' ∧
      bindParams (σ.renamed ρ) (params.map (Param.renamed ρ)) args = .ok (σ'.renamed ρ) := by
  induction params with
  | nil => exact fun σ args hσ => ⟨σ, hσ, rfl, rfl⟩
  | cons p params ih =>
    intro σ args hσ
    obtain ⟨hp, hrest⟩ := List.forall_mem_cons.mp hparams
    rw [List.flatMap_cons, List.append_subset] at hV
    cases args with
    | nil => exact ⟨σ, hσ, rfl, rfl⟩
    | cons v args =>
      cases p with
      | misfit node => exact absurd trivial hp
      | param tag name =>
        obtain ⟨σ₁, hσ₁⟩ : ∃ σ₁, σ.declare tag name v = .ok σ₁ := Scope.declare_ok (hp trivial).2
        have hdeclared := Scope.declare_renamed hρ hσ hV.1 tag v
        rw [hσ₁] at hdeclared
        generalize hσ₂ : (σ.renamed ρ).declare tag (name.renamed ρ) v = r at hdeclared
        cases hdeclared with
        | ok hkeys =>
          obtain ⟨σ', hσ', hbind, hbind'⟩ := ih hrest hV.2 σ₁ args hkeys
          refine ⟨σ', hσ', ?_, ?_⟩
          · simp only [bindParams, Param.binding?, hσ₁]
            exact hbind
          · simp only [List.map_cons, Param.renamed, bindParams, Param.binding?, hσ₂]
            exact hbind'

theorem callWith_renamed (hs : s.RenamedTo s') (hcall : call.RenamedTo call') :
    (callWith s call).RenamedTo (callWith s' call') := by
  rintro f _ args ⟨hsorted, ρ, hρ, rfl⟩
  obtain ⟨hparams, hbody⟩ := List.append_subset.mp (List.Subset.refl f.variables)
  obtain ⟨σ, hσ, hbind, hbind'⟩ :=
    bindParams_renamed hρ hsorted.params hparams .empty args (List.nil_subset _)
  have hframe : bindParams .empty (f.renamed ρ).params args = .ok (σ.renamed ρ) := hbind'
  rw [callWith, callWith, hbind, hframe]
  intro log log' hlog
  have hend := execBlock_renamed ⟨hρ, hs, hcall⟩ f.body hbody ⟨σ, log⟩ ⟨σ.renamed ρ, log'⟩ ⟨rfl, hσ, hlog⟩
  show EndsAlike Log.SameOut (runBody s call f σ log) (runBody s' call' (f.renamed ρ) (σ.renamed ρ) log')
  simp only [runBody, FuncDecl.renamed]
  generalize execBlock s call f.body ⟨σ, log⟩ = r,
    execBlock s' call' (f.body.renamed ρ) ⟨σ.renamed ρ, log'⟩ = r' at hend
  cases hend with
  | @ok c st st' hst =>
    cases c with
    | normal => exact .error .same hst.out
    | returned value => exact .ok hst.out
  | error he hst => exact .error he hst.out

/-- Calls, by induction on how deep they may be nested. -/
theorem callWithin_renamed (hs : s.RenamedTo s') :
    ∀ depth, (callWithin s depth).RenamedTo (callWithin s' depth) := by
  intro depth
  induction depth with
  | zero => exact fun _ _ _ _ => .throw .same
  | succ depth ih => exact callWith_renamed hs ih

end

/-! ### Runs -/

/-- A world and the renamed one. -/
structure World.RenamedTo (ρ : Codes → Codes) (V : List Key) (w w' : World) : Prop where
  functions : w.functions.RenamedTo w'.functions
  scope : w'.scope = w.scope.renamed ρ
  keys : w.scope.keys ⊆ V
  out : w.log.SameOut w'.log

namespace Interpreter

variable {ρ : Codes → Codes} {V : List Key} {i : Interpreter}

/-- A renamed function is registered under the same name. -/
theorem register_renamed {func func' : Func} (h : func.RenamedTo func') :
    RunsAlike (World.RenamedTo ρ V) (i.register func) (i.register func') := by
  obtain ⟨f, _, rfl, rfl, hf⟩ := h
  obtain ⟨key, hk⟩ := (hf.sorted.texts trivial).1.key?
  obtain ⟨ρ', hρ', rfl⟩ := hf.renamed
  intro w w' hw
  have hname : (Func.decl f).name? = some f.name := rfl
  have hname' : (Func.decl (f.renamed ρ')).name? = some f.name := rfl
  obtain ⟨log, hlog, hend⟩ := register_ok (i := i) hname hk w
  obtain ⟨log', hlog', hend'⟩ := register_ok (i := i) hname' hk w'
  rw [hend, hend']
  have hfunc : Func.RenamedTo (.decl f) (.decl (f.renamed ρ')) := ⟨f, _, rfl, rfl, hf⟩
  exact .ok ⟨hw.functions.define hfunc key f.name, hw.scope, hw.keys,
    hlog.trans (hw.out.trans hlog'.symm)⟩

theorem registerAll_renamed {functions functions' : List Func}
    (h : List.Forall₂ Func.RenamedTo functions functions') :
    RunsAlike (World.RenamedTo ρ V) (i.registerAll functions) (i.registerAll functions') := by
  induction h with
  | nil => exact .pure ()
  | cons hfunc _ ih => exact (register_renamed hfunc).bind fun _ => ih

theorem execBlock_renamed (hρ : InjectiveOn ρ V) {block : Block} (hV : block.variables ⊆ V) :
    RunsAlike (World.RenamedTo ρ V) (i.execBlock block) (i.execBlock (block.renamed ρ)) := by
  intro w w' hw
  have hsettings : (i.setting w.functions).RenamedTo (i.setting w'.functions) := ⟨rfl, rfl, hw.functions⟩
  have hend := SmallImp.execBlock_renamed ⟨hρ, hsettings, callWithin_renamed hsettings i.budget.calls⟩
    block hV ⟨w.scope, w.log⟩ ⟨w'.scope, w'.log⟩ ⟨hw.scope, hw.keys, hw.out⟩
  simp only [execBlock, inScope, caller]
  generalize SmallImp.execBlock (i.setting w.functions)
      (callWithin (i.setting w.functions) i.budget.calls) block ⟨w.scope, w.log⟩ = r,
    SmallImp.execBlock (i.setting w'.functions) (callWithin (i.setting w'.functions) i.budget.calls)
      (block.renamed ρ) ⟨w'.scope, w'.log⟩ = r' at hend
  cases hend with
  | ok hst => exact .ok ⟨hw.functions, hst.scope, hst.keys, hst.out⟩
  | error he hst => exact .error he ⟨hw.functions, hst.scope, hst.keys, hst.out⟩

/-- Without a report, no name is printed. -/
theorem runMain_renamed (hreport : i.report = false) (hρ : InjectiveOn ρ V) {block : Block}
    (hV : block.variables ⊆ V) :
    RunsAlike (World.RenamedTo ρ V) (i.runMain block) (i.runMain (block.renamed ρ)) := by
  have hpresent : RunsAlike (World.RenamedTo ρ V)
      (i.execBlock block >>= fun _ => if i.report then reportState .free else pure ())
      (i.execBlock (block.renamed ρ) >>= fun _ => if i.report then reportState .free else pure ()) := by
    rw [hreport]
    exact (execBlock_renamed hρ hV).bind fun _ => .pure ()
  cases block with
  | absent => exact .pure ()
  | _ => exact hpresent

theorem run_renamed (hreport : i.report = false) {p p' : Program}
    (hfunctions : List.Forall₂ Func.RenamedTo p.functions p'.functions)
    (hρ : InjectiveOn ρ p.main.variables) (hmain : p'.main = p.main.renamed ρ) :
    RunsAlike (World.RenamedTo ρ p.main.variables) (i.run p) (i.run p') := by
  have hparts : RunsAlike (World.RenamedTo ρ p.main.variables) (i.runParts p) (i.runParts p') := by
    rw [runParts, runParts, hmain]
    exact (registerAll_renamed hfunctions).bind fun _ =>
      runMain_renamed hreport hρ (List.Subset.refl _)
  intro w w' hw
  have hend := hparts w w' hw
  rw [run, run]
  generalize i.runParts p w = r, i.runParts p' w' = r' at hend
  cases hend with
  | ok hw => exact .ok hw
  | error he hw =>
    cases he with
    | same => exact .error .same hw
    | unbound => exact .error .unbound hw

end Interpreter

/-- The functions of a well-sorted program, each under its own renaming. -/
theorem Program.WellSorted.functions_renamed {p : Program} (hp : p.WellSorted)
    {parts : Nat → Codes → Codes} (hparts : ∀ n f, p.functions[n]? = some (.decl f) →
      InjectiveOn (parts n) f.variables) (main : Codes → Codes) :
    List.Forall₂ Func.RenamedTo p.functions (p.renamed main parts).functions := by
  refine List.forall₂_iff_get.mpr ⟨List.length_mapIdx.symm, ?_⟩
  intro n hn hn'
  have hget : (p.renamed main parts).functions.get ⟨n, hn'⟩ =
      (p.functions.get ⟨n, hn⟩).renamed (parts n) := List.getElem_mapIdx ..
  have hsorted := hp.functions _ (List.get_mem p.functions ⟨n, hn⟩)
  have hfunc : p.functions[n]? = some (p.functions.get ⟨n, hn⟩) := List.getElem?_eq_getElem hn
  rw [hget]
  generalize p.functions.get ⟨n, hn⟩ = func at hsorted hfunc
  cases func with
  | misfit node => exact absurd trivial hsorted
  | decl f => exact ⟨f, f.renamed (parts n), rfl, rfl, hsorted, parts n, hparts n f hfunc, rfl⟩

/-- A run that ends for lack of calls or of turns. -/
def OutOfBudget (r : EStateM.Result Failure World Unit) : Prop :=
  ∃ w, r = .error (.error .callDepth) w ∨ r = .error (.exhausted .turns) w

theorem EndsAlike.outOfBudget {R : World → World → Prop} {r r' : EStateM.Result Failure World Unit}
    (h : EndsAlike R r r') : OutOfBudget r ↔ OutOfBudget r' := by
  cases h with
  | ok h => simp [OutOfBudget]
  | error he h =>
    cases he with
    | same => simp [OutOfBudget, exists_or]
    | unbound => simp [OutOfBudget]

/-- **Renaming changes nothing but names.** Let the main block and each function of a well-sorted
program have a renaming of its own, which keeps the variables of this part apart. In every budget and
whatever is traced, the program and the renamed one, run in an empty world without a report, end
alike: both succeed, or both fail with the same error, or both with an unbound variable. They print
the same, and the variables of the renamed run are the renamed variables of the other one, in the same
order, with the same values and types. So one of them needs more than any budget just when the other
does. -/
theorem renaming_invariant {p : Program} (hp : p.WellSorted) {main : Codes → Codes}
    {parts : Nat → Codes → Codes} (hmain : InjectiveOn main p.main.variables)
    (hparts : ∀ n f, p.functions[n]? = some (.decl f) → InjectiveOn (parts n) f.variables)
    (d : Nat) :
    (∀ b, EndsAlike (fun w w' : World => w'.log.out = w.log.out ∧
        w'.scope.values = w.scope.values.map (fun row => (row.1.renamed main, row.2)) ∧
        w'.scope.tags = w.scope.tags.map fun row => (row.1.renamed main, row.2))
      ((Interpreter.fresh d false b).run p .empty)
      ((Interpreter.fresh d false b).run (p.renamed main parts) .empty)) ∧
    ((∀ b, OutOfBudget ((Interpreter.fresh d false b).run p .empty)) ↔
      ∀ b, OutOfBudget ((Interpreter.fresh d false b).run (p.renamed main parts) .empty)) := by
  have hempty : World.RenamedTo main p.main.variables .empty .empty :=
    ⟨fun _ => .none, rfl, List.nil_subset _, rfl⟩
  have hruns : ∀ b, EndsAlike (World.RenamedTo main p.main.variables)
      ((Interpreter.fresh d false b).run p .empty)
      ((Interpreter.fresh d false b).run (p.renamed main parts) .empty) := by
    intro b
    exact Interpreter.run_renamed rfl (hp.functions_renamed hparts main) hmain rfl _ _ hempty
  refine ⟨fun b => (hruns b).mono fun w w' h => ?_, forall_congr' fun b => (hruns b).outOfBudget⟩
  rw [h.scope]
  exact ⟨h.out.symm, Scope.values_renamed main w.scope, Scope.tags_renamed main w.scope⟩

/-- A function with a parameter and a local variable, called from a main block that assigns a variable
which it never declared. -/
def successorProgram : Program :=
  ⟨[.decl ⟨.str "next", .str "int", [.param (.str "int") (.str "a")], .stmts
      [.declare (.str "int") (.str "b") (some (.binary (.var (.str "a")) .add (.lit (.int 1)))),
        .ret (.var (.str "b"))]⟩],
    .main [.declare (.str "int") (.str "a") (some (.call (.str "next") [.lit (.int 2)])),
      .expr (.call (.str "print") [.var (.str "a")]), .assign (.str "c") (.var (.str "a"))]⟩

/-- A renaming that keeps two names apart does so for all variables among them. -/
theorem InjectiveOn.of_pair {ρ : Codes → Codes} {V : List Key} {x y : Codes}
    (hV : V ⊆ [.str x, .str y]) (hne : ρ x ≠ ρ y) : InjectiveOn ρ V := by
  intro a b ha hb heq
  have hpair : ∀ c, .str c ∈ V → c = x ∨ c = y := fun c hc => by simpa using hV hc
  rcases hpair a ha with rfl | rfl <;> rcases hpair b hb with rfl | rfl
  · rfl
  · exact absurd heq hne
  · exact absurd heq.symm hne
  · rfl

/-- The function exchanges its variables, and the main block calls `c` what was `a` elsewhere. -/
theorem renaming_invariant_successorProgram :
    let main : Codes → Codes := fun s => if s = "c" then "a" else "x"
    let parts : Nat → Codes → Codes := fun _ s => if s = "a" then "b" else "a"
    let i := Interpreter.fresh 0 false .standard
    successorProgram.WellSorted ∧ InjectiveOn main successorProgram.main.variables ∧
    (∀ n f, successorProgram.functions[n]? = some (.decl f) → InjectiveOn (parts n) f.variables) ∧
    ∃ w w', i.run successorProgram .empty = .error (.error (.unbound (.str "c"))) w ∧
      i.run (successorProgram.renamed main parts) .empty = .error (.error (.unbound (.str "a"))) w' ∧
      w'.log.out = w.log.out ∧
      w'.scope.values = w.scope.values.map (fun row => (row.1.renamed main, row.2)) ∧
      w'.scope.tags = w.scope.tags.map fun row => (row.1.renamed main, row.2) := by
  intro main parts i
  have hsorted : successorProgram.WellSorted := by
    constructor
    · simp only [successorProgram, List.forall_mem_singleton, Func.Sorted]
      constructor <;>
        simp [Json.IsText, Param.Sorted, Block.Sorted, Stmt.AllSorted, Stmt.Sorted, Expr.Sorted,
          Literal.InRange, InRange, minInt, maxInt]
    · simp [successorProgram, Block.MainSorted, Json.IsText, Stmt.AllSorted, Stmt.Sorted,
        Expr.Sorted, Expr.AllSorted, Literal.InRange, InRange, minInt, maxInt]
  have hmain : InjectiveOn main successorProgram.main.variables := by
    refine InjectiveOn.of_pair (x := "a") (y := "c") ?_ (by decide)
    simp [successorProgram, Block.variables, Stmt.allVariables, Stmt.variables, Expr.variables,
      Expr.allVariables, Json.key?]
  have hparts : ∀ n f, successorProgram.functions[n]? = some (.decl f) →
      InjectiveOn (parts n) f.variables := by
    intro n f hf
    obtain ⟨rfl, rfl⟩ : n = 0 ∧ _ = f := by simpa [successorProgram, List.getElem?_singleton] using hf
    refine InjectiveOn.of_pair (x := "a") (y := "b") ?_ (by decide)
    simp [FuncDecl.variables, Param.variables, Block.variables, Stmt.allVariables, Stmt.variables,
      Expr.variables, Json.key?]
  have hends := (renaming_invariant hsorted hmain hparts 0).1 .standard
  refine ⟨hsorted, hmain, hparts, ?_⟩
  have h : ∃ w, i.run successorProgram .empty = .error (.error (.unbound (.str "c"))) w := ⟨_, rfl⟩
  have h' : ∃ w, i.run (successorProgram.renamed main parts) .empty =
    .error (.error (.unbound (.str "a"))) w := ⟨_, rfl⟩
  obtain ⟨w, hw⟩ := h
  obtain ⟨w', hw'⟩ := h'
  rw [hw, hw'] at hends
  cases hends with
  | error _ h => exact ⟨w, w', hw, hw', h⟩

end SmallImp
