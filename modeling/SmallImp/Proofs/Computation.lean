import SmallImp.Machine.Run

/-!
# Reasoning about computations

Evaluations, executions and runs are computations with a state that may fail. This module has the
two ways in which the rest of the theory speaks about them.

* `Ensures x st Q E` — from the state `st`, the computation `x` ends with a result and a state of
  which `Q` holds, or with a failure and a state of which `E` holds;
* `CutShort x y` — from every state, `x` runs out of its budget or does exactly what `y` does.

Each comes with one lemma for every way in which computations are put together.
-/

namespace SmallImp

variable {ε σ τ α β : Type}

/-! ### Steps of a computation -/

theorem bind_of_ok {x : EStateM ε σ α} {f : α → EStateM ε σ β} {st st' : σ} {a : α}
    (h : x st = .ok a st') : (x >>= f) st = f a st' := by
  show EStateM.bind x f st = f a st'
  rw [EStateM.bind, h]

theorem bind_of_error {x : EStateM ε σ α} {f : α → EStateM ε σ β} {st st' : σ} {e : ε}
    (h : x st = .error e st') : (x >>= f) st = .error e st' := by
  show EStateM.bind x f st = .error e st'
  rw [EStateM.bind, h]

/-! ### What a computation ensures -/

/-- From a state, a computation ends with a result and a state that satisfy `Q`, or with a failure
and a state that satisfy `E`. -/
def Ensures (x : EStateM ε σ α) (st : σ) (Q : α → σ → Prop) (E : ε → σ → Prop) : Prop :=
  match x st with
  | .ok a st' => Q a st'
  | .error e st' => E e st'

namespace Ensures

variable {x : EStateM ε σ α} {st : σ} {Q : α → σ → Prop} {E : ε → σ → Prop}

theorem ok {a : α} {st' : σ} (h : Ensures x st Q E) (hx : x st = .ok a st') : Q a st' := by
  rw [Ensures, hx] at h
  exact h

theorem error {e : ε} {st' : σ} (h : Ensures x st Q E) (hx : x st = .error e st') : E e st' := by
  rw [Ensures, hx] at h
  exact h

theorem intro (hok : ∀ a st', x st = .ok a st' → Q a st')
    (herror : ∀ e st', x st = .error e st' → E e st') : Ensures x st Q E := by
  rw [Ensures]
  cases hx : x st with
  | ok a st' => exact hok a st' hx
  | error e st' => exact herror e st' hx

theorem pure {a : α} (h : Q a st) : Ensures (Pure.pure a) st Q E := h

theorem weaken {Q' : α → σ → Prop} {E' : ε → σ → Prop} (h : Ensures x st Q E)
    (hQ : ∀ a st', Q a st' → Q' a st') (hE : ∀ e st', E e st' → E' e st') :
    Ensures x st Q' E' :=
  .intro (fun a st' hx => hQ a st' (h.ok hx)) fun e st' hx => hE e st' (h.error hx)

/-- A computation followed by another one; the failures of the first count as failures of both. -/
theorem bind {f : α → EStateM ε σ β} {Q' : β → σ → Prop} {E' : ε → σ → Prop}
    (hx : Ensures x st Q E) (hE : ∀ e st', E e st' → E' e st')
    (hf : ∀ a st', Q a st' → Ensures (f a) st' Q' E') : Ensures (x >>= f) st Q' E' := by
  cases h : x st with
  | ok a st' =>
    have hfa := hf a st' (hx.ok h)
    rw [Ensures] at hfa ⊢
    rw [bind_of_ok h]
    exact hfa
  | error e st' =>
    rw [Ensures, bind_of_error h]
    exact hE e st' (hx.error h)

/-- A computation followed by another one, each looked at where it is started. -/
theorem steps {f : α → EStateM ε σ β} {Q' : β → σ → Prop}
    (herror : ∀ e st', x st = .error e st' → E e st')
    (hok : ∀ a st', x st = .ok a st' → Ensures (f a) st' Q' E) : Ensures (x >>= f) st Q' E :=
  (Ensures.intro (fun _ _ hx => hx) herror).bind (fun _ _ he => he) hok

theorem map {g : α → β} {Q' : β → σ → Prop} (h : Ensures x st Q E)
    (hQ : ∀ a st', Q a st' → Q' (g a) st') : Ensures (g <$> x) st Q' E := by
  rw [map_eq_pure_bind]
  exact h.bind (fun _ _ he => he) fun a st' ha => .pure (hQ a st' ha)

end Ensures

@[simp] theorem Encoding.takes_any (text : Codes) : Encoding.takes .any text := rfl

/-- A computation without output keeps the state. -/
theorem Ensures.ofExcept {r : Except Failure α} {log : Log} {Q : α → Log → Prop}
    {E : Failure → Log → Prop} (hok : ∀ a, r = .ok a → Q a log)
    (herror : ∀ e, r = .error e → E e log) : Ensures (Eval.ofExcept r) log Q E := by
  cases r with
  | ok a => exact hok a rfl
  | error e => exact herror e rfl

/-- A computation without output, and what is evaluated after it. -/
theorem Ensures.bindExcept {r : Except Failure α} {f : α → Eval β} {log : Log} {Q : β → Log → Prop}
    {E : Failure → Log → Prop} (herror : ∀ e, r = .error e → E e log)
    (hok : ∀ a, r = .ok a → Ensures (f a) log Q E) : Ensures (Eval.ofExcept r >>= f) log Q E := by
  cases r with
  | ok a => exact hok a rfl
  | error e => exact herror e rfl

/-- Whether a line is traced or not, the printed text is the same. -/
theorem Ensures.bindEvalNote {verbosity level : Nat} {line : Codes} {log : Log} {g : Eval β}
    {Q : β → Log → Prop} {E : Failure → Log → Prop}
    (h : ∀ log', log'.out = log.out → Ensures g log' Q E) :
    Ensures (Eval.note .any verbosity level line >>= fun _ => g) log Q E := by
  rw [Eval.note]
  split
  · exact h (log.note line) rfl
  · exact h log rfl

/-- An evaluation within an execution keeps the scope. -/
theorem Ensures.ofEval {f : Scope → Eval α} {st : Store} {Q : α → Log → Prop}
    {E : Failure → Log → Prop} {Q' : α → Store → Prop} {E' : Failure → Store → Prop}
    (h : Ensures (f st.scope) st.log Q E) (hQ : ∀ a log, Q a log → Q' a { st with log })
    (hE : ∀ e log, E e log → E' e { st with log }) : Ensures (Exec.ofEval f) st Q' E' := by
  rw [Ensures, Exec.ofEval]
  cases hf : f st.scope st.log with
  | ok a log => exact hQ a log (h.ok hf)
  | error e log => exact hE e log (h.error hf)

/-- An evaluation and what is executed after it. -/
theorem Ensures.bindEval {f : Scope → Eval α} {g : α → Exec β} {st : Store} {Q : α → Log → Prop}
    {E : Failure → Log → Prop} {Q' : β → Store → Prop} {E' : Failure → Store → Prop}
    (h : Ensures (f st.scope) st.log Q E) (hE : ∀ e log, E e log → E' e { st with log })
    (hg : ∀ a log, Q a log → Ensures (g a) { st with log } Q' E') :
    Ensures (Exec.ofEval f >>= g) st Q' E' := by
  refine Ensures.bind (Q := fun a st' => ∃ log, st' = { st with log } ∧ Q a log)
    (E := E') (.ofEval h (fun a log ha => ⟨log, rfl, ha⟩) hE) (fun _ _ he => he) ?_
  rintro a _ ⟨log, rfl, ha⟩
  exact hg a log ha

/-- An evaluation and what is executed after it, each looked at where it is started. -/
theorem Ensures.stepsEval {f : Scope → Eval α} {g : α → Exec β} {st : Store}
    {Q : β → Store → Prop} {E : Failure → Store → Prop}
    (herror : ∀ e log, f st.scope st.log = .error e log → E e { st with log })
    (hok : ∀ a log, f st.scope st.log = .ok a log → Ensures (g a) { st with log } Q E) :
    Ensures (Exec.ofEval f >>= g) st Q E :=
  .bindEval (.intro (fun _ _ ha => ha) fun _ _ he => he) herror hok

/-- A change of the scope and what is executed after it. A refused change keeps everything. -/
theorem Ensures.bindUpdate {f : Scope → Except Failure Scope} {g : Exec β} {st : Store}
    {Q : β → Store → Prop} {E : Failure → Store → Prop}
    (hok : ∀ scope, f st.scope = .ok scope → Ensures g { st with scope } Q E)
    (herror : ∀ e, f st.scope = .error e → E e st) :
    Ensures (Exec.update f >>= fun _ => g) st Q E := by
  cases hf : f st.scope with
  | ok scope =>
    have hupdate : Exec.update f st = .ok () { st with scope } := by rw [Exec.update, hf]
    rw [Ensures, bind_of_ok hupdate]
    exact hok scope hf
  | error e =>
    have hupdate : Exec.update f st = .error e st := by rw [Exec.update, hf]
    rw [Ensures, bind_of_error hupdate]
    exact herror e hf

/-- Whether a line is traced or not, the scope and the printed text are the same. -/
theorem Ensures.bindNote {verbosity level : Nat} {line : Codes} {st : Store} {g : Exec β}
    {Q : β → Store → Prop} {E : Failure → Store → Prop}
    (h : ∀ log, log.out = st.log.out → Ensures g { st with log } Q E) :
    Ensures (Exec.note .any verbosity level line >>= fun _ => g) st Q E := by
  rw [Exec.note]
  split
  · exact h (st.log.note line) rfl
  · exact h st.log rfl

/-! ### Reports -/

/-- What a report of the variables of a scope prints: a title, and a line for each variable. -/
def Interpreter.reportText (scope : Scope) : Codes :=
  "\n=== Program State ===\n" ++ scope.values.flatMap fun row => reportLine row.1 row.2

theorem Log.write_write (log : Log) (text more : Codes) :
    (log.write text).write more = log.write (text ++ more) := by
  simp [Log.write]

theorem Interpreter.reportAll_free (rows : List (Name × Value)) : ∀ w : World,
    reportAll .free rows w =
      .ok () { w with log := w.log.write (rows.flatMap fun row => reportLine row.1 row.2) } := by
  induction rows with
  | nil => simp [reportAll, Log.write, pure, EStateM.pure]
  | cons row rest ih =>
    intro w
    have hrow : write .free (reportLine row.1 row.2) w =
        .ok () { w with log := w.log.write (reportLine row.1 row.2) } := rfl
    rw [reportAll, bind_of_ok hrow, ih, Log.write_write, List.flatMap_cons]

/-- On streams that take every text, a report is printed as a whole. -/
theorem Interpreter.reportState_free (w : World) :
    reportState .free w = .ok () { w with log := w.log.write (reportText w.scope) } := by
  have htitle : write .free "\n=== Program State ===\n" w =
      .ok () { w with log := w.log.write "\n=== Program State ===\n" } := rfl
  rw [reportState, bind_of_ok htitle]
  show reportAll .free w.scope.values _ = _
  rw [reportAll_free, Log.write_write]
  rfl

/-! ### Computations cut short -/

/-- From every state the first computation runs out of its budget, or does what the second does. -/
def CutShort (x y : EStateM Failure σ α) : Prop :=
  ∀ st, (∃ resource st', x st = .error (.exhausted resource) st') ∨ x st = y st

namespace CutShort

theorem refl (x : EStateM Failure σ α) : CutShort x x := fun _ => .inr rfl

theorem exhausted (resource : Resource) (y : EStateM Failure σ α) :
    CutShort (throw (.exhausted resource)) y := fun st => .inl ⟨resource, st, rfl⟩

theorem bind {x y : EStateM Failure σ α} {f g : α → EStateM Failure σ β} (hx : CutShort x y)
    (hf : ∀ a, CutShort (f a) (g a)) : CutShort (x >>= f) (y >>= g) := by
  intro st
  rcases hx st with ⟨resource, st', h⟩ | h
  · exact .inl ⟨resource, st', bind_of_error h⟩
  · cases hy : y st with
    | ok a st' =>
      rw [bind_of_ok (h.trans hy), bind_of_ok hy]
      exact hf a st'
    | error e st' =>
      rw [bind_of_error (h.trans hy), bind_of_error hy]
      exact .inr rfl

theorem map {x y : EStateM Failure σ α} (g : α → β) (h : CutShort x y) :
    CutShort (g <$> x) (g <$> y) := by
  rw [map_eq_pure_bind, map_eq_pure_bind]
  exact h.bind fun a => refl (pure (g a))

theorem ofEval {f g : Scope → Eval α} (h : ∀ scope, CutShort (f scope) (g scope)) :
    CutShort (Exec.ofEval f) (Exec.ofEval g) := by
  intro st
  rcases h st.scope st.log with ⟨resource, log, hf⟩ | hf
  · exact .inl ⟨resource, { st with log }, by rw [Exec.ofEval, hf]⟩
  · exact .inr (by rw [Exec.ofEval, Exec.ofEval, hf])

/-- A computation cut short that did not run out of its budget did what the whole one does. -/
theorem eq_of_ended {x y : EStateM Failure σ α} (h : CutShort x y) {st : σ}
    (hended : ∀ resource st', x st ≠ .error (.exhausted resource) st') : y st = x st := by
  rcases h st with ⟨resource, st', hx⟩ | hx
  · exact absurd hx (hended resource st')
  · exact hx.symm

end CutShort

end SmallImp
