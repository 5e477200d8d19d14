import SmallImp.Proofs.EmitRun
import SmallImp.Proofs.FailurePoints
import SmallImp.Proofs.RunSafety
import SmallImp.Proofs.TreeSorts

/-!
# What is reported of a tree in a file

The tree in a document may have a part of the wrong kind, or a name that is none, in any place. Such a
part does no harm until a run comes to it; then the run breaks off, and the command with it. So do a
surrogate that the run prints, a text that is no document or is nested too deeply, and an integer that
is too large for a float literal. Everything else is reported.

* `Misplaced` — the points at which a part of the wrong kind is needed;
* `Raises.defect_iff` — the defects of a run are raised there;
* `Interpreter.MeetsMisfit`, `Interpreter.run_defect_iff` — runs that break off;
* `Reportable`, `Report.Reported` — texts of documents, and what the command says of them;
* `Command.tree_file_reported_iff` — which tree files are reported.
-/

namespace SmallImp

/-! ### Parts of the wrong kind -/

/-- The task of a point needs a part that is missing or of another kind, or a name that is a list or an
object. -/
inductive Misplaced (s : Setting) : Point → Prop where
  -- expressions and statements
  | expression {d node st} : Misplaced s ⟨d, .eval (.misfit node), st⟩
  | statement {d node st} : Misplaced s ⟨d, .exec (.misfit node), st⟩
  -- names
  | variableName {d name st} (h : Json.key? name = none) : Misplaced s ⟨d, .eval (.var name), st⟩
  | calledName {d name args st} (h : Json.key? name = none) :
      Misplaced s ⟨d, .eval (.call name args), st⟩
  | declaredName {d tag name start σ log v log'}
      (hv : startValue s (callWithin s d) σ start log = .ok v log') (h : Json.key? name = none) :
      Misplaced s ⟨d, .exec (.declare tag name start), ⟨σ, log⟩⟩
  | assignedName {d name value σ log v log'}
      (hv : eval s (callWithin s d) σ value log = .ok v log') (h : Json.key? name = none) :
      Misplaced s ⟨d, .exec (.assign name value), ⟨σ, log⟩⟩
  -- functions
  | callee {d name key args first node st} (hk : Json.key? name = some key)
      (hb : s.builtins.find? key = none) (hf : s.functions.find? key = some ⟨first, .misfit node⟩) :
      Misplaced s ⟨d, .eval (.call name args), st⟩
  | params {d f args st} (h : ∀ frame, bindParams .empty f.params args ≠ .ok frame) :
      Misplaced s ⟨d + 1, .call f args, st⟩
  | body {d f args frame st} (hb : bindParams .empty f.params args = .ok frame)
      (hs : f.body.statements? = none) : Misplaced s ⟨d + 1, .call f args, st⟩
  -- blocks
  | yes {d test yes no st st'} (h : condition s (callWithin s d) "if" test st = .ok true st')
      (hs : Block.statements? yes = none) : Misplaced s ⟨d, .exec (.branch test yes no), st⟩
  | no {d test yes no st st'} (h : condition s (callWithin s d) "if" test st = .ok false st')
      (hs : Block.statements? no = none) (hno : no ≠ .absent) :
      Misplaced s ⟨d, .exec (.branch test yes no), st⟩
  | turn {d test block st st'} (h : condition s (callWithin s d) "while" test st = .ok true st')
      (hs : Block.statements? block = none) : Misplaced s ⟨d, .exec (.loop test block), st⟩

section Defects

variable {s : Setting} {name : Name} {σ : Scope} {d : Defect}

theorem Scope.read_defect (h : σ.read name = .error (.defect d)) : Json.key? name = none := by
  cases hk : Json.key? name with
  | none => rfl
  | some key =>
    rw [read_eq hk] at h
    split at h <;> cases h

theorem Scope.declare_defect {tag : TypeTag} {v : Value}
    (h : σ.declare tag name v = .error (.defect d)) : Json.key? name = none := by
  cases hk : Json.key? name with
  | none => rfl
  | some key =>
    rw [declare_eq hk] at h
    cases h

theorem Scope.assign_defect {v : Value} (h : σ.assign name v = .error (.defect d)) :
    Json.key? name = none := by
  cases hk : Json.key? name with
  | none => rfl
  | some key =>
    rw [assign_eq hk] at h
    split at h <;> cases h

theorem callee_defect {count : Nat} (h : s.callee name count = .error (.defect d)) :
    Json.key? name = none ∨ ∃ key first node, Json.key? name = some key ∧
      s.builtins.find? key = none ∧ s.functions.find? key = some ⟨first, .misfit node⟩ := by
  cases hk : Json.key? name with
  | none => exact .inl rfl
  | some key =>
    rw [callee_eq hk] at h
    split at h
    · split at h <;> cases h
    next hb =>
      split at h
      · cases h
      next first node hf => exact .inr ⟨key, first, node, rfl, hb, hf⟩
      · split at h <;> cases h

theorem Value.condition_ne_defect (v : Value) (statement : String) (d : Defect) :
    v.condition statement ≠ .error (.defect d) := by
  cases v <;> exact nofun

end Defects

/-- **Defects are raised where a part of the wrong kind is needed,** if the integers at hand fit in 64
bits. -/
theorem Raises.defect_iff {s : Setting} {point : Point} (hs : s.functions.Sorted False)
    (hsafe : point.Safe False) : (∃ d, Raises s point (.defect d)) ↔ Misplaced s point := by
  constructor
  · rintro ⟨d, h⟩
    obtain ⟨htask, hscope⟩ := hsafe
    cases h with
    | var h => exact .variableName (Scope.read_defect h)
    | binary hl hr h =>
      -- an integer that fits in 64 bits is not too large for a float
      have hcall := callWithin_safe hs
      have ha := (eval_safe hs (hcall _) hscope _ htask.1 _).ok hl
      have hb := (eval_safe hs (hcall _) hscope _ htask.2 _).ok hr
      exact (BinaryOp.apply_ordinary ha hb h).elim
    | unary ha h => exact (UnaryOp.apply_ordinary h).elim
    | callee h =>
      rcases callee_defect h with hk | ⟨key, first, node, hk, hb, hf⟩
      · exact .calledName hk
      · exact .callee hk hb hf
    | notExpression => exact .expression
    | params h => exact .params fun frame hframe => by rw [h] at hframe; cases hframe
    | noBody hb hs => exact .body hb hs
    | declare hv h => exact .declaredName hv (Scope.declare_defect h)
    | assign hv h => exact .assignedName hv (Scope.assign_defect h)
    | branchTest hv h => exact absurd h (Value.condition_ne_defect _ _ _)
    | noYes h hs => exact .yes h hs
    | noNo h hs hno => exact .no h hs hno
    | loopTest hv h => exact absurd h (Value.condition_ne_defect _ _ _)
    | noTurn h hs => exact .turn h hs
    | notStatement => exact .statement
  · intro h
    cases h with
    | expression => exact ⟨_, .notExpression⟩
    | statement => exact ⟨_, .notStatement⟩
    | variableName h => exact ⟨_, .var (Scope.read_unusable h)⟩
    | calledName h => exact ⟨_, .callee (callee_unusable h)⟩
    | declaredName hv h => exact ⟨_, .declare hv (Scope.declare_unusable h _ _)⟩
    | assignedName hv h => exact ⟨_, .assign hv (Scope.assign_unusable h _)⟩
    | callee hk hb hf =>
      refine ⟨.missingField, .callee ?_⟩
      rw [callee_eq hk, hb, hf]
    | @params d f args st h =>
      cases hframe : bindParams .empty f.params args with
      | ok frame => exact absurd hframe (h frame)
      | error e =>
        obtain ⟨d, rfl⟩ := bindParams_error hframe
        exact ⟨d, .params hframe⟩
    | body hb hs => exact ⟨_, .noBody hb hs⟩
    | yes h hs => exact ⟨_, .noYes h hs⟩
    | no h hs hno => exact ⟨_, .noNo h hs hno⟩
    | turn h hs => exact ⟨_, .noTurn h hs⟩

/-! ### Runs that break off -/

namespace Interpreter

variable {i : Interpreter} {p : Program}

/-- The run of a program meets a part of the wrong kind: a function without a name, a main block that is
none, or a point at which such a part is needed. -/
def MeetsMisfit (i : Interpreter) (p : Program) : Prop :=
  (∃ func ∈ p.functions, func.Nameless) ∨ (∃ node, p.main = .misfit node) ∨
    ∃ functions point, i.Reaches p .empty functions point ∧ Misplaced (i.setting functions) point

theorem runFailure_eq_defect {e : Failure} {d : Defect} (h : runFailure e = .defect d) :
    e = .defect d := by
  cases e with
  | error err => cases h
  | defect d' => exact h
  | unencodable => cases h
  | exhausted resource => cases resource <;> cases h

/-- A run with something else in the place of the main block fails. -/
theorem run_of_misfit_main {node : Node} (h : p.main = .misfit node) (w : World) :
    ∃ d w', i.run p w = .error (.defect d) w' := by
  rcases registers_or_nameless p.functions w.functions with ⟨table, hreg⟩ | hnameless
  · obtain ⟨log, -, hrun⟩ := run_of_registers (i := i) hreg
    exact ⟨.missingField, _, by rw [hrun, h]; rfl⟩
  · exact run_of_nameless hnameless w

/-- On free streams nothing fails to be encoded. -/
theorem run_ne_unencodable (i : Interpreter) (p : Program) (w : World) :
    i.run p .empty ≠ .error .unencodable w := by
  intro h
  rcases run_error_cases h with hnameless | ⟨node, hmain⟩ | ⟨functions, point, e₀, -, hraises, he⟩
  · obtain ⟨d, w', h'⟩ := run_of_nameless (i := i) hnameless .empty
    cases h.symm.trans h'
  · obtain ⟨d, w', h'⟩ := run_of_misfit_main (i := i) hmain .empty
    cases h.symm.trans h'
  · cases e₀ with
    | unencodable =>
      rcases hraises.classify with himmediate | ⟨_, _, _, _, _, _, _, -, -, -, h'⟩ |
        ⟨_, _, _, -, h'⟩ | ⟨_, _, _, _, -, h'⟩
      · exact himmediate
      · cases h'
      · cases h'
      · cases h'
    | error err => cases he
    | defect d => cases he
    | exhausted resource => cases resource <;> cases he

/-- **A run breaks off just when it meets a part of the wrong kind,** unless it runs out of turns. -/
theorem run_defect_iff (hp : p.Bounded)
    (hended : ∀ w, i.run p .empty ≠ .error (.exhausted .turns) w) :
    (∃ d w, i.run p .empty = .error (.defect d) w) ↔ i.MeetsMisfit p := by
  constructor
  · rintro ⟨d, w, h⟩
    rcases run_error_cases h with hnameless | hmain | ⟨functions, point, e₀, hreach, hraises, he⟩
    · exact .inl hnameless
    · exact .inr (.inl hmain)
    · obtain ⟨hfunctions, hsafe⟩ := hreach.safe hp .empty
      rw [runFailure_eq_defect he.symm] at hraises
      exact .inr (.inr ⟨functions, point, hreach, (Raises.defect_iff hfunctions hsafe).mp ⟨d, hraises⟩⟩)
  · rintro (hnameless | ⟨node, hmain⟩ | ⟨functions, point, hreach, hmisplaced⟩)
    · exact run_of_nameless hnameless .empty
    · exact run_of_misfit_main hmain .empty
    · obtain ⟨hfunctions, hsafe⟩ := hreach.safe hp .empty
      obtain ⟨d, hraises⟩ := (Raises.defect_iff hfunctions hsafe).mpr hmisplaced
      have hends := hreach.endsIn hraises nofun
      cases hx : i.run p .empty with
      | ok u w => exact (hends.ok hx).elim
      | error e w =>
        rcases hends.error hx with rfl | rfl
        · exact ⟨d, w, rfl⟩
        · exact absurd hx (hended w)

end Interpreter

/-! ### Documents -/

/-- The text of a document that the host can read, as it is not nested too deeply, and that is refused as
a tree, but not for an integer that is too large for a float, or holds a program whose run meets no part
of the wrong kind and writes nothing that cannot be encoded. -/
def Reportable [Host] (i : Interpreter .utf8) (text : String) : Prop :=
  ∃ json, Json.read text = .ok json ∧
    ((∃ fault, Node.ofJson json = .error fault ∧ fault ≠ .tooLarge) ∨
      ∃ node p, Node.ofJson json = .ok node ∧ Program.ofNode? node = some p ∧
        ¬(i.on .free).MeetsMisfit p ∧ (i.freeLog p).Fits .utf8)

/-- The command has run a tree file, or says why not: the file is invalid, or the run failed. -/
def Report.Reported (path : Path) (r : Report) : Prop :=
  (r.exit = .status 0 ∧ r.err = "") ∨
  (r.exit = .status 1 ∧ ∃ detail,
    r.err = "Error: invalid AST file " ++ path.text ++ ": " ++ detail ++ "\n" ∨
      r.err = "Runtime error: " ++ detail ++ "\n")

theorem Report.Reported.exists_status {path : Path} {r : Report} (h : r.Reported path) :
    ∃ code, r.exit = .status code := by
  rcases h with ⟨hexit, -⟩ | ⟨hexit, -⟩
  · exact ⟨0, hexit⟩
  · exact ⟨1, hexit⟩

theorem Report.not_reported {path : Path} {r : Report} {problem : Problem}
    (h : r.exit = .crash problem) : ¬r.Reported path := by
  intro hreported
  obtain ⟨code, hcode⟩ := hreported.exists_status
  cases h.symm.trans hcode

namespace Command

/-- What the command says of the end of a run. -/
def runReport (files : FileTree) : EStateM.Result Failure World Unit → Report
  | .ok () w => ⟨.status 0, w.log.out, "", files⟩
  | .error (.error e) w => ⟨.status 1, w.log.out, "Runtime error: " ++ e.report.escaped ++ "\n", files⟩
  | .error e w => ⟨.crash (.run e), w.log.out, "", files⟩

theorem runReport_ended {files : FileTree} {r : EStateM.Result Failure World Unit}
    (h : (runReport files r).exit ≠ .crash (.run (.exhausted .turns))) (w : World) :
    r ≠ .error (.exhausted .turns) w := by
  rintro rfl
  exact h rfl

/-- Without a trace, the command runs the tree and leaves the files alone. -/
theorem execute_untraced {options : Options} (h : options.verbosity = 0) (files : FileTree)
    (action : Interpreter .utf8 → Run Unit) :
    execute options files action =
      runReport files (action (Batch.interpreter 0 options.report) .empty) := by
  have hrun : ∀ action : Run Unit, Batch.run (Batch.interpreter 0 options.report) files action =
      ⟨(Batch.outcome action).1, (Batch.outcome action).2, files⟩ := fun _ => rfl
  simp only [execute, h, hrun, Batch.outcome]
  cases action (Batch.interpreter 0 options.report) .empty with
  | ok u w => rfl
  | error e w => cases e <;> rfl

theorem ofText_of_read [Host] {text : String} {json : Json} (h : Json.read text = .ok json) :
    Node.ofText text = (Node.ofJson json).mapError Problem.tree := by
  rw [Node.ofText, h]
  rfl

section

variable [Host] {options : Options} (hoptions : options.verbosity = 0) {files : FileTree} {path : Path}
  {text : String}

/-- A document that is refused as a tree is reported, if it is not for an integer that is too large. -/
theorem runDocument_of_refused {json : Json} {fault : LoadFault} (hjson : Json.read text = .ok json)
    (hnode : Node.ofJson json = .error fault) (hfault : fault ≠ .tooLarge) :
    runDocument options files path text =
      failed files ("Error: invalid AST file " ++ path.text ++ ": " ++ fault.message) := by
  rw [runDocument, ofText_of_read hjson, hnode]
  cases fault with
  | tooLarge => exact absurd rfl hfault
  | _ => rfl

theorem runDocument_of_loaded {json : Json} {node : Node} (hjson : Json.read text = .ok json)
    (hnode : Node.ofJson json = .ok node) :
    runDocument options files path text = execute options files fun i => i.runNode node := by
  rw [runDocument, ofText_of_read hjson, hnode]
  rfl

include hoptions

theorem runDocument_reported (hended : (runDocument options files path text).exit ≠
      .crash (.run (.exhausted .turns)))
    (h : Reportable (Batch.interpreter 0 options.report) text) :
    (runDocument options files path text).Reported path := by
  obtain ⟨json, hjson, ⟨fault, hnode, hfault⟩ | ⟨node, p, hnode, hp, hmisfit, hfits⟩⟩ := h
  · rw [runDocument_of_refused hjson hnode hfault]
    refine .inr ⟨rfl, fault.message.escaped, .inl ?_⟩
    simp [failed, Codes.escaped_append, String.append_assoc]
  · have hbounded := Program.ofNode?_bounded (Node.ofJson_bounded json node hnode) hp
    rw [runDocument_of_loaded hjson hnode, execute_untraced hoptions] at hended ⊢
    simp only [Interpreter.runNode, hp, Interpreter.run_of_fits hfits] at hended ⊢
    have hturns := runReport_ended hended
    cases hx : ((Batch.interpreter 0 options.report).on .free).run p .empty with
    | ok u w => exact .inl ⟨rfl, rfl⟩
    | error e w =>
      cases e with
      | error err => exact .inr ⟨rfl, err.report.escaped, .inr rfl⟩
      | defect d =>
        exact absurd ((Interpreter.run_defect_iff hbounded hturns).mp ⟨d, w, hx⟩) hmisfit
      | unencodable => exact absurd hx (Interpreter.run_ne_unencodable _ p w)
      | exhausted resource =>
        cases resource with
        | calls => exact absurd hx (Interpreter.run_ne_exhausted_calls _ p .empty w)
        | turns => exact absurd hx (hturns w)

theorem runDocument_crashed (hended : (runDocument options files path text).exit ≠
      .crash (.run (.exhausted .turns)))
    (h : ¬Reportable (Batch.interpreter 0 options.report) text) :
    ∃ problem, (runDocument options files path text).exit = .crash problem ∧
      (runDocument options files path text).err = "" := by
  cases hjson : Json.read text with
  | error fault =>
    have htext : Node.ofText text = .error (.document fault) := by
      rw [Node.ofText, hjson]
      rfl
    rw [runDocument, htext]
    exact ⟨_, rfl, rfl⟩
  | ok json =>
    cases hnode : Node.ofJson json with
    | error fault =>
      by_cases hfault : fault = .tooLarge
      · rw [runDocument, ofText_of_read hjson, hnode, hfault]
        exact ⟨_, rfl, rfl⟩
      · exact absurd ⟨json, hjson, .inl ⟨fault, hnode, hfault⟩⟩ h
    | ok node =>
      rw [runDocument_of_loaded hjson hnode, execute_untraced hoptions] at hended ⊢
      cases hp : Program.ofNode? node with
      | none =>
        simp only [Interpreter.runNode, hp]
        exact ⟨_, rfl, rfl⟩
      | some p =>
        have hbounded := Program.ofNode?_bounded (Node.ofJson_bounded json node hnode) hp
        simp only [Interpreter.runNode, hp] at hended ⊢
        rcases (Batch.interpreter 0 options.report).run_eq_or_unencodable p with
          ⟨hfits, hrun⟩ | ⟨-, w, hrun⟩
        · have hmisfit : ((Batch.interpreter 0 options.report).on .free).MeetsMisfit p := by
            by_contra hmisfit
            exact h ⟨json, hjson, .inr ⟨node, p, hnode, hp, hmisfit, hfits⟩⟩
          rw [hrun] at hended ⊢
          obtain ⟨d, w, hx⟩ :=
            (Interpreter.run_defect_iff hbounded (runReport_ended hended)).mpr hmisfit
          rw [hx]
          exact ⟨_, rfl, rfl⟩
        · rw [hrun]
          exact ⟨_, rfl, rfl⟩

end

/-- The command on a tree file that holds a text. -/
theorem run_treeFile [Host] {files : FileTree} {f text : String} (hname : Argument.IsName f)
    (hempty : f.isEmpty = false) (hread : files.readText (.ofText f) = .ok text) :
    run ["--ast", f] files =
      runDocument { Options.standard with tree := some f } files (.ofText f) text := by
  obtain ⟨_, _, htarget, -⟩ := FileTree.target_of_readText hread
  rw [show ["--ast", f] = [].map Switch.text ++ ["--ast", f] from rfl, run_tree hname hempty, runTree,
    FileTree.has_of_target htarget, if_pos rfl, hread]
  rfl

/-- **What is said of tree files.** Let the command run a tree file that holds a text, and let it end.
It reports the file just when the text is reportable: then it ends with status zero and says nothing, or
with status one and says that the file is invalid or that the run failed. Otherwise it breaks off and
says nothing. The document of a well-sorted program without surrogates is always reported. -/
theorem tree_file_reported_iff [Host] {files : FileTree} {f text : String} (hname : Argument.IsName f)
    (hempty : f.isEmpty = false) (hread : files.readText (.ofText f) = .ok text)
    (hended : (run ["--ast", f] files).exit ≠ .crash (.run (.exhausted .turns))) :
    ((run ["--ast", f] files).Reported (.ofText f) ↔ Reportable (Batch.interpreter 0 true) text) ∧
    (¬Reportable (Batch.interpreter 0 true) text →
      ∃ problem, (run ["--ast", f] files).exit = .crash problem ∧ (run ["--ast", f] files).err = "") ∧
    ∀ json node p, Json.read text = .ok json → Node.ofJson json = .ok node →
      Program.ofNode? node = some p → p.WellSorted → p.Plain →
      (run ["--ast", f] files).Reported (.ofText f) := by
  rw [run_treeFile hname hempty hread] at hended ⊢
  have hreported := runDocument_reported (by rfl) hended
  have hcrashed := runDocument_crashed (by rfl) hended
  refine ⟨⟨fun h => ?_, hreported⟩, hcrashed, ?_⟩
  · by_contra hnot
    obtain ⟨problem, hexit, -⟩ := hcrashed hnot
    exact Report.not_reported hexit h
  · intro json node p hjson hnode hp hsorted hplain
    have hfits := (Batch.interpreter 0 true).freeLog_plain hplain
    refine hreported ⟨json, hjson, .inr ⟨node, p, hnode, hp, fun hmisfit => ?_, hfits⟩⟩
    have hbounded := Program.ofNode?_bounded (Node.ofJson_bounded json node hnode) hp
    rw [runDocument_of_loaded hjson hnode, execute_untraced (by rfl)] at hended
    simp only [Interpreter.runNode, hp] at hended
    have hrun := Interpreter.run_of_fits hfits
    replace hended : (runReport files ((Batch.interpreter 0 true).run p .empty)).exit ≠ _ := hended
    rw [hrun] at hended
    obtain ⟨d, w, hx⟩ :=
      (Interpreter.run_defect_iff hbounded (runReport_ended hended)).mpr hmisfit
    exact ((Interpreter.run_safe hsorted .empty .empty).error hx).2 trivial

/-! ### Files that are not reported -/

/-- A value that starts with more brackets than there is room for is nested too deeply; by induction on
the room. -/
theorem readValue_brackets (room : Nat) : ∀ {fuel : Nat} (rest : List Char), 2 * room < fuel →
    Json.readValue fuel room (List.replicate (room + 1) '[' ++ rest) = .error .tooDeep := by
  induction room with
  | zero =>
    intro fuel rest hfuel
    obtain ⟨fuel, rfl⟩ := Nat.exists_eq_add_of_le' (show 1 ≤ fuel by omega)
    rfl
  | succ room ih =>
    intro fuel rest hfuel
    obtain ⟨fuel, rfl⟩ := Nat.exists_eq_add_of_le' (show 2 ≤ fuel by omega)
    have hinner := ih rest (show 2 * room < fuel by omega)
    have hlist : Json.readValue (fuel + 2) (room + 1) (List.replicate (room + 2) '[' ++ rest) =
        Json.readItems (fuel + 1) room [] (List.replicate (room + 1) '[' ++ rest) := by
      simp [List.replicate_succ, Json.readValue, Json.skipBlank, Json.isBlank]
    rw [hlist, Json.readItems, hinner]

/-- A text that starts with more brackets than the host can read is nested too deeply. -/
theorem read_brackets [Host] {n : Nat} (h : Host.nesting < n) (rest : List Char) :
    Json.read (String.ofList (List.replicate n '[' ++ rest)) = .error .tooDeep := by
  obtain ⟨more, rfl⟩ := Nat.exists_eq_add_of_le h
  have hblank : Json.skipBlank (List.replicate (Host.nesting + 1 + more) '[' ++ rest) =
      List.replicate (Host.nesting + 1 + more) '[' ++ rest := by
    rw [Nat.add_right_comm, List.replicate_succ]
    rfl
  have hvalue := readValue_brackets Host.nesting (List.replicate more '[' ++ rest)
    (show 2 * Host.nesting < 2 * (List.replicate (Host.nesting + 1 + more) '[' ++ rest).length + 1 by
      simp; omega)
  rw [← List.append_assoc, ← List.replicate_add] at hvalue
  rw [Json.read, String.toList_ofList, hblank]
  simp only [hvalue]

/-- A directory with one tree file. -/
abbrev treeFile (text : String) : FileTree := oneFile ["a.json"] text

theorem readText_treeFile {text : String} (h : '\r' ∉ text.toList) :
    (treeFile text).readText (.ofText "a.json") = .ok text :=
  readText_oneFile rfl h

theorem isName_treeFile : Argument.IsName "a.json" := rfl

/-- The command on the only file of a directory. -/
theorem run_treeFile_alone [Host] {text : String} (h : '\r' ∉ text.toList) :
    run ["--ast", "a.json"] (treeFile text) =
      runDocument { Options.standard with tree := some "a.json" } (treeFile text) (.ofText "a.json")
        text :=
  run_treeFile isName_treeFile rfl (readText_treeFile h)

/-- The command breaks off at a text that is no document. -/
theorem run_treeFile_unread [Host] {text : String} (h : '\r' ∉ text.toList) {fault : Json.ReadFault}
    (hread : Json.read text = .error fault) :
    (run ["--ast", "a.json"] (treeFile text)).exit = .crash (.document fault) := by
  have htext : Node.ofText text = .error (.document fault) := by
    rw [Node.ofText, hread]
    rfl
  rw [run_treeFile_alone h, runDocument, htext]
  rfl

section

open Host

/-- A program with a variable in the place of a statement. -/
def misplaced : Program := ⟨[], .main [.misfit (.ident (.str "x"))]⟩

/-- The text of the document of `misplaced`. -/
def misplacedText : String := Codes.characters (document misplaced)

theorem return_not_mem_misplacedText : '\r' ∉ misplacedText.toList :=
  FileTree.return_not_mem_document misplaced

theorem read_misplaced : Json.read misplacedText = .ok misplaced.toNode.toJson := by
  refine Json.read_render ?_ (by decide)
  simp [misplaced, Program.toNode, Block.toNode, Stmt.toNodes, Stmt.toNode, Node.toJson, Node.toJsons,
    Node.object, Json.Writable, Json.AllWritable, Json.FieldsWritable]

theorem ofJson_misplaced : Node.ofJson misplaced.toNode.toJson = .ok misplaced.toNode :=
  Node.ofJson_toJson _ (by simp [misplaced, Program.toNode, Block.toNode, Stmt.toNodes, Stmt.toNode,
    Node.Bounded, Node.AllBounded])

theorem exit_misplaced : (run ["--ast", "a.json"] (treeFile misplacedText)).exit =
    .crash (.run (.defect (.notStatement (Node.ident (.str "x")).className))) := by
  rw [run_treeFile_alone return_not_mem_misplacedText,
    runDocument_of_loaded read_misplaced ofJson_misplaced, execute_untraced (by rfl)]
  rfl

/-- The text of the document of a program that prints a surrogate. -/
def surrogateText : String :=
  "\x7b\"type\":\"Program\",\"main\":\x7b\"type\":\"MainBlock\",\"statements\":[" ++
  "\x7b\"type\":\"ExprStmt\",\"expr\":\x7b\"type\":\"Call\",\"name\":\"print\",\"args\":[" ++
  "\x7b\"type\":\"StrLiteral\",\"value\":\"\\ud800\"\x7d]\x7d\x7d]\x7d\x7d"

theorem ofText_surrogateText : Node.ofText surrogateText = .ok printing.toNode := by cbv

theorem exit_surrogateText : (run ["--ast", "a.json"] (treeFile surrogateText)).exit =
    .crash (.run .unencodable) := by
  rw [run_treeFile_alone (by decide +kernel), runDocument, ofText_surrogateText]
  simp only
  rw [execute_untraced (by rfl)]
  rfl

/-- The command breaks off at a file that is no document, at one that is nested too deeply, and at one
with a program that prints a surrogate. -/
theorem tree_files_not_reported :
    ¬(run ["--ast", "a.json"] (treeFile "")).Reported (.ofText "a.json") ∧
    (∀ n, Host.nesting < n →
      ¬(run ["--ast", "a.json"] (treeFile (String.ofList (List.replicate n '[' ++
        List.replicate n ']')))).Reported (.ofText "a.json")) ∧
    ¬(run ["--ast", "a.json"] (treeFile surrogateText)).Reported (.ofText "a.json") := by
  have hempty : Json.read "" = .error .malformed := rfl
  refine ⟨?_, fun n hn => ?_, Report.not_reported exit_surrogateText⟩
  · exact Report.not_reported (run_treeFile_unread (by decide) hempty)
  · exact Report.not_reported (run_treeFile_unread (by simp) (read_brackets hn _))

/-- The command breaks off at a variable in the place of a statement. -/
theorem tree_file_reported_iff_misplaced :
    ¬(run ["--ast", "a.json"] (treeFile misplacedText)).Reported (.ofText "a.json") ∧
      ¬Reportable (Batch.interpreter 0 true) misplacedText := by
  have hended : (run ["--ast", "a.json"] (treeFile misplacedText)).exit ≠
      .crash (.run (.exhausted .turns)) := by
    rw [exit_misplaced]
    exact nofun
  obtain ⟨hiff, -, -⟩ := tree_file_reported_iff isName_treeFile rfl
    (readText_treeFile return_not_mem_misplacedText) hended
  have hnot : ¬(run ["--ast", "a.json"] (treeFile misplacedText)).Reported (.ofText "a.json") :=
    Report.not_reported exit_misplaced
  exact ⟨hnot, fun h => hnot (hiff.mpr h)⟩

end

end Command

end SmallImp
