import SmallImp.CommandLine.Command
import SmallImp.Proofs.DocumentText
import SmallImp.Proofs.PlainPrograms
import SmallImp.Proofs.TreeRoundTrip

/-!
# Documents of programs

The document that is written for a well-sorted program without surrogates holds the program: its text is
read as the tree that was written, and the tree is loaded as the program.

* `Program.toJson_writable` — the tree of such a program can be written;
* `Program.nesting` — how deep its document is nested;
* `Node.ofText_document` — the text of its document is loaded as the tree;
* `Program.runNode_toNode` — running the tree is running the program.
-/

namespace SmallImp

/-! ### Trees that can be written -/

theorem Json.IsPlainText.writable {name : Json} (h : name.IsPlainText) : name.Writable := by
  obtain ⟨s, rfl⟩ := h
  exact Codes.isPlain_ofString s

theorem Node.literalJson_writable {value : Literal} (h : value.InRange) (hplain : value.Plain) :
    (Node.literalJson value).Writable := by
  cases value with
  | int n =>
    have hn : InRange n := h
    have hpow : 10 ^ 19 ≤ 10 ^ Text.maxDigits := Nat.pow_le_pow_right (by decide) (by decide)
    unfold InRange minInt maxInt at hn
    show n.natAbs < 10 ^ Text.maxDigits
    omega
  | str s => exact hplain
  | _ => trivial

theorem Json.fieldsWritable_of {fields : List (Codes × Json)}
    (hkeys : ∀ key ∈ fields.map (·.1), Codes.isPlain key = true)
    (h : AllWritable (fields.map (·.2))) : FieldsWritable fields := by
  induction fields with
  | nil => trivial
  | cons field rest ih =>
    obtain ⟨hkey, hrest⟩ := List.forall_mem_cons.mp hkeys
    exact ⟨⟨hkey, h.1⟩, ih hrest h.2⟩

/-- The object of a node can be written if the values of its fields can. -/
theorem Node.object_writable {kind : String} {fields : List (Codes × Json)}
    (hkeys : (Codes.ofString "type" :: fields.map (·.1)).Nodup ∧
      ∀ key ∈ fields.map (·.1), Codes.isPlain key = true)
    (h : Json.AllWritable (fields.map (·.2))) : (Node.object kind fields).Writable :=
  ⟨hkeys.1, ⟨Codes.isPlain_ofString _, Codes.isPlain_ofString kind⟩,
    Json.fieldsWritable_of hkeys.2 h⟩

mutual

theorem Expr.toJson_writable : ∀ e : Expr, e.Sorted True → e.Plain → e.toNode.toJson.Writable
  | .lit _, h, hp => Node.object_writable (by simp) ⟨Node.literalJson_writable h hp, trivial⟩
  | .var _, _, hp => Node.object_writable (by simp) ⟨hp.writable, trivial⟩
  | .binary left op right, h, hp => Node.object_writable (by simp)
    ⟨Expr.toJson_writable left h.1 hp.1, Codes.isPlain_ofString op.symbol,
      Expr.toJson_writable right h.2 hp.2, trivial⟩
  | .unary op operand, h, hp => Node.object_writable (by simp)
    ⟨Codes.isPlain_ofString op.symbol, Expr.toJson_writable operand h hp, trivial⟩
  | .call _ args, h, hp => Node.object_writable (by simp)
    ⟨hp.1.writable, Expr.toJsons_writable args h.2 hp.2, trivial⟩
  | .misfit _, h, _ => absurd trivial h

theorem Expr.toJsons_writable : ∀ es : List Expr, Expr.AllSorted True es →
    Expr.AllPlain es → Json.AllWritable (Node.toJsons (Expr.toNodes es))
  | [], _, _ => trivial
  | e :: rest, h, hp => ⟨Expr.toJson_writable e h.1 hp.1, Expr.toJsons_writable rest h.2 hp.2⟩

end

mutual

theorem Stmt.toJson_writable : ∀ stmt : Stmt, stmt.Sorted True →
    stmt.Plain → stmt.toNode.toJson.Writable
  | .declare _ _ none, _, hp => Node.object_writable (by simp)
    ⟨hp.1.writable, hp.2.1.writable, trivial, trivial⟩
  | .declare _ _ (some e), h, hp => Node.object_writable (by simp)
    ⟨hp.1.writable, hp.2.1.writable, Expr.toJson_writable e (h.2 e rfl) (hp.2.2 e rfl), trivial⟩
  | .assign _ value, h, hp => Node.object_writable (by simp)
    ⟨hp.1.writable, Expr.toJson_writable value h.2 hp.2, trivial⟩
  | .branch condition yes no, h, hp => Node.object_writable (by simp)
    ⟨Expr.toJson_writable condition h.1 hp.1, Block.toJson_writable yes h.2.1 hp.2.1,
      Block.toJson_writable no h.2.2 hp.2.2, trivial⟩
  | .loop condition body, h, hp => Node.object_writable (by simp)
    ⟨Expr.toJson_writable condition h.1 hp.1, Block.toJson_writable body h.2 hp.2, trivial⟩
  | .ret value, h, hp => Node.object_writable (by simp)
    ⟨Expr.toJson_writable value h hp, trivial⟩
  | .expr value, h, hp => Node.object_writable (by simp)
    ⟨Expr.toJson_writable value h hp, trivial⟩
  | .block _, h, _ => absurd trivial h.1
  | .misfit _, h, _ => absurd trivial h

theorem Block.toJson_writable {optional : Prop} : ∀ block : Block, block.Sorted True optional →
    block.Plain → block.toNode.toJson.Writable
  | .stmts body, h, hp => Node.object_writable (by simp) ⟨Stmt.toJsons_writable body h hp, trivial⟩
  | .main _, h, _ => absurd trivial h.1
  | .absent, _, _ => trivial
  | .misfit _, h, _ => absurd trivial h

theorem Stmt.toJsons_writable : ∀ body : List Stmt, Stmt.AllSorted True body →
    Stmt.AllPlain body → Json.AllWritable (Node.toJsons (Stmt.toNodes body))
  | [], _, _ => trivial
  | stmt :: rest, h, hp => ⟨Stmt.toJson_writable stmt h.1 hp.1, Stmt.toJsons_writable rest h.2 hp.2⟩

end

theorem Node.toJsons_writable {nodes : List Node} (h : ∀ node ∈ nodes, node.toJson.Writable) :
    Json.AllWritable (Node.toJsons nodes) := by
  induction nodes with
  | nil => trivial
  | cons node rest ih =>
    obtain ⟨hnode, hrest⟩ := List.forall_mem_cons.mp h
    exact ⟨hnode, ih hrest⟩

theorem Param.toJson_writable {param : Param} (hp : param.Plain) : param.toNode.toJson.Writable := by
  cases param with
  | param tag name =>
    exact Node.object_writable (by simp) ⟨hp.1.writable, hp.2.writable, trivial⟩
  | misfit node => exact hp.elim

theorem Func.toJson_writable {func : Func} (h : func.Sorted True)
    (hp : func.Plain) : func.toNode.toJson.Writable := by
  cases func with
  | decl f =>
    have hf : f.Sorted True := h
    have hfp : f.Plain := hp
    have hparams : Json.AllWritable (Node.toJsons (f.params.map Param.toNode)) := by
      refine Node.toJsons_writable ?_
      intro node hnode
      obtain ⟨param, hparam, rfl⟩ := List.mem_map.mp hnode
      exact Param.toJson_writable (hfp.params param hparam)
    exact Node.object_writable (by simp)
      ⟨hfp.name.writable, hfp.returnTag.writable, hparams,
        Block.toJson_writable f.body hf.body hfp.body, trivial⟩
  | misfit node => exact hp.elim

theorem Block.toJson_writable_of_main {block : Block} (h : block.MainSorted True)
    (hp : block.Plain) : block.toNode.toJson.Writable := by
  cases block with
  | main body =>
    exact Node.object_writable (by simp) ⟨Stmt.toJsons_writable body h hp, trivial⟩
  | stmts body => exact absurd trivial h.1
  | absent => trivial
  | misfit node => exact hp.elim

/-- The tree of a well-sorted program without surrogates can be written. -/
theorem Program.toJson_writable {p : Program} (h : p.WellSorted) (hp : p.Plain) :
    p.toNode.toJson.Writable := by
  have hfunctions : Json.AllWritable (Node.toJsons (p.functions.map Func.toNode)) := by
    refine Node.toJsons_writable ?_
    intro node hnode
    obtain ⟨func, hfunc, rfl⟩ := List.mem_map.mp hnode
    exact Func.toJson_writable (h.functions func hfunc) (hp.functions func hfunc)
  exact Node.object_writable (by simp)
    ⟨hfunctions, Block.toJson_writable_of_main h.main hp.main, trivial⟩

/-! ### Documents -/

/-- How deep the document of a program is nested. -/
def Program.nesting (p : Program) : Nat := p.toNode.toJson.depth

/-- **The text of the document of a program is loaded as its tree**, unless it is nested too deeply. -/
theorem Node.ofText_document [Host] {p : Program} (h : p.WellSorted) (hp : p.Plain)
    (hdepth : p.nesting ≤ Host.nesting) :
    Node.ofText (Codes.characters (Command.document p)) = .ok p.toNode := by
  have hread : Json.read (Codes.characters (Command.document p)) = .ok p.toNode.toJson :=
    Json.read_render (Program.toJson_writable h hp) hdepth
  have hload := (Program.ofJson_toJson h).1
  rw [Node.ofText, hread]
  show (Node.ofJson p.toNode.toJson).mapError Problem.tree = _
  rw [hload]
  rfl

/-- Running the tree of a program is running the program. -/
theorem Program.runNode_toNode {streams : Streams} {p : Program} (h : p.WellSorted)
    (i : Interpreter streams) : i.runNode p.toNode = i.run p := by
  rw [Interpreter.runNode, (Program.ofJson_toJson h).2]

namespace FileTree

theorem unifyLines_of_notMem {cs : List Char} (h : '\r' ∉ cs) : unifyLines cs = cs := by
  induction cs with
  | nil => rfl
  | cons c rest ih =>
    rw [List.mem_cons, not_or] at h
    have hc : c ≠ '\r' := Ne.symm h.1
    simp [unifyLines, hc, ih h.2]

/-- A text with no line breaks but line feeds is read from a file as it was written. -/
theorem decode_toUTF8 {text : String} (h : '\r' ∉ text.toList) : decode text.toUTF8 = .ok text := by
  have hvalid : String.fromUTF8? text.toUTF8 = some text := by
    rw [String.fromUTF8?, String.toUTF8_eq_toByteArray, dif_pos text.isValidUTF8]
    rfl
  rw [decode, hvalid]
  simp only [unifyLines_of_notMem h, String.ofList_toList]

theorem return_not_mem_document (p : Program) :
    '\r' ∉ (Codes.characters (Command.document p)).toList :=
  Json.return_not_mem_renderAt p.toNode.toJson 0

theorem decode_document (p : Program) :
    decode (Codes.characters (Command.document p)).toUTF8 =
      .ok (Codes.characters (Command.document p)) :=
  decode_toUTF8 (return_not_mem_document p)

end FileTree

end SmallImp
