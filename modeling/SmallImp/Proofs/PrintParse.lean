import Mathlib.Data.List.Forall2
import SmallImp.Proofs.CodePoints
import SmallImp.Proofs.Unparse

/-!
# Reading what was written

The pieces of a printable program are the tokens of a derivation that stands for the program, however
the choices of a style are made. So the text of the program is read as the program.

* `Written` — pieces that are the tokens of a derivation;
* `Expr.written`, `Stmt.written`, … — the pieces of the parts of a program;
* `parse_unparse` — reading the text of a program gives the program.
-/

namespace SmallImp

open Source

namespace Source

/-! ### Literals -/

theorem digitValue?_of_isDigit {c : Char} (h : c.isDigit = true) :
    Text.digitValue? c = some (c.toNat - '0'.toNat) := by
  rw [Char.isDigit_iff_toNat] at h
  have hzero : '0'.toNat = 0x30 := rfl
  have hnine : '9'.toNat = 0x39 := rfl
  rw [Text.digitValue?, show Text.digitZeros = 0x30 :: Text.digitZeros.tail from rfl,
    List.findSome?_cons, if_pos (by omega)]
  rfl

/-- The digits of a number spell it. -/
theorem digitsValue_toDigits (n : Nat) : Text.digitsValue (Nat.toDigits 10 n) = n := by
  have hfold : ∀ {digits : List Char} (init : Nat), (∀ c ∈ digits, c.isDigit = true) →
      digits.foldl (fun n c => 10 * n + (Text.digitValue? c).getD 0) init =
        Nat.ofDigitChars 10 digits init := by
    intro digits
    induction digits with
    | nil => exact fun _ _ => rfl
    | cons c rest ih =>
      intro init h
      obtain ⟨hc, hrest⟩ := List.forall_mem_cons.mp h
      rw [List.foldl_cons, ih _ hrest, digitValue?_of_isDigit hc, Nat.ofDigitChars_cons]
      rfl
  rw [Text.digitsValue, hfold 0 fun c hc => Nat.isDigit_of_mem_toDigits (by decide) (by decide) hc]
  exact Nat.ofDigitChars_toDigits (by decide) (by decide)

theorem isDigits_toDigits (n : Nat) : IsDigits (Nat.toDigits 10 n) := by
  refine ⟨Nat.toDigits_ne_nil, ?_⟩
  intro c hc
  rw [Text.isDecimalDigit,
    digitValue?_of_isDigit (Nat.isDigit_of_mem_toDigits (by decide) (by decide) hc)]
  rfl

/-- An integer that fits in 64 bits is not too long to be read. -/
theorem intLiteral_toDigits {n : Int} (hzero : 0 ≤ n) (hmax : n ≤ maxInt) (p : Position) :
    intLiteral ⟨.int, Nat.toDigits 10 n.toNat, p⟩ = .ok (.int n) := by
  have hlength : (Nat.toDigits 10 n.toNat).length ≤ 19 := by
    rw [Nat.length_toDigits_le_iff (by decide) (by decide)]
    unfold maxInt at hmax
    omega
  have hshort : ¬Text.maxDigits < (Nat.toDigits 10 n.toNat).length := by
    unfold Text.maxDigits
    omega
  have hvalue : ((n.toNat : Nat) : Int) = n := Int.toNat_of_nonneg hzero
  rw [intLiteral]
  simp only [digitsValue_toDigits, hvalue, if_neg hshort, if_pos hmax]

theorem isQuoted_escapeChar (c : Char) {rest : List Char} (h : IsQuoted rest) :
    IsQuoted (escapeChar c ++ rest) := by
  unfold escapeChar
  split_ifs with hbackslash hquote hbreak
  · exact .escape (by decide) h
  · exact .escape (by decide) h
  · exact .escape (by decide) h
  · exact .escape (by decide) h
  · exact .escape (by decide) (.plain (by decide) (by decide) (by decide)
      (.plain (by decide) (by decide) (by decide) h))
  · exact .plain hquote hbackslash hbreak h

theorem hexValue?_digitChar {n : Nat} (h : n < 16) : Text.hexValue? n.digitChar = some n := by
  revert n
  decide

/-- A number of four hexadecimal digits. -/
theorem hex_four {n : Nat} (hlow : 0x1000 ≤ n) (hhigh : n < 0x10000) :
    Text.hex 4 n = [(n / 16 / 16 / 16).digitChar, (n / 16 / 16 % 16).digitChar,
      (n / 16 % 16).digitChar, (n % 16).digitChar] := by
  rw [Text.hex, Nat.toDigits_of_base_le (by decide) (by omega),
    Nat.toDigits_of_base_le (by decide) (by omega), Nat.toDigits_of_base_le (by decide) (by omega),
    Nat.toDigits_of_lt_base (by omega)]
  rfl

/-- The code of a surrogate has four hexadecimal digits. -/
theorem escaped_surrogate (half : Fin 0x800) : ∃ digits : List Char, digits.length = 4 ∧
    (Code.surrogate half).escaped = '\\' :: 'u' :: digits ∧
    (∀ c ∈ digits, ∃ d, Text.hexValue? c = some d) ∧
    numberFrom? 16 Text.hexValue? 0 digits = some (Code.surrogate half).toNat := by
  have hhex := hex_four (n := 0xD800 + half) (by omega) (by omega)
  have hvalues : ∀ d ∈ [(0xD800 + half.val) / 16 / 16 / 16, (0xD800 + half.val) / 16 / 16 % 16,
      (0xD800 + half.val) / 16 % 16, (0xD800 + half.val) % 16],
      Text.hexValue? d.digitChar = some d := by
    intro d hd
    refine hexValue?_digitChar ?_
    simp only [List.mem_cons, List.not_mem_nil, or_false] at hd
    omega
  refine ⟨Text.hex 4 (0xD800 + half), by rw [hhex]; rfl, rfl, ?_, ?_⟩
  · rw [hhex]
    simp only [List.forall_mem_cons] at hvalues ⊢
    obtain ⟨h₁, h₂, h₃, h₄, -⟩ := hvalues
    exact ⟨⟨_, h₁⟩, ⟨_, h₂⟩, ⟨_, h₃⟩, ⟨_, h₄⟩, by simp⟩
  · simp only [List.forall_mem_cons] at hvalues
    obtain ⟨h₁, h₂, h₃, h₄, -⟩ := hvalues
    simp only [hhex, numberFrom?, h₁, h₂, h₃, h₄, Option.bind_eq_bind, Option.bind_some, Code.toNat]
    congr 1
    omega

/-- Hexadecimal digits can stand in a text literal as they are. -/
theorem isQuoted_hex {digits rest : List Char} (h : ∀ c ∈ digits, ∃ d, Text.hexValue? c = some d)
    (hrest : IsQuoted rest) : IsQuoted (digits ++ rest) := by
  induction digits with
  | nil => exact hrest
  | cons c digits ih =>
    obtain ⟨⟨d, hc⟩, hdigits⟩ := List.forall_mem_cons.mp h
    refine .plain ?_ ?_ ?_ (ih hdigits)
    · rintro rfl
      cases hc
    · rintro rfl
      cases hc
    · rintro rfl
      cases hc

theorem isQuoted_escaped (t : Codes) : IsQuoted (t.flatMap escapeCode) := by
  induction t with
  | nil => exact .nil
  | cons code rest ih =>
    rw [List.flatMap_cons]
    cases code with
    | char c => exact isQuoted_escapeChar c ih
    | surrogate half =>
      obtain ⟨digits, -, hescaped, hhex, -⟩ := escaped_surrogate half
      rw [escapeCode, hescaped]
      exact .escape (by decide) (isQuoted_hex hhex ih)

section

variable [Host]

/-- An escaped character stands for itself. -/
theorem standsFor_escapeChar (c : Char) {rest : List Char} {t : Codes} (h : StandsFor rest t) :
    StandsFor (escapeChar c ++ rest) (.char c :: t) := by
  unfold escapeChar
  split_ifs with hbackslash hquote hbreak hreturn hnull
  · exact .simple (by rw [hbackslash]; decide) h
  · exact .simple (by rw [hquote]; decide) h
  · exact .simple (by rw [hbreak]; decide) h
  · exact .simple (by rw [hreturn]; decide) h
  · have hcode : StandsFor ('\\' :: 'x' :: (['0', '0'] ++ rest)) (.ofNat 0 :: t) :=
      .code (by decide : ('x', 2) ∈ codeLetters) rfl rfl (by decide) h
    rw [hnull]
    exact hcode
  · exact .plain hbackslash hreturn h

theorem standsFor_escaped (t : Codes) : StandsFor (t.flatMap escapeCode) t := by
  induction t with
  | nil => exact .done
  | cons code rest ih =>
    rw [List.flatMap_cons]
    cases code with
    | char c => exact standsFor_escapeChar c ih
    | surrogate half =>
      obtain ⟨digits, hlength, hescaped, -, hnumber⟩ := escaped_surrogate half
      have hbound : (Code.surrogate half).toNat ≤ 0x10FFFF := by
        rw [Code.toNat]
        omega
      have hcode : StandsFor ('\\' :: 'u' :: (digits ++ rest.flatMap escapeCode))
          (.ofNat (Code.surrogate half).toNat :: rest) :=
        .code (by decide : ('u', 4) ∈ codeLetters) hlength hnumber hbound ih
      rw [Code.ofNat_toNat] at hcode
      rw [escapeCode, hescaped]
      exact hcode

end

theorem null_notMem_escapeCode (code : Code) : '\x00' ∉ escapeCode code := by
  cases code with
  | char c =>
    rw [escapeCode]
    unfold escapeChar
    split_ifs with hbackslash hquote hbreak hreturn hnull
    · decide
    · decide
    · decide
    · decide
    · decide
    · simpa using Ne.symm hnull
  | surrogate half =>
    obtain ⟨digits, -, hescaped, hhex, -⟩ := escaped_surrogate half
    rw [escapeCode, hescaped, List.mem_cons, List.mem_cons]
    rintro (h | h | h)
    · cases h
    · cases h
    · obtain ⟨d, hd⟩ := hhex _ h
      cases hd

/-- **A text that was escaped is read as it was.** -/
theorem unescape_escaped [Host] (t : Codes) : unescape (t.flatMap escapeCode) = .ok t := by
  refine unescape_eq_ok_iff.mpr ⟨?_, standsFor_escaped t⟩
  simp [null_notMem_escapeCode]

/-! ### Pieces that can be written -/

variable [Host]

theorem sign_fits (s : Symbol) : (sign s).Fits := by
  refine ⟨rfl, ?_, fun p => rfl⟩
  intro h
  cases h

theorem word_fits (k : Keyword) : (word k).Fits := by
  refine ⟨rfl, ?_, ?_⟩
  · intro h
    cases h
  · intro p
    cases k <;> rfl

omit [Host] in
theorem nameOf_str (s : String) : nameOf (.str s) = ⟨.name, s.toList⟩ := by
  rw [nameOf, Codes.characters_ofString]

theorem nameOf_fits {name : Name} (h : name.IsIdentifier) : (nameOf name).Fits := by
  obtain ⟨s, rfl, hname, hword⟩ := h
  rw [nameOf_str]
  refine ⟨hname, ?_, fun p => rfl⟩
  intro _
  show Keyword.all.find? _ = none
  rw [List.find?_eq_none]
  intro k _ hk
  have hspelling : k.spelling.toList = s.toList := beq_iff_eq.mp hk
  exact hword k (String.toList_inj.mp hspelling).symm

/-- A literal's piece reads as the literal. -/
theorem literal_piece (style : Style) (place : List Nat) {value : Literal} (h : value.Printable)
    (p : Position) : ((value.piece style place).token p).literal? = some (.ok value) := by
  cases value with
  | int n =>
    show some (intLiteral ⟨.int, Nat.toDigits 10 n.toNat, p⟩) = _
    rw [intLiteral_toDigits h.1 h.2]
  | float x =>
    show some (Except.ok (Literal.float (decimalOf (style.float place x)).toFloat)) = _
    rw [(style.float_spells place x h).read]
  | bool b => cases b <;> rfl
  | str s =>
    show some ((unescape ((('"' :: s.flatMap escapeCode ++ ['"']).drop 1).dropLast)).map
      Literal.str) = _
    rw [List.cons_append, List.drop_one, List.tail_cons, List.dropLast_concat, unescape_escaped]
    rfl

theorem literal_fits (style : Style) (place : List Nat) {value : Literal} (h : value.Printable) :
    (value.piece style place).Fits := by
  refine ⟨?_, ?_, ?_⟩
  · cases value with
    | int n => exact isDigits_toDigits n.toNat
    | float x => exact (style.float_spells place x h).isFloat
    | bool b => cases b <;> rfl
    | str s => exact .mk (isQuoted_escaped s)
  · intro hname
    cases value <;> cases hname
  · intro p
    rw [Token.fault?, literal_piece style place h p]

/-! ### Productions -/

/-- Pieces that are the tokens of a derivation, and can be written. -/
structure Written (n : Nonterminal) (v : n.Image) (xs : List Piece) : Prop where
  means : Means n v (xs.map (·.token .start))
  fits : ∀ x ∈ xs, x.Fits

/-- The token of a sign. -/
def signLeaf (s : Symbol) : Sign s := ⟨(sign s).token .start, rfl⟩

/-- The token of a keyword. -/
def wordLeaf (k : Keyword) : Word k := ⟨(word k).token .start, rfl⟩

omit [Host] in
/-- The token of a name. -/
theorem exists_nameLeaf {name : Name} (h : name.IsIdentifier) :
    ∃ leaf : Leaf .name, leaf.token = (nameOf name).token .start ∧ Json.str leaf.spelled = name := by
  obtain ⟨s, rfl, -⟩ := h
  refine ⟨⟨⟨.name, s.toList, .start⟩, rfl⟩, by rw [nameOf_str]; rfl, ?_⟩
  rw [Leaf.spelled, Token.string, String.ofList_toList]

namespace Written

variable {l : Layer} {v : Expr} {xs ys : List Piece}

theorem loosen {m : Layer} (hle : m.depth ≤ l.depth) (h : Written (.layer l) v xs) :
    Written (.layer m) v xs :=
  ⟨h.means.loosen hle, h.fits⟩

theorem literal (style : Style) (place : List Nat) {value : Literal} (h : value.Printable) :
    Written (.layer .primary) (.lit value) [value.piece style place] := by
  have hliteral := literal_piece style place h .start
  obtain ⟨rule, hrule, -⟩ := Option.map_eq_some_iff.mp hliteral
  refine ⟨⟨.literal rule ⟨_, Terminal.literalRule?_eq_some_iff.mp hrule⟩, ?_, rfl⟩,
    by simpa using literal_fits style place h⟩
  show Expr.lit ((value.piece style place).token .start).value = .lit value
  rw [Token.value, hliteral]

theorem var {name : Name} (h : name.IsIdentifier) :
    Written (.layer .primary) (.var name) [nameOf name] := by
  obtain ⟨leaf, htoken, hspelled⟩ := exists_nameLeaf h
  refine ⟨⟨.var leaf, ?_, ?_⟩, by simpa using nameOf_fits h⟩
  · rw [Derivation.image, hspelled]
  · rw [Derivation.yield, htoken]
    rfl

theorem group (h : Written .expression v xs) :
    Written (.layer .primary) v (sign .lpar :: xs ++ [sign .rpar]) := by
  obtain ⟨⟨d, himage, hyield⟩, hfits⟩ := h
  refine ⟨⟨.group (signLeaf .lpar) d (signLeaf .rpar), himage, ?_⟩, ?_⟩
  · simp [Derivation.yield, hyield, signLeaf]
  · simpa [sign_fits, or_imp, forall_and] using hfits

theorem unary (op : UnaryOp) (h : Written (.layer .unary) v xs) :
    Written (.layer .unary) (.unary op v) (sign (unarySymbol op) :: xs) := by
  obtain ⟨⟨d, rfl, hyield⟩, hfits⟩ := h
  have hop : (((sign (unarySymbol op)).token .start).terminal, op) ∈ unaryOperators := by
    cases op <;> decide
  refine ⟨⟨.unary _ op hop d, rfl, ?_⟩, ?_⟩
  · simp [Derivation.yield, hyield]
  · simpa [sign_fits] using hfits

theorem binary {left right : Expr} {op : BinaryOp}
    (hop : (.symbol (binarySymbol op), op) ∈ l.operators) (hleft : Written (.layer l) left xs)
    (hright : Written (.layer l.tighter) right ys) :
    Written (.layer l) (.binary left op right) (xs ++ sign (binarySymbol op) :: ys) := by
  obtain ⟨⟨d, rfl, hyield⟩, hfits⟩ := hleft
  obtain ⟨⟨d', rfl, hyield'⟩, hfits'⟩ := hright
  refine ⟨⟨.binary d ((sign (binarySymbol op)).token .start) op hop d', rfl, ?_⟩, ?_⟩
  · simp [Derivation.yield, hyield, hyield']
  · simp only [List.forall_mem_append, List.forall_mem_cons]
    exact ⟨hfits, sign_fits _, hfits'⟩

/-- With one pair of parentheses at least, anything is an operand that nothing takes apart. -/
theorem enclosed_succ (pairs : Nat) (h : Written (.layer l) v xs) :
    Written (.layer .primary) v (enclosed (pairs + 1) xs) := by
  induction pairs with
  | zero => exact (h.loosen (Nat.zero_le _)).group
  | succ pairs ih =>
    have hgroup := (ih.loosen (m := .disjunction) (Nat.zero_le _)).group
    have hrow : enclosed (pairs + 1 + 1) xs =
        sign .lpar :: enclosed (pairs + 1) xs ++ [sign .rpar] := by
      simp [enclosed, List.replicate_succ (a := sign .lpar), List.replicate_succ' (a := sign .rpar)]
    rw [hrow]
    exact hgroup

/-- An operand that stands in parentheses wherever it is needed. -/
theorem operand {m : Layer} (style : Style) (place : List Nat) {needed : Bool}
    (hneeded : needed = false → m.depth ≤ l.depth) (h : Written (.layer l) v xs) :
    Written (.layer m) v (enclosed (style.pairs place needed) xs) := by
  have hprimary : m.depth ≤ Layer.primary.depth := by cases m <;> decide
  cases hpairs : style.pairs place needed with
  | succ pairs => exact (h.enclosed_succ pairs).loosen hprimary
  | zero =>
    have hfalse : needed = false := by
      cases needed with
      | false => rfl
      | true => simp [Style.pairs] at hpairs
    have hxs : enclosed 0 xs = xs := by simp [enclosed]
    rw [hxs]
    exact h.loosen (hneeded hfalse)

theorem lastArg (h : Written .expression v xs) : Written .argList [v] xs := by
  obtain ⟨⟨d, rfl, hyield⟩, hfits⟩ := h
  exact ⟨⟨.lastArg d, rfl, hyield⟩, hfits⟩

theorem moreArgs {args : List Expr} (h : Written .expression v xs) (hrest : Written .argList args ys) :
    Written .argList (v :: args) (xs ++ sign .comma :: ys) := by
  obtain ⟨⟨d, rfl, hyield⟩, hfits⟩ := h
  obtain ⟨⟨d', rfl, hyield'⟩, hfits'⟩ := hrest
  refine ⟨⟨.moreArgs d (signLeaf .comma) d', rfl, ?_⟩, ?_⟩
  · simp [Derivation.yield, hyield, hyield', signLeaf]
  · simp only [List.forall_mem_append, List.forall_mem_cons]
    exact ⟨hfits, sign_fits _, hfits'⟩

theorem call {name : Name} {args : List Expr} (hname : name.IsIdentifier) (h : Written .args args xs) :
    Written (.layer .primary) (.call name args) (nameOf name :: sign .lpar :: xs ++ [sign .rpar]) := by
  obtain ⟨leaf, htoken, rfl⟩ := exists_nameLeaf hname
  obtain ⟨⟨d, rfl, hyield⟩, hfits⟩ := h
  refine ⟨⟨.call leaf (signLeaf .lpar) d (signLeaf .rpar), rfl, ?_⟩, ?_⟩
  · simp [Derivation.yield, hyield, htoken, signLeaf]
  · simp only [List.cons_append, List.forall_mem_append, List.forall_mem_cons]
    exact ⟨nameOf_fits hname, sign_fits _, hfits, sign_fits _, by simp⟩

end Written

/-! ### Expressions -/

/-- The layer of a binary operator. -/
def operatorLayer : BinaryOp → Layer
  | .or => .disjunction
  | .and => .conjunction
  | .eq => .equality
  | .gt => .comparison
  | .lt => .comparison
  | .ge => .comparison
  | .le => .comparison
  | .add => .sum
  | .sub => .sum
  | .mul => .product
  | .div => .product

/-- The tightest layer of an expression that does not stand in parentheses. -/
def expressionLayer : Expr → Layer
  | .binary _ op _ => operatorLayer op
  | .unary _ _ => .unary
  | _ => .primary

omit [Host] in
/-- The rows of the table are the binary layers. -/
theorem operatorLayer_depth (op : BinaryOp) : (operatorLayer op).depth = op.precedence := by
  cases op <;> decide

omit [Host] in
theorem mem_operators (op : BinaryOp) :
    (.symbol (binarySymbol op), op) ∈ (operatorLayer op).operators := by
  cases op <;> decide

omit [Host] in
theorem precedence_le_depth (e : Expr) : e.precedence ≤ (expressionLayer e).depth := by
  cases e with
  | binary left op right => exact Nat.le_of_eq (operatorLayer_depth op).symm
  | unary op operand => exact Nat.le_refl _
  | _ => exact Nat.le_succ _

end Source

section

variable [Host]

mutual

/-- **The pieces of an expression derive it.** -/
theorem Expr.written (style : Style) : ∀ (e : Expr) (place : List Nat), e.Printable →
    Written (.layer (expressionLayer e)) e (e.pieces style place)
  | .lit value, place, h => .literal style place h
  | .var name, place, h => .var h
  | .binary left op right, place, h => by
    have hdepth := operatorLayer_depth op
    have htighter : (operatorLayer op).tighter.depth = op.precedence + 1 := by
      cases op <;> decide
    have hl := precedence_le_depth left
    have hr := precedence_le_depth right
    show Written (.layer (operatorLayer op)) _ _
    refine .binary (mem_operators op) ?_ ?_
    · refine .operand style (0 :: place) ?_ (Expr.written style left (0 :: place) h.1)
      intro hneeded
      rw [decide_eq_false_iff_not] at hneeded
      omega
    · refine .operand style (1 :: place) ?_ (Expr.written style right (1 :: place) h.2)
      intro hneeded
      rw [decide_eq_false_iff_not] at hneeded
      omega
  | .unary op operand, place, h => by
    have ho := precedence_le_depth operand
    refine .unary op (.operand style (0 :: place) ?_ (Expr.written style operand (0 :: place) h))
    intro hneeded
    rw [decide_eq_false_iff_not] at hneeded
    exact Nat.le_trans (Nat.le_of_not_lt hneeded) ho
  | .call name args, place, h => by
    refine .call h.1 ?_
    rcases Expr.allWritten style args place 0 h.2 with rfl | hargs
    · exact ⟨⟨.noArg, rfl, rfl⟩, by simp [separated, Expr.allPieces]⟩
    · obtain ⟨⟨d, himage, hyield⟩, hfits⟩ := hargs
      exact ⟨⟨.someArgs d, himage, hyield⟩, hfits⟩

/-- The pieces of arguments, with commas between them. -/
theorem Expr.allWritten (style : Style) : ∀ (args : List Expr) (place : List Nat) (index : Nat),
    Expr.AllPrintable args →
      args = [] ∨ Written .argList args (separated (Expr.allPieces style place index args))
  | [], _, _, _ => .inl rfl
  | e :: rest, place, index, h => by
    right
    have he : Written .expression e
        (enclosed (style.pairs (index :: place) false) (e.pieces style (index :: place))) :=
      .operand style (index :: place) (fun _ => Nat.zero_le _)
        (Expr.written style e (index :: place) h.1)
    rcases Expr.allWritten style rest place (index + 1) h.2 with rfl | hrest
    · exact he.lastArg
    · cases rest with
      | nil => exact he.lastArg
      | cons e' rest => exact he.moreArgs hrest

end

theorem Expr.whole_written (style : Style) (place : List Nat) {e : Expr} (h : e.Printable) :
    Written .expression e (e.whole style place) :=
  .operand style place (fun _ => Nat.zero_le _) (Expr.written style e place h)

/-! ### Statements -/

namespace Source.Written

variable {tag name : Name} {v : Expr} {xs ys zs : List Piece} {body body' : List Stmt}

theorem declare (htag : tag.IsIdentifier) (hname : name.IsIdentifier) :
    Written .statement (.declare tag name none) [nameOf tag, nameOf name, sign .semicolon] := by
  obtain ⟨tagLeaf, htagToken, rfl⟩ := exists_nameLeaf htag
  obtain ⟨nameLeaf, hnameToken, rfl⟩ := exists_nameLeaf hname
  refine ⟨⟨.declare tagLeaf nameLeaf (signLeaf .semicolon), rfl, ?_⟩, ?_⟩
  · simp [Derivation.yield, htagToken, hnameToken, signLeaf]
  · simp [nameOf_fits htag, nameOf_fits hname, sign_fits]

theorem start (htag : tag.IsIdentifier) (hname : name.IsIdentifier) (h : Written .expression v xs) :
    Written .statement (.declare tag name (some v))
      (nameOf tag :: nameOf name :: sign .equal :: xs ++ [sign .semicolon]) := by
  obtain ⟨tagLeaf, htagToken, rfl⟩ := exists_nameLeaf htag
  obtain ⟨nameLeaf, hnameToken, rfl⟩ := exists_nameLeaf hname
  obtain ⟨⟨d, rfl, hyield⟩, hfits⟩ := h
  refine ⟨⟨.start tagLeaf nameLeaf (signLeaf .equal) d (signLeaf .semicolon), rfl, ?_⟩, ?_⟩
  · simp [Derivation.yield, htagToken, hnameToken, hyield, signLeaf]
  · simp only [List.cons_append, List.forall_mem_cons, List.forall_mem_append]
    exact ⟨nameOf_fits htag, nameOf_fits hname, sign_fits _, hfits, sign_fits _, by simp⟩

theorem assign (hname : name.IsIdentifier) (h : Written .expression v xs) :
    Written .statement (.assign name v) (nameOf name :: sign .equal :: xs ++ [sign .semicolon]) := by
  obtain ⟨nameLeaf, hnameToken, rfl⟩ := exists_nameLeaf hname
  obtain ⟨⟨d, rfl, hyield⟩, hfits⟩ := h
  refine ⟨⟨.assign nameLeaf (signLeaf .equal) d (signLeaf .semicolon), rfl, ?_⟩, ?_⟩
  · simp [Derivation.yield, hnameToken, hyield, signLeaf]
  · simp only [List.cons_append, List.forall_mem_cons, List.forall_mem_append]
    exact ⟨nameOf_fits hname, sign_fits _, hfits, sign_fits _, by simp⟩

theorem branch (h : Written .expression v xs) (hyes : Written .block body ys) :
    Written .statement (.branch v (.stmts body) .absent)
      (word .if :: sign .lpar :: xs ++ sign .rpar :: ys) := by
  obtain ⟨⟨d, rfl, hyield⟩, hfits⟩ := h
  obtain ⟨⟨yes, rfl, hyield'⟩, hfits'⟩ := hyes
  refine ⟨⟨.branch (wordLeaf .if) (signLeaf .lpar) d (signLeaf .rpar) yes, rfl, ?_⟩, ?_⟩
  · simp [Derivation.yield, hyield, hyield', signLeaf, wordLeaf]
  · simp only [List.cons_append, List.forall_mem_cons, List.forall_mem_append]
    exact ⟨word_fits _, sign_fits _, hfits, sign_fits _, hfits'⟩

theorem branchElse (h : Written .expression v xs) (hyes : Written .block body ys)
    (hno : Written .block body' zs) :
    Written .statement (.branch v (.stmts body) (.stmts body'))
      (word .if :: sign .lpar :: xs ++ sign .rpar :: ys ++ word .else :: zs) := by
  obtain ⟨⟨d, rfl, hyield⟩, hfits⟩ := h
  obtain ⟨⟨yes, rfl, hyield'⟩, hfits'⟩ := hyes
  obtain ⟨⟨no, rfl, hyield''⟩, hfits''⟩ := hno
  refine ⟨⟨.branchElse (wordLeaf .if) (signLeaf .lpar) d (signLeaf .rpar) yes (wordLeaf .else) no,
    rfl, ?_⟩, ?_⟩
  · simp [Derivation.yield, hyield, hyield', hyield'', signLeaf, wordLeaf]
  · simp only [List.cons_append, List.append_assoc, List.forall_mem_cons, List.forall_mem_append]
    exact ⟨word_fits _, sign_fits _, hfits, sign_fits _, hfits', word_fits _, hfits''⟩

theorem loop (h : Written .expression v xs) (hbody : Written .block body ys) :
    Written .statement (.loop v (.stmts body))
      (word .while :: sign .lpar :: xs ++ sign .rpar :: ys) := by
  obtain ⟨⟨d, rfl, hyield⟩, hfits⟩ := h
  obtain ⟨⟨block, rfl, hyield'⟩, hfits'⟩ := hbody
  refine ⟨⟨.loop (wordLeaf .while) (signLeaf .lpar) d (signLeaf .rpar) block, rfl, ?_⟩, ?_⟩
  · simp [Derivation.yield, hyield, hyield', signLeaf, wordLeaf]
  · simp only [List.cons_append, List.forall_mem_cons, List.forall_mem_append]
    exact ⟨word_fits _, sign_fits _, hfits, sign_fits _, hfits'⟩

theorem ret (h : Written .expression v xs) :
    Written .statement (.ret v) (word .return :: xs ++ [sign .semicolon]) := by
  obtain ⟨⟨d, rfl, hyield⟩, hfits⟩ := h
  refine ⟨⟨.ret (wordLeaf .return) d (signLeaf .semicolon), rfl, ?_⟩, ?_⟩
  · simp [Derivation.yield, hyield, signLeaf, wordLeaf]
  · simp only [List.cons_append, List.forall_mem_cons, List.forall_mem_append]
    exact ⟨word_fits _, hfits, sign_fits _, by simp⟩

theorem expr (h : Written .expression v xs) :
    Written .statement (.expr v) (xs ++ [sign .semicolon]) := by
  obtain ⟨⟨d, rfl, hyield⟩, hfits⟩ := h
  refine ⟨⟨.expr d (signLeaf .semicolon), rfl, ?_⟩, ?_⟩
  · simp [Derivation.yield, hyield, signLeaf]
  · simp only [List.forall_mem_cons, List.forall_mem_append]
    exact ⟨hfits, sign_fits _, by simp⟩

theorem moreStatements {stmt : Stmt} (h : Written .statement stmt xs)
    (hrest : Written .statements body ys) : Written .statements (stmt :: body) (xs ++ ys) := by
  obtain ⟨⟨d, rfl, hyield⟩, hfits⟩ := h
  obtain ⟨⟨d', rfl, hyield'⟩, hfits'⟩ := hrest
  refine ⟨⟨.moreStatements d d', rfl, ?_⟩, List.forall_mem_append.mpr ⟨hfits, hfits'⟩⟩
  simp [Derivation.yield, hyield, hyield']

theorem block (h : Written .statements body xs) :
    Written .block body (sign .lbrace :: xs ++ [sign .rbrace]) := by
  obtain ⟨⟨d, rfl, hyield⟩, hfits⟩ := h
  refine ⟨⟨.block (signLeaf .lbrace) d (signLeaf .rbrace), rfl, ?_⟩, ?_⟩
  · simp [Derivation.yield, hyield, signLeaf]
  · simp only [List.cons_append, List.forall_mem_cons, List.forall_mem_append]
    exact ⟨sign_fits _, hfits, sign_fits _, by simp⟩

end Source.Written

mutual

/-- **The pieces of a statement derive it.** -/
theorem Stmt.written (style : Style) : ∀ (stmt : Stmt) (place : List Nat), stmt.Printable →
    Written .statement stmt (stmt.pieces style place)
  | .declare tag name none, place, h => .declare h.1 h.2.1
  | .declare tag name (some value), place, h =>
    .start h.1 h.2.1 (Expr.whole_written style (0 :: place) (h.2.2 value rfl))
  | .assign name value, place, h => .assign h.1 (Expr.whole_written style (0 :: place) h.2)
  | .branch condition yes no, place, h => by
    have hcondition := Expr.whole_written style (0 :: place) h.1
    obtain ⟨body, rfl, hyes⟩ := Block.written style yes (1 :: place) h.2.1
    rcases h.2.2 with rfl | hno
    · exact .branch hcondition hyes
    · obtain ⟨body', rfl, hno⟩ := Block.written style no (2 :: place) hno
      exact .branchElse hcondition hyes hno
  | .loop condition block, place, h => by
    have hcondition := Expr.whole_written style (0 :: place) h.1
    obtain ⟨body, rfl, hbody⟩ := Block.written style block (1 :: place) h.2
    exact .loop hcondition hbody
  | .ret value, place, h => .ret (Expr.whole_written style (0 :: place) h)
  | .expr value, place, h => .expr (Expr.whole_written style (0 :: place) h)

/-- The pieces of a block. -/
theorem Block.written (style : Style) : ∀ (block : Block) (place : List Nat), block.Printable →
    ∃ body, block = .stmts body ∧ Written .block body (block.pieces style place)
  | .stmts body, place, h => ⟨body, rfl, .block (Stmt.allWritten style body place 0 h)⟩

/-- The pieces of statements, one after the other. -/
theorem Stmt.allWritten (style : Style) : ∀ (body : List Stmt) (place : List Nat) (index : Nat),
    Stmt.AllPrintable body → Written .statements body (Stmt.allPieces style place index body)
  | [], _, _, _ => ⟨⟨.noStatement, rfl, rfl⟩, by simp [Stmt.allPieces]⟩
  | stmt :: rest, place, index, h =>
    .moreStatements (Stmt.written style stmt (index :: place) h.1)
      (Stmt.allWritten style rest place (index + 1) h.2)

end

/-! ### Functions and programs -/

namespace Source.Written

variable {xs ys : List Piece}

theorem function {name tag : Name} {params : List Param} {body : List Stmt}
    (hname : name.IsIdentifier) (htag : tag.IsIdentifier) (hparams : Written .params params xs)
    (hbody : Written .block body ys) :
    Written .item (.func (.decl ⟨name, tag, params, .stmts body⟩))
      (word .fn :: nameOf name :: sign .lpar :: xs ++
        sign .rpar :: sign .arrow :: nameOf tag :: ys) := by
  obtain ⟨nameLeaf, hnameToken, rfl⟩ := exists_nameLeaf hname
  obtain ⟨tagLeaf, htagToken, rfl⟩ := exists_nameLeaf htag
  obtain ⟨⟨d, rfl, hyield⟩, hfits⟩ := hparams
  obtain ⟨⟨d', rfl, hyield'⟩, hfits'⟩ := hbody
  refine ⟨⟨.function (wordLeaf .fn) nameLeaf (signLeaf .lpar) d (signLeaf .rpar) (signLeaf .arrow)
    tagLeaf d', rfl, ?_⟩, ?_⟩
  · simp [Derivation.yield, hnameToken, htagToken, hyield, hyield', signLeaf, wordLeaf]
  · simp only [List.cons_append, List.forall_mem_cons, List.forall_mem_append]
    exact ⟨word_fits _, nameOf_fits hname, sign_fits _, hfits, sign_fits _, sign_fits _,
      nameOf_fits htag, hfits'⟩

theorem main {body : List Stmt} (h : Written .block body xs) :
    Written .item (.main body) (word .main :: xs) := by
  obtain ⟨⟨d, rfl, hyield⟩, hfits⟩ := h
  refine ⟨⟨.main (wordLeaf .main) d, rfl, ?_⟩, ?_⟩
  · simp [Derivation.yield, hyield, wordLeaf]
  · exact List.forall_mem_cons.mpr ⟨word_fits _, hfits⟩

/-- Items, one after the other. -/
theorem items {items : List Item} {rows : List (List Piece)}
    (h : List.Forall₂ (Written .item) items rows) : Written .program items rows.flatten := by
  induction h with
  | nil => exact ⟨⟨.noItem, rfl, rfl⟩, by simp⟩
  | cons hfirst _ ih =>
    obtain ⟨⟨d, rfl, hyield⟩, hfits⟩ := hfirst
    obtain ⟨⟨d', rfl, hyield'⟩, hfits'⟩ := ih
    refine ⟨⟨.moreItems d d', rfl, ?_⟩, ?_⟩
    · simp [Derivation.yield, hyield, hyield']
    · exact List.forall_mem_append.mpr ⟨hfits, hfits'⟩

end Source.Written

/-- The pieces of parameters, with commas between them. -/
theorem Param.allWritten : ∀ {params : List Param}, (∀ p ∈ params, p.Printable) →
    params = [] ∨ Written .paramList params (separated (params.map Param.pieces))
  | [], _ => .inl rfl
  | .misfit _ :: _, h => (h _ (.head _)).elim
  | .param tag name :: rest, h => by
    right
    obtain ⟨⟨htag, hname⟩, hrest⟩ := List.forall_mem_cons.mp h
    obtain ⟨tagLeaf, htagToken, rfl⟩ := exists_nameLeaf htag
    obtain ⟨nameLeaf, hnameToken, rfl⟩ := exists_nameLeaf hname
    have hlast : Written .paramList [.param (.str tagLeaf.spelled) (.str nameLeaf.spelled)]
        [nameOf (.str tagLeaf.spelled), nameOf (.str nameLeaf.spelled)] := by
      refine ⟨⟨.lastParam tagLeaf nameLeaf, rfl, ?_⟩, ?_⟩
      · simp [Derivation.yield, htagToken, hnameToken]
      · simp [nameOf_fits htag, nameOf_fits hname]
    rcases Param.allWritten hrest with rfl | hmore
    · exact hlast
    · cases rest with
      | nil => exact hlast
      | cons param rest =>
        obtain ⟨⟨d, himage, hyield⟩, hfits⟩ := hmore
        refine ⟨⟨.moreParams tagLeaf nameLeaf (signLeaf .comma) d, ?_, ?_⟩, ?_⟩
        · rw [Derivation.image, himage]
          rfl
        · simp [Derivation.yield, htagToken, hnameToken, hyield, signLeaf, separated, Param.pieces]
        · refine List.forall_mem_append.mpr ⟨hlast.fits, List.forall_mem_cons.mpr ⟨sign_fits _, hfits⟩⟩

theorem Func.written (style : Style) (place : List Nat) : ∀ {f : Func}, f.Printable →
    Written .item (.func f) (f.pieces style place)
  | .decl ⟨name, returnTag, params, body⟩, ⟨hname, htag, hparams, hbody⟩ => by
    obtain ⟨stmts, rfl, hstmts⟩ := Block.written style body place hbody
    refine .function hname htag ?_ hstmts
    rcases Param.allWritten hparams with rfl | hlist
    · exact ⟨⟨.noParam, rfl, rfl⟩, by simp [separated]⟩
    · obtain ⟨⟨d, himage, hyield⟩, hfits⟩ := hlist
      exact ⟨⟨.someParams d, himage, hyield⟩, hfits⟩

theorem Func.allWritten (style : Style) : ∀ {functions : List Func} (index : Nat),
    (∀ f ∈ functions, f.Printable) →
      List.Forall₂ (Written .item) (functions.map .func) (Func.allPieces style index functions)
  | [], _, _ => .nil
  | _ :: _, index, h =>
    have ⟨hfirst, hrest⟩ := List.forall_mem_cons.mp h
    .cons (Func.written style [index] hfirst) (Func.allWritten style (index + 1) hrest)

/-- The items of what stands in the place of the main block. -/
def Block.mainItems : Block → List Item
  | .main body => [.main body]
  | _ => []

theorem Block.mainWritten (style : Style) : ∀ {main : Block}, main.MainPrintable →
    List.Forall₂ (Written .item) main.mainItems (main.mainPieces style)
  | .main body, h => .cons (.main (.block (Stmt.allWritten style body [0] 0 h))) .nil
  | .absent, _ => .nil

omit [Host] in
/-- The main block may stand anywhere among the functions. -/
theorem assemble_split (functions : List Func) {main : Block} (h : main.MainPrintable) (k : Nat) :
    assemble ((functions.map .func).take k ++ main.mainItems ++ (functions.map .func).drop k) =
      .ok ⟨functions, main⟩ := by
  have hfunc : ∀ fs : List Func, (fs.map Item.func).filterMap Item.func? = fs := by
    intro fs
    induction fs with
    | nil => rfl
    | cons f rest ih => rw [List.map_cons, List.filterMap_cons_some (by rfl), ih]
  have hmain : ∀ fs : List Func, (fs.map Item.func).filterMap Item.main? = [] := by
    intro fs
    simp [List.filterMap_map, Function.comp_def, Item.main?]
  have hfunctions : ((functions.map Item.func).take k ++ main.mainItems ++
      (functions.map Item.func).drop k).filterMap Item.func? = functions := by
    have hnone : main.mainItems.filterMap Item.func? = [] := by cases main <;> rfl
    rw [List.filterMap_append, List.filterMap_append, hnone, List.append_nil, ← List.map_take,
      ← List.map_drop, hfunc, hfunc, List.take_append_drop]
  have hmains : ((functions.map Item.func).take k ++ main.mainItems ++
      (functions.map Item.func).drop k).filterMap Item.main? =
        main.mainItems.filterMap Item.main? := by
    rw [List.filterMap_append, List.filterMap_append, ← List.map_take, ← List.map_drop, hmain,
      hmain, List.nil_append, List.append_nil]
  rw [assemble, hfunctions, hmains]
  cases main with
  | main body => rfl
  | absent => rfl
  | stmts body => exact h.elim
  | misfit node => exact h.elim

end

namespace Source

/-- **Reading the text of a program gives the program**, with whatever parentheses are added to those
that are needed, however the floats are spelled, and wherever the main block stands. -/
theorem parse_unparse [Host] (style : Style) {p : Program} (h : p.Printable) :
    parse (p.unparse style) = .ok p := by
  have hfunctions := Func.allWritten style 1 h.functions
  have hbefore := List.rel_append (List.forall₂_take style.mainAt hfunctions)
    (Block.mainWritten style h.main)
  have hitems := List.rel_append hbefore (List.forall₂_drop style.mainAt hfunctions)
  have hprogram : Written .program _ (p.pieces style) := .items hitems
  obtain ⟨⟨d, himage, hyield⟩, hfits⟩ := hprogram
  refine parse_spaced hfits hyield ?_
  rw [himage]
  exact assemble_split p.functions h.main style.mainAt

/-- A spelling of a float, and `2.50` if that is one. -/
noncomputable def spellingOf (x : Float) : List Char :=
  Classical.epsilon fun text => SpellsFloat x text ∧
    (SpellsFloat x "2.50".toList → text = "2.50".toList)

theorem spellingOf_spells {x : Float} (h : ∃ text, SpellsFloat x text) :
    SpellsFloat x (spellingOf x) ∧ (SpellsFloat x "2.50".toList → spellingOf x = "2.50".toList) := by
  refine Classical.epsilon_spec (p := fun text => SpellsFloat x text ∧
    (SpellsFloat x "2.50".toList → text = "2.50".toList)) ?_
  by_cases hx : SpellsFloat x "2.50".toList
  · exact ⟨_, hx, fun _ => rfl⟩
  · obtain ⟨text, htext⟩ := h
    exact ⟨text, htext, fun h => (hx h).elim⟩

/-- Two pairs of parentheses around the value of the second statement of the main block, and the main
block after the first function. -/
noncomputable def roundStyle : Style where
  extra place := if place = [0, 1, 0] then 2 else 0
  float _ := spellingOf
  float_spells _ _ h := (spellingOf_spells h).1
  mainAt := 1

/-- Two and a half, by its bits. -/
def twoAndHalf : Float := Float.ofBits 0x4004000000000000

theorem exactValue_twoAndHalf : Binary64.exactValue twoAndHalf = 5 / 2 := by
  have hparts : Binary64.parts twoAndHalf = (5 * 2 ^ 50, -51) := by decide
  have hmantissa : Binary64.mantissa twoAndHalf = 5 * 2 ^ 50 := by decide
  rw [Binary64.exactValue, hmantissa, hparts]
  norm_num

theorem twoAndHalf_spells : SpellsFloat twoAndHalf "2.50".toList := by
  have hfinite : Binary64.magnitudeBits twoAndHalf < Binary64.infinityBits := by decide
  have hreads := Binary64.readsAs_exactValue hfinite (by decide)
  have hwhole : SpellsNat ([] ++ ['2']) (10 * 0 + 2) := .snoc .nil (by decide)
  have hfraction : SpellsFraction ['5', '0'] (((5 : Nat) + ((0 : Nat) + 0) / 10) / 10) :=
    .cons (by decide) (.cons (by decide) .nil)
  have hnumber := SpellsNumber.mk (by decide) hwhole (by decide) hfraction .none
  refine ⟨_, hnumber, ?_⟩
  rw [exactValue_twoAndHalf] at hreads
  norm_num at hreads ⊢
  exact hreads

/-- A program with operands that need parentheses and operands that do not. -/
def scaled : Program :=
  ⟨[.decl ⟨.str "half", .str "float", [.param (.str "float") (.str "x"), .param (.str "int") (.str "n")],
      .stmts [.ret (.binary (.var (.str "x")) .sub
        (.binary (.var (.str "n")) .sub (.unary .neg (.lit (.int 1)))))]⟩,
    .decl ⟨.str "noop", .str "int", [], .stmts []⟩],
    .main [.declare (.str "float") (.str "y") (some (.lit (.float twoAndHalf))),
      .assign (.str "y") (.binary (.binary (.var (.str "y")) .add (.lit (.int 7))) .mul
        (.call (.str "half") [.var (.str "y"), .lit (.int 3)])),
      .branch (.unary .not (.binary (.var (.str "y")) .and (.lit (.bool true))))
        (.stmts [.expr (.lit (.str "a\n\"b\""))]) (.stmts [])]⟩

theorem scaled_printable : scaled.Printable := by
  have hnames : ∀ s ∈ ["half", "noop", "float", "int", "x", "y", "n"],
      Json.IsIdentifier (.str s) := by
    intro s hs
    have hscan : scanName? s.toList = some (s.toList, []) := by
      revert s
      decide
    refine ⟨s, rfl, (scans_name.sound hscan).2, ?_⟩
    intro k
    cases k <;> revert s <;> decide
  refine ⟨?_, ?_⟩
  · simp [scaled, Func.Printable, Param.Printable, Block.Printable, Stmt.Printable,
      Stmt.AllPrintable, Expr.Printable, Literal.Printable, hnames, maxInt]
  · simp [scaled, Block.MainPrintable, Block.Printable, Stmt.Printable, Stmt.AllPrintable,
      Expr.Printable, Expr.AllPrintable, Literal.Printable, hnames, maxInt]
    exact ⟨_, twoAndHalf_spells⟩

section

open Host

set_option maxRecDepth 20000 in
theorem parse_unparse_scaled :
    scaled.unparse roundStyle =
        "fn half ( float x , int n ) -> float \x7b return x - ( n - - 1 ) ; \x7d " ++
        "main \x7b float y = 2.50 ; y = ( ( ( y + 7 ) * half ( y , 3 ) ) ) ; " ++
        "if ( ! ( y & true ) ) \x7b \"a\\n\\\"b\\\"\" ; \x7d else \x7b \x7d \x7d " ++
        "fn noop ( ) -> int \x7b \x7d" ∧
      parse (scaled.unparse roundStyle) = .ok scaled := by
  refine ⟨?_, parse_unparse roundStyle scaled_printable⟩
  have hfloat : ∀ place, roundStyle.float place twoAndHalf = "2.50".toList := fun _ =>
    (spellingOf_spells ⟨_, twoAndHalf_spells⟩).2 twoAndHalf_spells
  simp only [Program.unparse, Program.pieces, scaled, Func.allPieces, Block.mainPieces, Block.pieces,
    Stmt.allPieces, Stmt.pieces, Expr.whole, Expr.pieces, Literal.piece, hfloat]
  rfl

end

end Source

end SmallImp
