import Mathlib.Data.List.TakeWhile
import Mathlib.Tactic.Common
import SmallImp.CommandLine.Options

/-!
# What arguments ask for

The arguments before the name of a file set how much is traced and whether the variables are
reported. What is then asked for depends on the file alone: a source file is run, its tree is emitted,
or a document is run.

* `Switch` — an argument that sets how a program is run;
* `Options.parse_program`, `Options.parse_tree`, `Options.parse_emit` — the three modes;
* `Argument.isName_append` — the name of a document is read as a name if that of its source file is.
-/

namespace SmallImp

/-! ### Switches -/

theorem Argument.splitEqual_of_notMem {cs : List Char} (h : '=' ∉ cs) :
    splitEqual cs = (cs, none) := by
  have hdrop : cs.dropWhile (· ≠ '=') = [] := by
    rw [List.dropWhile_eq_nil_iff]
    intro c hc
    have hne : c ≠ '=' := fun heq => h (heq ▸ hc)
    simpa using hne
  rw [splitEqual, hdrop]

/-- An argument that sets how a program is run. -/
inductive Switch where
  /-- `-v`, or several of them in one argument. -/
  | verbose (more : Nat)
  | noReport

namespace Switch

/-- How a switch is written. -/
def text : Switch → String
  | .verbose more => String.ofList ('-' :: 'v' :: List.replicate more 'v')
  | .noReport => "--no-report"

/-- What a switch is among the arguments. -/
def argument : Switch → Argument
  | .verbose 0 => .option .verbose true none
  | .verbose (more + 1) => .option .verbose true (some (String.ofList (List.replicate (more + 1) 'v')))
  | .noReport => .option .noReport false none

/-- What a switch sets. -/
def set : Switch → Options → Options
  | .verbose more, options => { options with verbosity := options.verbosity + (more + 1) }
  | .noReport, options => { options with report := false }

theorem ofText?_cluster (more : Nat) : Flag.ofText? (Switch.verbose (more + 1)).text = none := by
  have hne : ∀ entry ∈ Flag.spellings, entry.1 ≠ (Switch.verbose (more + 1)).text := by
    intro entry hentry heq
    have htext : entry.1.toList = '-' :: 'v' :: 'v' :: List.replicate more 'v' := by
      rw [heq, text, String.toList_ofList]
      rfl
    simp only [Flag.spellings, List.mem_cons, List.not_mem_nil, or_false] at hentry
    rcases hentry with rfl | rfl | rfl | rfl | rfl | rfl <;> simp at htext
  rw [Flag.ofText?, List.find?_eq_none.mpr (by simpa using hne), Option.map_none]

theorem classify_text (switch : Switch) : Argument.classify switch.text = .ok switch.argument := by
  cases switch with
  | noReport => rfl
  | verbose more =>
    cases more with
    | zero => rfl
    | succ more =>
      have hcs : (Switch.verbose (more + 1)).text.toList =
          '-' :: 'v' :: List.replicate (more + 1) 'v' := by
        rw [text, String.toList_ofList]
      have hsplit : Argument.splitEqual ('-' :: 'v' :: List.replicate (more + 1) 'v') =
          ('-' :: 'v' :: List.replicate (more + 1) 'v', none) :=
        Argument.splitEqual_of_notMem (by simp)
      have hcandidates : Argument.candidates ('-' :: 'v' :: List.replicate (more + 1) 'v') =
          [("-v", (Switch.verbose (more + 1)).argument)] := rfl
      simp [Argument.classify, hcs, ofText?_cluster, hsplit, hcandidates]

theorem text_ne_separator (switch : Switch) : switch.text ≠ "--" := by
  intro heq
  have hlist := congrArg String.toList heq
  cases switch with
  | noReport => simp [text] at hlist
  | verbose more => simp [text] at hlist

theorem cluster_replicate (more : Nat) : OptionState.cluster .verbose (List.replicate more 'v') =
    .ok (List.replicate (more + 1) .verbose) := by
  induction more with
  | zero => rfl
  | succ more ih =>
    have hflag : Flag.ofText? (String.ofList ['-', 'v']) = some .verbose := rfl
    rw [List.replicate_succ, OptionState.cluster, hflag]
    simp only [ih]
    rfl

theorem takeAll_replicate (more : Nat) (s : OptionState) :
    s.takeAll (List.replicate more .verbose) =
      .go { s with options := { s.options with verbosity := s.options.verbosity + more } } := by
  induction more generalizing s with
  | zero => rfl
  | succ more ih =>
    rw [List.replicate_succ, OptionState.takeAll, OptionState.take]
    simp only [ih]
    congr 3
    omega

/-- A switch changes the options and nothing else. -/
theorem takeArguments_argument (switch : Switch) (s : OptionState) (rest : List Argument) :
    OptionState.takeArguments s (switch.argument :: rest) =
      OptionState.takeArguments { s with options := switch.set s.options } rest := by
  cases switch with
  | noReport =>
    rw [argument, OptionState.takeArguments.eq_def]
    rfl
  | verbose more =>
    cases more with
    | zero =>
      rw [argument, OptionState.takeArguments.eq_def]
      rfl
    | succ more =>
      have hexplicit : s.takeExplicit .verbose true (String.ofList (List.replicate (more + 1) 'v')) =
          .ok (.go { s with options := (Switch.verbose (more + 1)).set s.options }) := by
        have hsome : (String.ofList (List.replicate (more + 1) 'v')).isEmpty = false := by
          rw [Bool.eq_false_iff, ne_eq, String.isEmpty_iff, ← String.toList_inj]
          simp
        simp only [OptionState.takeExplicit, Flag.takesValue, hsome, String.toList_ofList,
          cluster_replicate, Except.map, takeAll_replicate]
        rfl
      rw [argument, OptionState.takeArguments, hexplicit]
      rfl

/-- What switches set, one after the other. -/
def setAll (switches : List Switch) (options : Options) : Options :=
  switches.foldl (fun options switch => switch.set options) options

theorem takeArguments_arguments (switches : List Switch) (s : OptionState) (rest : List Argument) :
    OptionState.takeArguments s (switches.map argument ++ rest) =
      OptionState.takeArguments { s with options := setAll switches s.options } rest := by
  induction switches generalizing s with
  | nil => rfl
  | cons switch switches ih => rw [List.map_cons, List.cons_append, takeArguments_argument, ih]; rfl

/-- Switches ask for no file. -/
theorem setAll_files (switches : List Switch) (options : Options) :
    (setAll switches options).emit = options.emit ∧ (setAll switches options).tree = options.tree ∧
      (setAll switches options).program = options.program := by
  induction switches generalizing options with
  | nil => exact ⟨rfl, rfl, rfl⟩
  | cons switch switches ih =>
    have hset : (switch.set options).emit = options.emit ∧ (switch.set options).tree = options.tree ∧
        (switch.set options).program = options.program := by
      cases switch <;> exact ⟨rfl, rfl, rfl⟩
    obtain ⟨hemit, htree, hprogram⟩ := ih (switch.set options)
    exact ⟨hemit.trans hset.1, htree.trans hset.2.1, hprogram.trans hset.2.2⟩

end Switch

/-! ### The three modes -/

namespace Argument

theorem classifyAll_cons {arg : String} {argument : Argument} {rest : List String}
    {arguments : List Argument} (hseparator : arg ≠ "--") (hfirst : classify arg = .ok argument)
    (hrest : classifyAll rest = .ok arguments) :
    classifyAll (arg :: rest) = .ok (argument :: arguments) := by
  rw [classifyAll, hfirst, hrest]
  · rfl
  · exact hseparator

theorem classifyAll_switches (switches : List Switch) {rest : List String}
    {arguments : List Argument} (hrest : classifyAll rest = .ok arguments) :
    classifyAll (switches.map Switch.text ++ rest) =
      .ok (switches.map Switch.argument ++ arguments) := by
  induction switches with
  | nil => exact hrest
  | cons switch switches ih =>
    exact classifyAll_cons switch.text_ne_separator switch.classify_text ih

/-- An argument that is read as a name: a value of an option, or the name of the program. -/
def IsName (arg : String) : Prop := classify arg = .ok (.plain arg)

theorem IsName.ne_separator {arg : String} (h : IsName arg) : arg ≠ "--" := by
  rintro rfl
  cases h

end Argument

namespace Options

/-- Nothing is traced, the variables are reported, and no file is given. -/
def standard : Options := ⟨0, true, none, none, none⟩

theorem parse_eq {args : List String} {arguments : List Argument} {s : OptionState}
    (hclassify : Argument.classifyAll args = .ok arguments)
    (htake : OptionState.takeArguments .initial arguments = .ok (.go s)) (hextras : s.extras = []) :
    parse args = .ok (some s.options) := by
  rw [parse, hclassify]
  show (OptionState.takeArguments .initial arguments) >>= _ = _
  rw [htake]
  show (if s.extras.isEmpty then _ else _) = _
  rw [hextras]
  rfl

theorem parse_eq_error {args : List String} {arguments : List Argument} {fault : UsageFault}
    (hclassify : Argument.classifyAll args = .ok arguments)
    (htake : OptionState.takeArguments .initial arguments = .error fault) :
    parse args = .error fault := by
  rw [parse, hclassify]
  show (OptionState.takeArguments .initial arguments) >>= _ = _
  rw [htake]
  rfl

/-- Switches and the name of a source file. -/
theorem parse_program (switches : List Switch) {f : String} (hf : Argument.IsName f) :
    parse (switches.map Switch.text ++ [f]) =
      .ok (some { Switch.setAll switches standard with program := some f }) := by
  have hname : Argument.classifyAll [f] = .ok [.plain f] :=
    Argument.classifyAll_cons hf.ne_separator hf rfl
  have htake : OptionState.takeArguments .initial (switches.map Switch.argument ++ [.plain f]) =
      .ok (.go ⟨{ Switch.setAll switches standard with program := some f }, false, []⟩) := by
    rw [Switch.takeArguments_arguments, OptionState.takeArguments.eq_def]
    exact OptionState.takeArguments.eq_def _ _
  exact parse_eq (Argument.classifyAll_switches switches hname) htake rfl

/-- Switches and the name of a document. -/
theorem parse_tree (switches : List Switch) {f : String} (hf : Argument.IsName f) :
    parse (switches.map Switch.text ++ ["--ast", f]) =
      .ok (some { Switch.setAll switches standard with tree := some f }) := by
  have hname : Argument.classifyAll ["--ast", f] = .ok [.option .tree false none, .plain f] :=
    Argument.classifyAll_cons (by decide) rfl (Argument.classifyAll_cons hf.ne_separator hf rfl)
  have hemit : (Switch.setAll switches standard).emit = none := (Switch.setAll_files switches _).1
  have hvalue : OptionState.takeValue ⟨Switch.setAll switches standard, true, []⟩ .tree f =
      .ok (.go ⟨{ Switch.setAll switches standard with tree := some f }, true, []⟩) := by
    simp only [OptionState.takeValue, hemit]
    rfl
  have htake : OptionState.takeArguments .initial
      (switches.map Switch.argument ++ [.option .tree false none, .plain f]) =
        .ok (.go ⟨{ Switch.setAll switches standard with tree := some f }, true, []⟩) := by
    rw [Switch.takeArguments_arguments, OptionState.takeArguments.eq_def]
    show OptionState.takeValue ⟨Switch.setAll switches standard, true, []⟩ .tree f >>= _ = _
    rw [hvalue]
    exact OptionState.takeArguments.eq_def _ _
  exact parse_eq (Argument.classifyAll_switches switches hname) htake rfl

/-- The name of a source file whose tree is emitted. -/
theorem parse_emit {f : String} (hf : Argument.IsName f) :
    parse ["--emit-ast", f] = .ok (some { standard with emit := some f }) := by
  have hname : Argument.classifyAll ["--emit-ast", f] = .ok [.option .emit false none, .plain f] :=
    Argument.classifyAll_cons (by decide) rfl (Argument.classifyAll_cons hf.ne_separator hf rfl)
  have htake : OptionState.takeArguments .initial [.option .emit false none, .plain f] =
      .ok (.go ⟨{ standard with emit := some f }, true, []⟩) := by
    rw [OptionState.takeArguments.eq_def]
    exact OptionState.takeArguments.eq_def _ _
  exact parse_eq hname htake rfl

end Options

/-! ### Names of documents -/

namespace Argument

/-- An argument that starts with a dash and is read as a name for the blank in it. -/
structure Spaced (arg : String) : Prop where
  blank : ' ' ∈ arg.toList
  noValue : ∀ value, (splitEqual arg.toList).2 = some value →
    Flag.ofText? (String.ofList (splitEqual arg.toList).1) = none
  noCandidate : candidates arg.toList = []

theorem ofText?_of_blank {arg : String} (h : ' ' ∈ arg.toList) : Flag.ofText? arg = none := by
  have hspellings : ∀ entry ∈ Flag.spellings, ' ' ∉ entry.1.toList := by decide
  have hne : ∀ entry ∈ Flag.spellings, entry.1 ≠ arg := by
    rintro entry hentry rfl
    exact hspellings entry hentry h
  rw [Flag.ofText?, List.find?_eq_none.mpr (by simpa using hne), Option.map_none]

/-- What an argument can be short for is an option. -/
theorem candidates_option {cs : List Char} {spelling : String} {argument : Argument}
    (h : (spelling, argument) ∈ candidates cs) :
    ∃ flag short value, argument = .option flag short value := by
  unfold candidates at h
  split at h
  next =>
    obtain ⟨⟨spelling', flag⟩, -, hfound⟩ := List.mem_filterMap.mp h
    obtain ⟨-, hsome⟩ := Option.ite_none_right_eq_some.mp hfound
    cases hsome
    exact ⟨_, _, _, rfl⟩
  next =>
    obtain ⟨⟨spelling', flag⟩, -, hfound⟩ := List.mem_filterMap.mp h
    obtain ⟨-, hsome⟩ := Option.ite_none_right_eq_some.mp hfound
    cases hsome
    exact ⟨_, _, _, rfl⟩
  next => cases h

theorem spaced_of_isName {arg : String} {rest : List Char} (h : IsName arg)
    (hcs : arg.toList = '-' :: rest) (hrest : rest ≠ [])
    (hnumber : isNegativeNumber arg.toList = false) : Spaced arg := by
  rw [IsName, classify] at h
  simp only [hcs] at h
  rw [if_neg (by simp)] at h
  split at h
  next => cases h
  next hflag =>
    have hempty : rest.isEmpty = false := by
      cases rest with
      | nil => exact (hrest rfl).elim
      | cons c rest => rfl
    rw [hempty] at h
    simp only [Bool.false_eq_true, if_false] at h
    split at h
    next => cases h
    next hvalue =>
      split at h
      next spelling argument hcandidates =>
        cases h
        have hplain : (spelling, Argument.plain arg) ∈ candidates ('-' :: rest) := by
          rw [hcandidates]
          exact .head _
        obtain ⟨flag, short, value, hoption⟩ := candidates_option hplain
        cases hoption
      next hcandidates =>
        split at h
        next hreason =>
          rw [← hcs, hnumber, Bool.false_or] at hreason
          rw [← hcs] at hvalue hcandidates
          refine ⟨by simpa using hreason, ?_, hcandidates⟩
          intro value hsome
          cases hname : Flag.ofText? (String.ofList (splitEqual arg.toList).1) with
          | none => rfl
          | some flag => exact (hvalue value flag hsome hname).elim
        next => cases h
      next => cases h

theorem isName_of_spaced {arg : String} {rest : List Char} (h : Spaced arg)
    (hcs : arg.toList = '-' :: rest) : IsName arg := by
  have hflag := ofText?_of_blank h.blank
  have hrest : rest.isEmpty = false := by
    have hblank := h.blank
    rw [hcs] at hblank
    cases rest with
    | nil => simp at hblank
    | cons c rest => rfl
  have hcontains : arg.toList.contains ' ' = true := by simpa using h.blank
  have hcandidates := h.noCandidate
  rw [IsName, classify]
  simp only [hcs]
  rw [if_neg (by simp), hflag]
  rw [hcs] at hcontains hcandidates
  simp only [hrest, Bool.false_eq_true, if_false]
  split
  next value flag hvalue hname =>
    rw [← hcs] at hvalue hname
    rw [h.noValue value hvalue] at hname
    cases hname
  next => simp only [hcandidates, hcontains, Bool.or_true, if_true]

/-- What comes after a value does not change the option that has it. -/
theorem splitEqual_append {cs : List Char} (h : '=' ∈ cs) (more : List Char) :
    (splitEqual (cs ++ more)).1 = (splitEqual cs).1 ∧ ∃ value, (splitEqual cs).2 = some value := by
  have hsome : cs.dropWhile (· ≠ '=') ≠ [] := by
    intro hnone
    have hall := List.dropWhile_eq_nil_iff.mp hnone '=' h
    simp at hall
  have htake : (cs.takeWhile (· ≠ '=')).length ≠ cs.length := by
    intro hlength
    have hsplit := congrArg List.length (List.takeWhile_append_dropWhile (p := (· ≠ '=')) (l := cs))
    rw [List.length_append, hlength] at hsplit
    exact hsome (List.length_eq_zero_iff.mp (by omega))
  cases hdrop : cs.dropWhile (· ≠ '=') with
  | nil => exact (hsome hdrop).elim
  | cons c value =>
    have hmore : (cs ++ more).dropWhile (· ≠ '=') = c :: (value ++ more) := by
      rw [List.dropWhile_append, hdrop]
      rfl
    have hstart : (cs ++ more).takeWhile (· ≠ '=') = cs.takeWhile (· ≠ '=') := by
      rw [List.takeWhile_append, if_neg htake]
    simp only [splitEqual, hdrop, hmore, hstart]
    exact ⟨trivial, value, rfl⟩

/-- The beginning of an option gets no shorter with what comes after it. -/
theorem splitEqual_start (cs : List Char) {more : List Char} (hmore : '=' ∉ more) :
    (splitEqual cs).1 <+: (splitEqual (cs ++ more)).1 := by
  by_cases hequal : '=' ∈ cs
  · simp [(splitEqual_append hequal more).1]
  · rw [splitEqual_of_notMem hequal, splitEqual_of_notMem (by simp [hequal, hmore])]
    exact List.prefix_append cs more

/-- Nothing is short for a row of letters if no option is written with the first of them. -/
theorem candidates_letter {letter : Char} (hletter : letter ≠ '-') (rest : List Char) :
    candidates ('-' :: letter :: rest) = [] ↔
      ∀ entry ∈ Flag.spellings, entry.1.toList ≠ ['-', letter] := by
  rw [candidates]
  · simp [List.filterMap_eq_nil_iff]
  · simpa using hletter

theorem candidates_append {cs more : List Char} (hdash : ∃ rest, cs = '-' :: rest ∧ rest ≠ [])
    (hmore : '=' ∉ more) (h : candidates cs = []) : candidates (cs ++ more) = [] := by
  obtain ⟨rest, rfl, hrest⟩ := hdash
  cases rest with
  | nil => exact (hrest rfl).elim
  | cons letter rest =>
    by_cases hletter : letter = '-'
    · subst hletter
      have hstart := splitEqual_start ('-' :: '-' :: rest) hmore
      rw [candidates, List.filterMap_eq_nil_iff] at h
      rw [List.cons_append, List.cons_append, candidates, List.filterMap_eq_nil_iff]
      rintro ⟨spelling, flag⟩ hentry
      have hnone := h ⟨spelling, flag⟩ hentry
      simp only [ite_eq_right_iff, reduceCtorEq, imp_false, List.isPrefixOf_iff_prefix] at hnone ⊢
      exact fun hlong => hnone (hstart.trans hlong)
    · rw [List.cons_append, List.cons_append, candidates_letter hletter]
      exact (candidates_letter hletter rest).mp h

/-- **The name of a document is read as a name if that of its source file is**, unless that is a lone
dash or a negative number. -/
theorem isName_append {f : String} (hf : IsName f) (hdash : f ≠ "-")
    (hnumber : isNegativeNumber f.toList = false) : IsName (f ++ ".ast.json") := by
  cases hcs : f.toList with
  | nil =>
    obtain rfl : f = "" := String.toList_eq_nil_iff.mp hcs
    rfl
  | cons first rest =>
    have htext : (f ++ ".ast.json").toList = first :: (rest ++ ".ast.json".toList) := by
      rw [String.toList_append, hcs]
      rfl
    by_cases hfirst : first = '-'
    · subst hfirst
      have hrest : rest ≠ [] := by
        rintro rfl
        exact hdash (String.toList_inj.mp hcs)
      have hspaced := spaced_of_isName hf hcs hrest hnumber
      refine isName_of_spaced ⟨?_, ?_, ?_⟩ htext
      · rw [String.toList_append]
        exact List.mem_append_left _ hspaced.blank
      · intro value hvalue
        rw [String.toList_append] at hvalue ⊢
        by_cases hequal : '=' ∈ f.toList
        · obtain ⟨hstart, value', hvalue'⟩ := splitEqual_append hequal ".ast.json".toList
          rw [hstart]
          exact hspaced.noValue value' hvalue'
        · rw [splitEqual_of_notMem (by simpa using hequal)] at hvalue
          cases hvalue
      · rw [String.toList_append]
        exact candidates_append ⟨rest, hcs, hrest⟩ (by simp) hspaced.noCandidate
    · rw [IsName, classify]
      simp only [htext]
      rw [if_pos hfirst]

end Argument

end SmallImp
