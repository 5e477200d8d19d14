import SmallImp.Text.DecimalDigit
import SmallImp.Text.Quoted

/-!
# Options

Arguments are options, values of options, or the name of the program. Long options may be
abbreviated and may take their value after `=`; short ones may be joined; `--` ends the options.

* `Flag` — the options;
* `UsageFault` — why arguments are refused;
* `Options.parse` — what the arguments ask for.
-/

namespace SmallImp

/-- The options. -/
inductive Flag where
  | help
  | verbose
  | noReport
  | emit
  | tree
deriving DecidableEq

namespace Flag

/-- The ways to write the options. -/
def spellings : List (String × Flag) :=
  [("-h", .help), ("--help", .help), ("-v", .verbose), ("--no-report", .noReport),
    ("--emit-ast", .emit), ("--ast", .tree)]

/-- How messages name an option. -/
def title : Flag → String
  | .help => "-h/--help"
  | .verbose => "-v"
  | .noReport => "--no-report"
  | .emit => "--emit-ast"
  | .tree => "--ast"

/-- Whether an option takes a value. -/
def takesValue : Flag → Bool
  | .emit => true
  | .tree => true
  | _ => false

/-- The option written like this. -/
def ofText? (text : String) : Option Flag :=
  (spellings.find? fun entry => entry.1 == text).map (·.2)

end Flag

/-- Why arguments are refused. -/
inductive UsageFault where
  | ambiguous (arg : String) (candidates : List String)
  | expectsValue (flag : Flag)
  | ignoredValue (flag : Flag) (value : String)
  | conflict (later earlier : Flag)
  | unrecognized (args : List String)
  | missingProgram
deriving DecidableEq

/-- The wording of a refusal. -/
def UsageFault.message : UsageFault → String
  | .ambiguous arg candidates =>
    "ambiguous option: " ++ arg ++ " could match " ++ ", ".intercalate candidates
  | .expectsValue flag => "argument " ++ flag.title ++ ": expected one argument"
  | .ignoredValue flag value =>
    "argument " ++ flag.title ++ ": ignored explicit argument " ++ Text.quote value
  | .conflict later earlier =>
    "argument " ++ later.title ++ ": not allowed with argument " ++ earlier.title
  | .unrecognized args => "unrecognized arguments: " ++ " ".intercalate args
  | .missingProgram => "missing program file; or use --emit-ast/--ast"

/-- What an argument is. -/
inductive Argument where
  /-- A value or the name of the program. -/
  | plain (text : String)
  /-- The mark that ends the options. -/
  | separator
  /-- An option, with the value written in the same argument. -/
  | option (flag : Flag) (short : Bool) (value : Option String)
  /-- An option that does not exist. -/
  | unknown (text : String)

namespace Argument

/-- The text before the first `=` and, if there is one, the text after it. -/
def splitEqual (cs : List Char) : List Char × Option (List Char) :=
  match cs.dropWhile (· ≠ '=') with
  | [] => (cs, none)
  | _ :: value => (cs.takeWhile (· ≠ '='), some value)

/-- A text without the line break at its end, if it ends in one. -/
def dropLineEnd (cs : List Char) : List Char :=
  if cs.getLast? = some '\n' then cs.dropLast else cs

/-- Whether an argument is a negative number: digits, with digits after a point if there is one. A
line break at the end does not count. -/
def isNegativeNumber (cs : List Char) : Bool :=
  match dropLineEnd cs with
  | '-' :: rest =>
    match rest.dropWhile Text.isDecimalDigit with
    | [] => !rest.isEmpty
    | '.' :: fraction => !fraction.isEmpty && fraction.all Text.isDecimalDigit
    | _ => false
  | _ => false

/-- The options an argument can be short for: long ones by their beginning, short ones by their
letter. -/
def candidates (arg : List Char) : List (String × Argument) :=
  match arg with
  | '-' :: '-' :: _ =>
    let (start, value) := splitEqual arg
    Flag.spellings.filterMap fun (spelling, flag) =>
      if start.isPrefixOf spelling.toList then
        some (spelling, .option flag false (value.map String.ofList))
      else none
  | '-' :: letter :: rest =>
    Flag.spellings.filterMap fun (spelling, flag) =>
      if spelling.toList = ['-', letter] then
        some (spelling, .option flag true (some (String.ofList rest)))
      else none
  | _ => []

/-- Whether a spelling is one of the short options. -/
def isShort (spelling : String) : Bool := spelling.length = 2

/-- What an argument before `--` is. -/
def classify (arg : String) : Except UsageFault Argument :=
  let cs := arg.toList
  match cs with
  | [] => .ok (.plain arg)
  | first :: rest =>
    if first ≠ '-' then .ok (.plain arg)
    else
      match Flag.ofText? arg with
      | some flag => .ok (.option flag (isShort arg) none)
      | none =>
        if rest.isEmpty then .ok (.plain arg)
        else
          let (start, value) := splitEqual cs
          match value, Flag.ofText? (String.ofList start) with
          | some value, some flag =>
            .ok (.option flag (isShort (String.ofList start)) (some (String.ofList value)))
          | _, _ =>
            match candidates cs with
            | [(_, argument)] => .ok argument
            | [] =>
              if isNegativeNumber cs || cs.contains ' ' then .ok (.plain arg)
              else .ok (.unknown arg)
            | several => .error (.ambiguous arg (several.map (·.1)))

/-- What the arguments are; after `--` all are plain. -/
def classifyAll : List String → Except UsageFault (List Argument)
  | [] => .ok []
  | "--" :: rest => .ok (.separator :: rest.map .plain)
  | arg :: rest => do
    let argument ← classify arg
    let arguments ← classifyAll rest
    return argument :: arguments

end Argument

/-- What the command line is asked to do. -/
structure Options where
  verbosity : Nat
  report : Bool
  emit : Option String
  tree : Option String
  program : Option String
deriving DecidableEq

/-- The options read so far, whether the name of the program may still come, and the arguments that
nothing takes, in reverse. -/
structure OptionState where
  options : Options
  expectsName : Bool
  extras : List String

/-- How the reading of options goes on. -/
inductive Progress where
  | go (state : OptionState)
  /-- Help was asked for. -/
  | help

namespace OptionState

/-- Before the first argument: nothing is traced, and the variables are reported. -/
def initial : OptionState := ⟨⟨0, true, none, none, none⟩, true, []⟩

/-- Takes an option without a value. -/
def take (s : OptionState) : Flag → Progress
  | .help => .help
  | .verbose => .go { s with options := { s.options with verbosity := s.options.verbosity + 1 } }
  | .noReport => .go { s with options := { s.options with report := false } }
  | _ => .go s

/-- Takes an option with its value. The two modes exclude each other. -/
def takeValue (s : OptionState) (flag : Flag) (value : String) : Except UsageFault Progress :=
  match flag with
  | .emit =>
    if s.options.tree.isSome then .error (.conflict .emit .tree)
    else .ok (.go { s with options := { s.options with emit := some value } })
  | .tree =>
    if s.options.emit.isSome then .error (.conflict .tree .emit)
    else .ok (.go { s with options := { s.options with tree := some value } })
  | flag => .ok (s.take flag)

/-- The short options that the letters after a short option stand for. -/
def cluster (flag : Flag) : List Char → Except UsageFault (List Flag)
  | [] => .ok [flag]
  | letter :: rest =>
    match Flag.ofText? (String.ofList ['-', letter]) with
    | some next => (cluster next rest).map (flag :: ·)
    | none => .error (.ignoredValue flag (String.ofList (letter :: rest)))

/-- Takes options without values in order; help ends the reading. -/
def takeAll (s : OptionState) : List Flag → Progress
  | [] => .go s
  | flag :: rest =>
    match s.take flag with
    | .go s => takeAll s rest
    | .help => .help

/-- Takes an option that has a value in the same argument. The mark that ends the options is never
a value: in the place of one it counts as an empty value. -/
def takeExplicit (s : OptionState) (flag : Flag) (short : Bool) (value : String) :
    Except UsageFault Progress :=
  if flag.takesValue then s.takeValue flag (if value = "--" then "" else value)
  else if short && !value.isEmpty then (cluster flag value.toList).map s.takeAll
  else .error (.ignoredValue flag value)

/-- Takes the name of the program. -/
def takeProgram (s : OptionState) (name : Option String) : OptionState :=
  { s with options := { s.options with program := name }, expectsName := false }

/-- Sets an argument aside that nothing takes. -/
def setAside (s : OptionState) (text : String) : OptionState :=
  { s with extras := text :: s.extras }

/-- Takes the arguments in order. The name of the program is the first argument that is not part of
an option; a mark that ends the options goes with it. -/
def takeArguments : OptionState → List Argument → Except UsageFault Progress
  | s, [] => .ok (.go s)
  | s, .option flag short (some value) :: rest => do
    match ← s.takeExplicit flag short value with
    | .go s => takeArguments s rest
    | .help => return .help
  | s, .option flag _ none :: rest =>
    if flag.takesValue then
      match rest with
      | .plain value :: rest => do
        match ← s.takeValue flag value with
        | .go s => takeArguments s rest
        | .help => return .help
      | _ => .error (.expectsValue flag)
    else
      match s.take flag with
      | .go s => takeArguments s rest
      | .help => return .help
  | s, .unknown text :: rest => takeArguments (s.setAside text) rest
  | s, .plain text :: rest =>
    if s.expectsName then
      match rest with
      | .separator :: rest => takeArguments (s.takeProgram (some text)) rest
      | rest => takeArguments (s.takeProgram (some text)) rest
    else takeArguments (s.setAside text) rest
  | s, .separator :: rest =>
    if s.expectsName then
      match rest with
      | .plain text :: rest => takeArguments (s.takeProgram (some text)) rest
      | rest => takeArguments (s.takeProgram none) rest
    else takeArguments (s.setAside "--") rest

end OptionState

/-- What the arguments ask for; nothing if they ask for help. -/
def Options.parse (args : List String) : Except UsageFault (Option Options) := do
  let arguments ← Argument.classifyAll args
  match ← OptionState.takeArguments .initial arguments with
  | .help => return none
  | .go s =>
    if s.extras.isEmpty then return some s.options
    else throw (.unrecognized s.extras.reverse)

end SmallImp
