/-!
The words of a command line. Switches stand alone; options take a value, in the next word or behind
an equals sign; one word may name the input. Everything is said at most once. A word that begins
with a dash is never the value of the word before it, unless it is a lone dash.
-/

namespace StylePrint.CommandLine

/-- What a command line asks for. -/
structure Arguments where
  /-- The file with the tree; standard input when it is missing or a lone dash. -/
  input : Option String := none
  output : Option String := none
  compress : Bool := false
  sourcemap : Bool := false
  indent : Option String := none
  noInputSourcemaps : Bool := false
  config : Option String := none
  deriving DecidableEq, Repr

/-- An option that takes a value. -/
inductive ValueOption where
  | output
  | indent
  | config
  deriving DecidableEq, Repr

/-- A switch. -/
inductive Switch where
  | compress
  | sourcemap
  | noInputSourcemaps
  deriving DecidableEq, Repr

/-- What a flag means. -/
inductive Flag where
  | switch (switch : Switch)
  | value (option : ValueOption)
  | version
  | help
  deriving DecidableEq, Repr

/-- How a command line is understood. -/
inductive Invocation where
  | run (arguments : Arguments)
  | version
  | help
  /-- The command line breaks the rules. -/
  | refused
  deriving DecidableEq, Repr

/-- The flag with a given long name. -/
def Flag.ofName? (name : String) : Option Flag :=
  [("output", .value .output), ("indent", .value .indent), ("config", .value .config),
   ("compress", .switch .compress), ("sourcemap", .switch .sourcemap),
   ("no-input-sourcemaps", .switch .noInputSourcemaps), ("version", .version),
   ("help", .help)].lookup name

/-- The flag with a given letter. -/
def Flag.ofLetter? (letter : Char) : Option Flag :=
  [('o', .value .output), ('V', .version), ('h', .help)].lookup letter

namespace Arguments

/-- Turns a switch on; `none` when it is on already. -/
def turnOn (a : Arguments) : Switch → Option Arguments
  | .compress => if a.compress then none else some { a with compress := true }
  | .sourcemap => if a.sourcemap then none else some { a with sourcemap := true }
  | .noInputSourcemaps =>
    if a.noInputSourcemaps then none else some { a with noInputSourcemaps := true }

/-- Gives an option its value; `none` when it has one already, or when the name of a file is
empty. -/
def give (a : Arguments) (value : String) : ValueOption → Option Arguments
  | .output =>
    if a.output.isSome ∨ value = "" then none else some { a with output := some value }
  | .indent => if a.indent.isSome then none else some { a with indent := some value }
  | .config =>
    if a.config.isSome ∨ value = "" then none else some { a with config := some value }

/-- Names the input; `none` when it is named already. -/
def giveInput (a : Arguments) (value : String) : Option Arguments :=
  if a.input.isSome then none else some { a with input := some value }

end Arguments

/-! ### Reading the words -/

/-- What one word does. -/
inductive Effect where
  | next (arguments : Arguments)
  /-- The next word is the value of an option. -/
  | await (arguments : Arguments) (option : ValueOption)
  /-- Every further word is an input. -/
  | inputsOnly
  | stop (invocation : Invocation)
  deriving DecidableEq, Repr

/-- Goes on with arguments, or refuses the command line when there are none. -/
def Effect.ofArguments : Option Arguments → Effect
  | some a => .next a
  | none => .stop .refused

/-- Does what a flag means, given the value that is attached to it. -/
def applyFlag (a : Arguments) (attached : Option String) : Flag → Effect
  | .switch switch =>
    if attached.isSome then .stop .refused else .ofArguments (a.turnOn switch)
  | .value option =>
    match attached with
    | some value => .ofArguments (a.give value option)
    | none => .await a option
  | .version => if attached.isSome then .stop .refused else .stop .version
  | .help => if attached.isSome then .stop .refused else .stop .help

/-- Reads what stands behind two dashes. -/
def longFlag (a : Arguments) (cs : List Char) : Effect :=
  let name := String.ofList (cs.takeWhile (· ≠ '='))
  let attached := match cs.dropWhile (· ≠ '=') with
    | [] => none
    | _ :: value => some (String.ofList value)
  match Flag.ofName? name with
  | some flag => applyFlag a attached flag
  | none => .stop .refused

/-- Reads what stands behind one dash: a letter, and for an option its value. -/
def shortFlag (a : Arguments) : List Char → Effect
  | [] => .stop .refused
  | letter :: rest =>
    match Flag.ofLetter? letter with
    | some (.value option) =>
      match rest with
      | [] => applyFlag a none (.value option)
      | '=' :: value => applyFlag a (some (String.ofList value)) (.value option)
      | value => applyFlag a (some (String.ofList value)) (.value option)
    | some flag => applyFlag a none flag
    | none => .stop .refused

/-- Reads one word. -/
def word (a : Arguments) (arg : String) : Effect :=
  match arg.toList with
  | ['-', '-'] => .inputsOnly
  | '-' :: '-' :: cs => longFlag a cs
  | ['-'] => .ofArguments (a.giveInput arg)
  | '-' :: cs => shortFlag a cs
  | _ => .ofArguments (a.giveInput arg)

/-- Whether a word can be the value of the word before it. -/
def isValue (arg : String) : Bool :=
  match arg.toList with
  | '-' :: _ :: _ => false
  | _ => true

/-- Reads words that can only name the input. -/
def inputs (a : Arguments) : List String → Invocation
  | [] => .run a
  | arg :: rest =>
    match a.giveInput arg with
    | some a => inputs a rest
    | none => .refused

mutual

/-- Reads words. -/
def words (a : Arguments) : List String → Invocation
  | [] => .run a
  | arg :: rest =>
    match word a arg with
    | .next a => words a rest
    | .await a option => valueThenWords a option rest
    | .inputsOnly => inputs a rest
    | .stop invocation => invocation

/-- Reads the value of an option, and then words. -/
def valueThenWords (a : Arguments) (option : ValueOption) : List String → Invocation
  | [] => .refused
  | arg :: rest =>
    if isValue arg then
      match a.give arg option with
      | some a => words a rest
      | none => .refused
    else .refused

end

/-- How the words of a command line are understood. -/
def Invocation.ofWords (args : List String) : Invocation :=
  words {} args

end StylePrint.CommandLine
