import Estree.Text

/-!
Command line arguments.
-/

namespace Estree

namespace Command

/-- What an option of some command says. -/
inductive Switch where
  | config
  | flag
  | format
  | verbose
  | help
  deriving DecidableEq, Repr

namespace Switch

def takesValue : Switch → Bool
  | .config => true
  | .flag => true
  | .format => true
  | .verbose => false
  | .help => false

def long : Switch → Text
  | .config => "--config"
  | .flag => "--flag"
  | .format => "--format"
  | .verbose => "--verbose"
  | .help => "--help"

def short? : Switch → Option Char
  | .config => some 'c'
  | .format => some 'f'
  | .verbose => some 'v'
  | _ => none

end Switch

/-- An option with its value, which is empty if it takes none. -/
structure Given where
  option : Switch
  value : Text

/-- The options and the other arguments, each in order. -/
structure Arguments where
  given : List Given
  plain : List Text

namespace Arguments

/-- The option of a long name. -/
def long? (known : List Switch) (name : Text) : Option Switch :=
  known.find? fun o => o.long == name

def short? (known : List Switch) (l : Letter) : Option Switch :=
  known.find? fun o => o.short?.map Letter.char == some l

/-- Options written as letters after one dash.  The first that takes a value takes
what is left of the argument, or the argument after it: that one is named. -/
def cluster (known : List Switch) : List Letter → Option (List Given × Option Switch)
  | [] => some ([], none)
  | l :: rest => do
    let o ← short? known l
    if o.takesValue then
      if rest.isEmpty then some ([], some o) else some ([⟨o, ⟨rest⟩⟩], none)
    else
      let (more, owed) ← cluster known rest
      some (⟨o, ""⟩ :: more, owed)

/-- The options in one argument, and the one whose value is the next argument. -/
def options (known : List Switch) (argument : Text) : Option (List Given × Option Switch) :=
  let letters := argument.letters
  let name := letters.takeWhile (· != .char '=')
  let attached := letters.drop name.length
  match long? known ⟨name⟩ with
  | some o =>
    match o.takesValue, attached with
    | true, _ :: value => some ([⟨o, ⟨value⟩⟩], none)
    | true, [] => some ([], some o)
    | false, [] => some ([⟨o, ""⟩], none)
    | false, _ => none
  | none =>
    match letters with
    | .char '-' :: .char '-' :: _ => none
    | _ => cluster known (letters.drop 1)

/-- An argument that begins with a dash and goes on after it. -/
def isOption (argument : Text) : Bool :=
  match argument.letters with
  | .char '-' :: _ :: _ => true
  | _ => false

/-- Tell options from other arguments.  After two dashes there are no more
options; none if an option is unknown, lacks its value, or has one it does not
take. -/
def parse (known : List Switch) : List Text → Option Arguments
  | [] => some ⟨[], []⟩
  | argument :: rest =>
    if argument = "--" then some ⟨[], rest⟩
    else if isOption argument then
      match options known argument, rest with
      | none, _ => none
      | some (given, none), rest => do
        let more ← parse known rest
        some { more with given := given ++ more.given }
      | some (_, some _), [] => none
      | some (given, some o), value :: rest => do
        let more ← parse known rest
        some { more with given := given ++ ⟨o, value⟩ :: more.given }
    else do
      let more ← parse known rest
      some { more with plain := argument :: more.plain }

/-- The values given for an option, in order. -/
def values (a : Arguments) (o : Switch) : List Text :=
  (a.given.filter fun g => g.option == o).map Given.value

/-- The value given last. -/
def last? (a : Arguments) (o : Switch) : Option Text := (a.values o).getLast?

def has (a : Arguments) (o : Switch) : Bool := !(a.values o).isEmpty

end Arguments

/-- What the command line asks for.  A command is about one file or type, but it is
handed all that stand in that place: they are counted after the options are looked
at. -/
inductive Request where
  | help
  /-- The events of a walk. -/
  | trace (files : List Text) (config : Option Text) (flags : List Text) (format : Text)
    (verbose : Bool)
  | dependencies (files : List Text) (verbose : Bool)
  /-- The rule of a node type. -/
  | rule (types : List Text)
  deriving Repr

namespace Request

/-- The request of a command with the given options. -/
def ofArguments (known : List Switch) (args : List Text) (f : Arguments → Request) :
    Option Request :=
  (Arguments.parse known args).map fun a => if a.has .help then .help else f a

def ofCommand (name : Text) (args : List Text) : Option Request :=
  if name = "trace" then
    ofArguments [.config, .flag, .format, .verbose, .help] args fun a =>
      .trace a.plain (a.last? .config) (a.values .flag) ((a.last? .format).getD "rich")
        (a.has .verbose)
  else if name = "dependencies" then
    ofArguments [.verbose, .help] args fun a => .dependencies a.plain (a.has .verbose)
  else if name = "syntax" then ofArguments [.help] args fun a => .rule a.plain
  else none

/-- The request that a command line makes: options of the whole program, the name
of a command, and the arguments of the command.  None if it makes no sense. -/
def parse (asked : Bool) : List Text → Option Request
  | [] => if asked then some .help else none
  | argument :: rest =>
    if argument = "--" then
      if asked then some .help
      else match rest with
        | [] => none
        | name :: args => ofCommand name args
    else if Arguments.isOption argument then
      if argument = Switch.help.long then parse true rest else none
    else if asked then some .help
    else ofCommand argument rest

end Request

end Command

end Estree
