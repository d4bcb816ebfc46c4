import CheckHandle.Text.Split

/-!
# The command line

What the words of a command line ask for. Words are read from left to right; the
first one that makes no sense, or that asks for help or for the version, ends
the reading.
-/

namespace CheckHandle

/-- What a run is to do. -/
inductive Command where
  /-- Expand the package in a directory, into files or onto the output. -/
  | expand (dir : String) (toOutput : Bool)
  /-- Show a file with its markers lowered. -/
  | lower (file : String) (asJson : Bool)
  /-- Show every round of the expansion of a package. -/
  | trace (dir : String)
  /-- Show the syntax tree of a file. -/
  | outline (file : String)
deriving DecidableEq, Inhabited

/-- Options that every command takes. -/
structure Settings where
  /-- Paths of stub files. -/
  stubs : List String := []
  verbosity : Nat := 0
deriving DecidableEq, Inhabited

/-- The kinds of commands. -/
inductive CommandKind where
  | expand
  | lower
  | trace
  | outline
deriving DecidableEq, Inhabited

namespace CommandKind

def ofWord? : String → Option CommandKind
  | "expand" => some .expand
  | "rewrite" => some .lower
  | "trace" => some .trace
  | "ast" => some .outline
  | _ => none

/-- The word that asks for the command. -/
def word : CommandKind → String
  | .expand => "expand"
  | .lower => "rewrite"
  | .trace => "trace"
  | .outline => "ast"

/-- The name of the operand. -/
def operand : CommandKind → String
  | .expand | .trace => "DIR"
  | .lower | .outline => "FILE"

/-- The option that only this command takes. -/
def flag? : CommandKind → Option String
  | .expand => some "stdout"
  | .lower => some "json"
  | .trace | .outline => none

def command (kind : CommandKind) (operand : String) (flag : Bool) : Command :=
  match kind with
  | .expand => .expand operand flag
  | .lower => .lower operand flag
  | .trace => .trace operand
  | .outline => .outline operand

end CommandKind

/-- What help is asked for. -/
inductive HelpTopic where
  | program
  | command (kind : CommandKind)
  /-- The asking itself. -/
  | help
deriving DecidableEq, Inhabited

inductive Invocation where
  | run (settings : Settings) (command : Command)
  | help (topic : HelpTopic)
  | version
deriving DecidableEq, Inhabited

/-- What can be wrong with a command line. -/
inductive Misuse where
  | noCommand
  | unknownCommand (word : String)
  | unknownOption (word : String)
  | missingValue (option : String)
  | needlessValue (option : String)
  | emptyValue (operand : String)
  | repeatedOption (option : String)
  | missingOperand (operand : String)
  | surplusOperand (word : String)
deriving DecidableEq, Inhabited

def Misuse.message : Misuse → String
  | .noCommand => "a subcommand is required"
  | .unknownCommand word => "unrecognized subcommand '" ++ word ++ "'"
  | .unknownOption word => "unexpected argument '" ++ word ++ "' found"
  | .missingValue option => "a value is required for '" ++ option ++ "' but none was supplied"
  | .needlessValue option => "unexpected value for '" ++ option ++ "' found; no more were expected"
  | .emptyValue operand => "a value is required for '" ++ operand ++ "' but none was supplied"
  | .repeatedOption option => "the argument '" ++ option ++ "' cannot be used multiple times"
  | .missingOperand operand =>
    "the following required arguments were not provided: <" ++ operand ++ ">"
  | .surplusOperand word => "unexpected argument '" ++ word ++ "' found"

/-- The form of a word. -/
inductive Word where
  /-- `--`: everything after it is an operand. -/
  | separator
  /-- `--name` or `--name=value`. -/
  | long (name : String) (value : Option String)
  /-- `-abc`: several letters at once. -/
  | short (letters : List Char)
  | operand (text : String)
deriving DecidableEq, Inhabited

def Word.ofString (text : String) : Word :=
  match text.toList with
  | ['-', '-'] => .separator
  | '-' :: '-' :: cs =>
    let value := match cs.dropWhile (· != '=') with
      | [] => none
      | _ :: value => some (String.ofList value)
    .long (String.ofList (cs.takeWhile (· != '='))) value
  | '-' :: c :: cs => .short (c :: cs)
  | _ => .operand text

/-- A word that can be the value of the option before it. -/
def isValue (text : String) : Bool :=
  match Word.ofString text with
  | .operand _ => true
  | _ => false

namespace Settings

def addStub (s : Settings) (path : String) : Except Misuse Settings :=
  if path.isEmpty then .error (.emptyValue "--stubs")
  else .ok { s with stubs := s.stubs ++ [path] }

def raise (s : Settings) : Settings :=
  { s with verbosity := s.verbosity + 1 }

/-- The settings in front of a command and those behind it. Stubs behind it
replace those in front. -/
def override (outer inner : Settings) : Settings :=
  { stubs := if inner.stubs.isEmpty then outer.stubs else inner.stubs
    verbosity := if inner.verbosity == 0 then outer.verbosity else inner.verbosity }

/-- Reads letters. The result is an invocation if one of them ends the
reading. -/
def letters (s : Settings) (ending : Char → Option Invocation) :
    List Char → Except Misuse (Settings ⊕ Invocation)
  | [] => .ok (.inl s)
  | c :: cs =>
    if c == 'v' then s.raise.letters ending cs
    else match ending c with
      | some invocation => .ok (.inr invocation)
      | none => .error (.unknownOption (String.ofList ['-', c]))

end Settings

/-- The words of a command that have been read. -/
structure Pending where
  kind : CommandKind
  settings : Settings := {}
  operand : Option String := none
  flag : Bool := false
deriving DecidableEq, Inhabited

namespace Pending

def addOperand (p : Pending) (text : String) : Except Misuse Pending :=
  if p.operand.isSome then .error (.surplusOperand text)
  else if text.isEmpty then .error (.emptyValue p.kind.operand)
  else .ok { p with operand := some text }

def withSettings (p : Pending) (settings : Settings) : Pending :=
  { p with settings }

def setFlag (p : Pending) (name : String) : Except Misuse Pending :=
  if p.flag then .error (.repeatedOption ("--" ++ name)) else .ok { p with flag := true }

/-- The command, once its words have ended. -/
def finish (outer : Settings) (p : Pending) : Except Misuse Invocation :=
  match p.operand with
  | none => .error (.missingOperand p.kind.operand)
  | some operand => .ok (.run (outer.override p.settings) (p.kind.command operand p.flag))

/-- What a letter asks for behind a command. -/
def ending (kind : CommandKind) : Char → Option Invocation
  | 'h' => some (.help (.command kind))
  | _ => none

/-- Reads the words behind a command. -/
def read (outer : Settings) (p : Pending) : List String → Except Misuse Invocation
  | [] => p.finish outer
  | word :: words =>
    match Word.ofString word with
    | .separator => do (← words.foldlM addOperand p).finish outer
    | .operand text => do (← p.addOperand text).read outer words
    | .short cs => do
      match ← p.settings.letters (ending p.kind) cs with
      | .inl settings => (p.withSettings settings).read outer words
      | .inr invocation => return invocation
    | .long "stubs" (some value) => do
      (p.withSettings (← p.settings.addStub value)).read outer words
    | .long "stubs" none =>
      match words with
      | [] => .error (.missingValue "--stubs")
      | value :: words =>
        if isValue value then do
          (p.withSettings (← p.settings.addStub value)).read outer words
        else .error (.missingValue "--stubs")
    | .long "verbose" none => (p.withSettings p.settings.raise).read outer words
    | .long "help" none => .ok (.help (.command p.kind))
    | .long name value =>
      if p.kind.flag? == some name && value.isNone then do
        (← p.setFlag name).read outer words
      else if name == "verbose" || name == "help" || p.kind.flag? == some name then
        .error (.needlessValue ("--" ++ name))
      else .error (.unknownOption ("--" ++ name))

end Pending

namespace Invocation

/-- What a letter asks for in front of a command. -/
def ending : Char → Option Invocation
  | 'h' => some (.help .program)
  | 'V' => some .version
  | _ => none

/-- The words behind `help`. -/
def ofHelp : List String → Except Misuse Invocation
  | [] => .ok (.help .program)
  | ["help"] => .ok (.help .help)
  | [word] =>
    match CommandKind.ofWord? word with
    | some kind => .ok (.help (.command kind))
    | none => .error (.unknownCommand word)
  | _ :: word :: _ => .error (.unknownCommand word)

/-- Reads the words in front of a command, and what follows. -/
def read (s : Settings) : List String → Except Misuse Invocation
  | [] => .error .noCommand
  | word :: words =>
    match Word.ofString word with
    | .separator => .error (match words with
      | [] => .noCommand
      | word :: _ => .unknownCommand word)
    | .operand "help" => ofHelp words
    | .operand text =>
      match CommandKind.ofWord? text with
      | some kind => Pending.read s { kind } words
      | none => .error (.unknownCommand text)
    | .short cs => do
      match ← s.letters ending cs with
      | .inl settings => read settings words
      | .inr invocation => return invocation
    | .long "stubs" (some value) => do read (← s.addStub value) words
    | .long "stubs" none =>
      match words with
      | [] => .error (.missingValue "--stubs")
      | value :: words =>
        if isValue value then do read (← s.addStub value) words
        else .error (.missingValue "--stubs")
    | .long "verbose" none => read s.raise words
    | .long "help" none => .ok (.help .program)
    | .long "version" none => .ok .version
    | .long name _ =>
      if name == "verbose" || name == "help" || name == "version" then
        .error (.needlessValue ("--" ++ name))
      else .error (.unknownOption ("--" ++ name))

/-- What a command line asks for. -/
def ofArgs (args : List String) : Except Misuse Invocation :=
  read {} args

end Invocation

end CheckHandle
