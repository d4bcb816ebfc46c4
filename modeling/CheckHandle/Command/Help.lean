import CheckHandle.Command.Args

/-!
# Help pages

A page says what a thing is for and how it is called, and lists what it takes.
The entries of a list stand in two columns.
-/

namespace CheckHandle

/-- The name and the version of the program. -/
def versionLine : String := "checkflow 0.1.0\n"

/-- A line of a list: what can be written, and what it does. -/
structure HelpEntry where
  label : String
  text : String
deriving DecidableEq, Inhabited

/-- The width of the first column. -/
def labelWidth (entries : List HelpEntry) : Nat :=
  entries.foldl (fun width e => max width e.label.length) 0

def HelpEntry.render (width : Nat) (e : HelpEntry) : String :=
  "  " ++ e.label ++ String.ofList (List.replicate (width - e.label.length) ' ') ++ "  "
    ++ e.text ++ "\n"

/-- Entries under a heading. -/
structure HelpSection where
  heading : String
  entries : List HelpEntry
deriving DecidableEq, Inhabited

def HelpSection.render (s : HelpSection) : String :=
  "\n" ++ s.heading ++ ":\n" ++ String.join (s.entries.map (HelpEntry.render (labelWidth s.entries)))

namespace CommandKind

def purpose : CommandKind → String
  | .expand => "Expand every marked source of a package directory"
  | .lower => "Print the lexically rewritten text and its marker positions"
  | .trace => "Show each fixed-point iteration as a coloured diff"
  | .outline => "Show the syntax tree of a rewritten source file"

def operandPurpose : CommandKind → String
  | .expand | .trace => "The package directory"
  | .lower | .outline => "The marked source file"

/-- The option that only this command takes, for its page. -/
def flagEntries : CommandKind → List HelpEntry
  | .expand => [⟨"    --stdout", "Print the expanded files instead of writing them"⟩]
  | .lower => [⟨"    --json", "Emit JSON instead of text"⟩]
  | .trace | .outline => []

def all : List CommandKind :=
  [.expand, .lower, .trace, .outline]

end CommandKind

namespace HelpTopic

/-- The options that every page with options lists. -/
def sharedOptions : List HelpEntry :=
  [⟨"    --stubs <FILE>", "Extra package stubs (JSON), merged over the builtin ones"⟩,
   ⟨"-v, --verbose...", "Raise log verbosity (-v debug, -vv trace)"⟩,
   ⟨"-h, --help", "Print help"⟩]

def helpPurpose : String := "Print this message or the help of the given subcommand(s)"

def purpose : HelpTopic → String
  | .program => "Expands `check` expressions and `handle` blocks into explicit error propagation."
  | .command kind => kind.purpose
  | .help => helpPurpose

/-- How the thing is called. -/
def usage : HelpTopic → String
  | .program => "checkflow [OPTIONS] <COMMAND>"
  | .command kind => "checkflow " ++ kind.word ++ " [OPTIONS] <" ++ kind.operand ++ ">"
  | .help => "checkflow help [COMMAND]..."

def sections : HelpTopic → List HelpSection
  | .program =>
    [⟨"Commands", CommandKind.all.map (fun kind => ⟨kind.word, kind.purpose⟩)
        ++ [⟨"help", helpPurpose⟩]⟩,
     ⟨"Options", sharedOptions ++ [⟨"-V, --version", "Print version"⟩]⟩]
  | .command kind =>
    [⟨"Arguments", [⟨"<" ++ kind.operand ++ ">", kind.operandPurpose⟩]⟩,
     ⟨"Options", kind.flagEntries ++ sharedOptions⟩]
  | .help => [⟨"Arguments", [⟨"[COMMAND]...", "Print help for the subcommand(s)"⟩]⟩]

/-- The page on a topic. -/
def page (topic : HelpTopic) : String :=
  topic.purpose ++ "\n\nUsage: " ++ topic.usage ++ "\n"
    ++ String.join (topic.sections.map HelpSection.render)

end HelpTopic

end CheckHandle
