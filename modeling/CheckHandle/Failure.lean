import CheckHandle.Span
import CheckHandle.Marker.Edit
import CheckHandle.Text.Quoted

/-!
# Failures

A `Cause` says what went wrong and nothing else. A `Fault` adds where, in the
coordinates of the text at hand. A `Failure` is what the user sees: the phase,
the file, the span in the user's own source, and perhaps a hint.
-/

namespace CheckHandle

/-- The two markers of the dialect. -/
inductive MarkerKind where
  | check
  | handle
deriving DecidableEq, Inhabited

/-- The word that introduces the marker. -/
def MarkerKind.keyword : MarkerKind → String
  | .check => "check"
  | .handle => "handle"

/-- Texts that run to a closing delimiter. -/
inductive Enclosed where
  | string
  | rune
  | rawString
  | blockComment
deriving DecidableEq, Inhabited

def Enclosed.name : Enclosed → String
  | .string => "string literal"
  | .rune => "rune literal"
  | .rawString => "raw string literal"
  | .blockComment => "block comment"

/-- The parts that must follow `handle`. -/
inductive HandlePart where
  | identifier
  | brace
deriving DecidableEq, Inhabited

def HandlePart.name : HandlePart → String
  | .identifier => "an identifier"
  | .brace => String.ofList ['\'', '{', '\''] ++ " after the error identifier"

/-- What can be wrong with a stub file. -/
inductive StubFault where
  /-- The document is not JSON of the expected shape. -/
  | badDocument
  /-- A type text does not parse; the message says why. -/
  | badType (text message : String)
  | unresolvedType (text : String)
  | unresolvedFunc (text : String)
  | notFunc (text : String)
deriving DecidableEq, Inhabited

def StubFault.message : StubFault → String
  | .badDocument => "malformed document"
  | .badType text message => text ++ ": " ++ message
  | .unresolvedType text => "cannot resolve type '" ++ text ++ "'"
  | .unresolvedFunc text => "cannot resolve '" ++ text ++ "'"
  | .notFunc text => "'" ++ text ++ "' is not a function type"

/-- Everything that can go wrong. -/
inductive Cause where
  | mismatchedDelimiters
  | unexpectedEnd (construct : MarkerKind)
  | nestedInHandler (marker : MarkerKind)
  | malformedHandle (expected : HandlePart)
  | emptyCheck
  | reservedIdentifier (name : String)
  | unterminated (literal : Enclosed)
  | illegalCharacter (found : Char)
  /-- The lowering overlaps what it has already replaced; the run breaks off. -/
  | misplacedEdit
  | unparsable (message : String)
  | missingPackage
  | markerMisaligned (marker : MarkerKind) (expected found : String)
  | markerUnclaimed (marker : MarkerKind) (offset : Nat)
  | noResults
  | lastNotError (found : String)
  | multiValueContext
  | multipleMultiValue (context : String)
  | unsupportedPosition (context : String)
  | unsupportedType (found : String)
  | undefinedType (remaining : Nat)
  | unreadable (path message : String)
  | noSources (path : String)
  | mismatchedPackage (expected found : String)
  | invalidStubs (fault : StubFault)
deriving DecidableEq, Inhabited

/-- Every name that starts so belongs to the expansion. -/
def reservedStart : String := "_go2"

def Cause.message : Cause → String
  | .mismatchedDelimiters => "mismatched delimiters"
  | .unexpectedEnd construct =>
    "unexpected end of input in the middle of " ++ construct.keyword
  | .nestedInHandler marker => marker.keyword ++ " is not allowed inside a handler"
  | .malformedHandle expected => "expected " ++ expected.name ++ " after 'handle'"
  | .emptyCheck => "check is not followed by an expression"
  | .reservedIdentifier name =>
    "identifier '" ++ name ++ "' uses the reserved prefix '" ++ reservedStart ++ "'"
  | .unterminated literal => "unterminated " ++ literal.name
  | .illegalCharacter found => "illegal character " ++ Text.quoteChar found
  | .misplacedEdit => "edit overlaps the one before it"
  | .unparsable message => "syntax error: " ++ message
  | .missingPackage => "file has no package clause"
  | .markerMisaligned marker expected found =>
    marker.keyword ++ " marker does not land on " ++ expected ++ " (found " ++ found ++ ")"
  | .markerUnclaimed marker offset =>
    marker.keyword ++ " marker at offset " ++ toString offset ++ " matched no syntax node"
  | .noResults => "check expression evaluates to no values"
  | .lastNotError found => "last value of check expression must be error, found " ++ found
  | .multiValueContext =>
    "check expression's parent must be call or assignment to have multiple values"
  | .multipleMultiValue context => "more than one multi-value check in the same " ++ context
  | .unsupportedPosition context => "check is not supported in " ++ context
  | .unsupportedType found => "type " ++ found ++ " cannot be the type of a check expression"
  | .undefinedType remaining =>
    "undefined type: " ++ toString remaining ++ " check expression(s) could not be resolved"
  | .unreadable path message => "cannot read '" ++ path ++ "': " ++ message
  | .noSources path => "no source files found in '" ++ path ++ "'"
  | .mismatchedPackage expected found =>
    "mismatched package declarations: '" ++ expected ++ "' and '" ++ found ++ "'"
  | .invalidStubs fault => "invalid stub file: " ++ fault.message

/-- The stage of the pipeline that a cause belongs to. -/
inductive Category where
  | lexical
  | parse
  | shape
  | semantic
  | convergence
  | input
deriving DecidableEq, Inhabited

/-- The words in front of a message of this category. -/
def Category.title : Category → String
  | .lexical => "Lex error"
  | .parse => "Parse error"
  | .shape => "Internal error"
  | .semantic => "Check error"
  | .convergence => "Type error"
  | .input => "Input error"

def Cause.category : Cause → Category
  | .mismatchedDelimiters | .unexpectedEnd _ | .nestedInHandler _ | .malformedHandle _
  | .emptyCheck | .reservedIdentifier _ | .unterminated _ | .illegalCharacter _ => .lexical
  | .unparsable _ | .missingPackage => .parse
  | .misplacedEdit | .markerMisaligned .. | .markerUnclaimed .. => .shape
  | .noResults | .lastNotError _ | .multiValueContext | .multipleMultiValue _
  | .unsupportedPosition _ | .unsupportedType _ => .semantic
  | .undefinedType _ => .convergence
  | .unreadable .. | .noSources _ | .mismatchedPackage .. | .invalidStubs _ => .input

/-- The short name of a cause, the last part of its code. -/
def Cause.name : Cause → String
  | .mismatchedDelimiters => "mismatched_delimiters"
  | .unexpectedEnd _ => "unexpected_eof"
  | .nestedInHandler _ => "nested_in_handler"
  | .malformedHandle _ => "malformed_handle"
  | .emptyCheck => "empty_check"
  | .reservedIdentifier _ => "reserved_identifier"
  | .unterminated _ => "unterminated_literal"
  | .illegalCharacter _ => "illegal_character"
  | .misplacedEdit => "panic"
  | .unparsable _ => "syntax"
  | .missingPackage => "missing_package"
  | .markerMisaligned .. => "marker_misaligned"
  | .markerUnclaimed .. => "marker_unclaimed"
  | .noResults => "no_results"
  | .lastNotError _ => "last_not_error"
  | .multiValueContext => "multi_value_context"
  | .multipleMultiValue _ => "multiple_multi_value"
  | .unsupportedPosition _ => "unsupported_position"
  | .unsupportedType _ => "unsupported_type"
  | .undefinedType _ => "undefined_type"
  | .unreadable .. => "io"
  | .noSources _ => "no_sources"
  | .mismatchedPackage .. => "mismatched_package"
  | .invalidStubs _ => "invalid_stubs"

/-- What stands beside the marked span. -/
def Cause.label : Cause → String
  | .mismatchedDelimiters => "unbalanced delimiter"
  | .unexpectedEnd _ => "input ends here"
  | .nestedInHandler _ => "not allowed here"
  | .malformedHandle _ => "malformed handle"
  | .emptyCheck => "empty check"
  | .reservedIdentifier _ => "reserved identifier"
  | .unterminated _ => "literal starts here"
  | .illegalCharacter _ => "illegal character"
  | .misplacedEdit => "edit position"
  | .unparsable _ => "syntax error"
  | .missingPackage => "expected `package <name>` first"
  | .markerMisaligned .. | .markerUnclaimed .. => "marker position"
  | .noResults | .lastNotError _ | .unsupportedType _ => "checked expression"
  | .multiValueContext | .multipleMultiValue _ => "multi-value check"
  | .unsupportedPosition _ => "unsupported check"
  | .undefinedType _ => "unresolved check"
  | .unreadable .. | .noSources _ | .mismatchedPackage .. | .invalidStubs _ => "here"

/-- The steps of a run, as they are named in the code of a failure. -/
inductive Phase where
  | scan
  | layout
  | lower
  | parse
  | type
  | stubs
  | collect
  | expand
  | discover
  | files
deriving DecidableEq, Inhabited

def Phase.name : Phase → String
  | .scan => "scan"
  | .layout => "normalize"
  | .lower => "rewrite"
  | .parse => "parse"
  | .type => "type"
  | .stubs => "stubs"
  | .collect => "collect"
  | .expand => "expand"
  | .discover => "discover"
  | .files => "io"

/-- A cause and where it arose in the text at hand. An internal fault is one
that no input should bring about. -/
structure Fault where
  cause : Cause
  span : Span
  internal : Bool := false
deriving DecidableEq, Inhabited

/-- A cause as the user sees it; the span is in the user's source. -/
structure Failure where
  cause : Cause
  phase : Phase
  source : String
  span : Span
  help : Option String := none
deriving DecidableEq, Inhabited

def Failure.message (f : Failure) : String :=
  f.cause.category.title ++ ": " ++ f.cause.message

def Failure.code (f : Failure) : String :=
  "checkflow::" ++ f.phase.name ++ "::" ++ f.cause.name

/-- A file at some phase. With `offsets`, spans are those of its lowered text. -/
structure Site where
  source : String
  phase : Phase
  offsets : Option OffsetMap := none
deriving Inhabited

/-- The span of the user's source that a span of the text at hand stands for. -/
def Site.sourceSpan (site : Site) (span : Span) : Span :=
  match site.offsets with
  | none => span
  | some offsets =>
    let start := offsets.toSource span.start
    ⟨start, max (offsets.toSource span.stop) start⟩

/-- The hint that goes with an internal fault. -/
def internalHelp : String :=
  "This is an internal compiler error. Please report this as a bug."

/-- The failure that a fault at this site amounts to. -/
def Site.locate (site : Site) (fault : Fault) : Failure :=
  { cause := fault.cause
    phase := site.phase
    source := site.source
    span := site.sourceSpan fault.span
    help := if fault.internal then some internalHelp else none }

/-- The source name of a failure that belongs to no file. -/
def fallbackSource : String := "fallback"

/-- A failure that points at nothing. -/
def unplaced (source : String) (phase : Phase) (cause : Cause) : Failure :=
  { cause, phase, source, span := {} }

end CheckHandle
