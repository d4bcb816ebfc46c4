import CheckHandle.Grammar.Host
import CheckHandle.Text.Blank
import CheckHandle.Text.Bytes
import CheckHandle.Failure

/-!
# Matching

`Pattern.run` matches a pattern at a cursor, given how rules are matched, and
`matchRule` ties the knot with a bound on the nesting of rules. Outside token
rules, gaps are skipped between the parts of a sequence and between
repetitions. A match gives the trees of the rules it used; along the way the
furthest offset at which rules failed is kept, for the report of a failure.
-/

namespace CheckHandle

open Text

/-- A rule that matched: the offset where it starts, the text it covers and the
rules inside it. -/
inductive Tree where
  | node (rule : Rule) (start : Nat) (text : List Char) (children : List Tree)
deriving Inhabited

namespace Tree

def rule : Tree → Rule
  | .node rule _ _ _ => rule

def start : Tree → Nat
  | .node _ start _ _ => start

def text : Tree → List Char
  | .node _ _ text _ => text

def children : Tree → List Tree
  | .node _ _ _ children => children

/-- The span of a match, without the gaps at its end. -/
def span (t : Tree) : Span :=
  ⟨t.start, t.start + byteLength (trimEnd t.text)⟩

end Tree

/-- What is left of the input, and where it starts. -/
structure Cursor where
  offset : Nat
  rest : List Char
deriving Inhabited

namespace Cursor

/-- Moves past gaps. -/
def skipGaps (c : Cursor) : Cursor :=
  let rest := c.rest.dropWhile isGap
  ⟨c.offset + (c.rest.takeWhile isGap).length, rest⟩

/-- Moves past a fixed text. -/
def strip (c : Cursor) (text : List Char) : Option Cursor :=
  if text.isPrefixOf c.rest then
    some ⟨c.offset + byteLength text, c.rest.drop text.length⟩
  else none

end Cursor

/-- The furthest offset at which a rule failed and the rules that failed there,
the latest first. -/
structure Furthest where
  offset : Nat := 0
  rules : List Rule := []
deriving Inhabited

namespace Furthest

/-- How many rules are known to have failed at an offset. -/
def count (f : Furthest) (offset : Nat) : Nat :=
  if f.offset = offset then f.rules.length else 0

/-- Records that `rule` failed at `offset`, where `before` rules had failed when
it was entered. A single rule that failed inside it there stands for it;
several are replaced by it. -/
def record (f : Furthest) (rule : Rule) (offset before : Nat) : Furthest :=
  if f.count offset - before = 1 then f
  else if f.offset < offset then ⟨offset, [rule]⟩
  else if f.offset = offset then
    ⟨offset, rule :: f.rules.drop (f.rules.length - before)⟩
  else f

/-- The rules that would have been accepted, in the order of the grammar. -/
def expected (f : Furthest) : List Rule :=
  (f.rules.mergeSort fun a b => a.order ≤ b.order).eraseDups

/-- The report of a failed match. -/
def message (f : Furthest) : String :=
  if f.rules.isEmpty then "unexpected input"
  else "expected " ++ " or ".intercalate (f.expected.map Rule.describe)

end Furthest

inductive Outcome where
  | matched (cursor : Cursor) (trees : List Tree) (furthest : Furthest)
  | failed (furthest : Furthest)
deriving Inhabited

/-- How a rule is matched; the flag says that a token is being matched. -/
abbrev RuleMatcher := Bool → Rule → Cursor → Furthest → Outcome

/-- Repeats `step` while it matches, with gaps skipped before each repetition if
`gaps` is set. Every repetition uses up a character, so the characters of
`bound`, the input that is left, bound the repetitions; without any, one attempt
is left. -/
def repeatMatch (step : Cursor → Furthest → Outcome) (gaps : Bool) :
    List Char → Cursor → Furthest → Outcome
  | [], c, f =>
    match step (if gaps then c.skipGaps else c) f with
    | .failed f => .matched c [] f
    | .matched c' trees f => .matched c' trees f
  | _ :: bound, c, f =>
    match step (if gaps then c.skipGaps else c) f with
    | .failed f => .matched c [] f
    | .matched c' trees f =>
      if c'.offset ≤ c.offset then .matched c' trees f
      else
        match repeatMatch step gaps bound c' f with
        | .failed f => .failed f
        | .matched c'' more f => .matched c'' (trees ++ more) f

/-- Matches a pattern. In a token (`inToken`) gaps are not skipped. -/
def Pattern.run (call : RuleMatcher) (inToken : Bool) :
    Pattern → Cursor → Furthest → Outcome
  | .empty, c, f => .matched c [] f
  | .lit text, c, f =>
    match c.strip text with
    | some c => .matched c [] f
    | none => .failed f
  | .one charClass, c, f =>
    match c.rest with
    | x :: rest =>
      if charClass.contains x then .matched ⟨c.offset + x.utf8Size, rest⟩ [] f else .failed f
    | [] => .failed f
  | .any, c, f =>
    match c.rest with
    | x :: rest => .matched ⟨c.offset + x.utf8Size, rest⟩ [] f
    | [] => .failed f
  | .start, c, f => if c.offset = 0 then .matched c [] f else .failed f
  | .finish, c, f => if c.rest.isEmpty then .matched c [] f else .failed f
  | .rule r, c, f => call inToken r c f
  | .seq p q, c, f =>
    match p.run call inToken c f with
    | .failed f => .failed f
    | .matched c trees f =>
      match q.run call inToken (if inToken then c else c.skipGaps) f with
      | .failed f => .failed f
      | .matched c more f => .matched c (trees ++ more) f
  | .alt p q, c, f =>
    match p.run call inToken c f with
    | .failed f => q.run call inToken c f
    | .matched c trees f => .matched c trees f
  | .opt p, c, f =>
    match p.run call inToken c f with
    | .failed f => .matched c [] f
    | .matched c trees f => .matched c trees f
  | .star p, c, f =>
    match p.run call inToken c f with
    | .failed f => .matched c [] f
    | .matched c' trees f =>
      if c'.offset ≤ c.offset then .matched c' trees f
      else
        match repeatMatch (p.run call inToken) (!inToken) c'.rest c' f with
        | .failed f => .failed f
        | .matched c'' more f => .matched c'' (trees ++ more) f
  | .not p, c, f =>
    match p.run call inToken c f with
    | .failed _ => .matched c [] f
    | .matched .. => .failed f

/-- Matches a rule, with at most `depth` rules inside one another. Inside a
token, rules leave no trees and their failures are not recorded. -/
def matchRule : Nat → RuleMatcher
  | 0, _, _, _, f => .failed f
  | depth + 1, inToken, r, c, f =>
    let before := f.count c.offset
    match r.body.run (matchRule depth) (inToken || r.isToken) c f with
    | .failed f' => .failed (if inToken then f else f'.record r c.offset before)
    | .matched c' trees f' =>
      if inToken then .matched c' [] f
      else if r.isSilent then .matched c' [] f'
      else
        let text := takeBytes (c'.offset - c.offset) c.rest
        .matched c' [.node r c.offset text (if r.isToken then [] else trees)] f'

/-- No rule calls itself without using up a character, so a match nests rules at
most this deep. -/
def nestingBound (input : List Char) : Nat :=
  (input.length + 1) * 128

/-- The tree of `r` over the whole input, or where and why there is none. -/
def matchInput (r : Rule) (input : String) : Except Fault (List Tree) :=
  let chars := input.toList
  match matchRule (nestingBound chars) false r ⟨0, chars⟩ {} with
  | .matched _ trees _ => .ok trees
  | .failed f => .error ⟨.unparsable f.message, ⟨f.offset, f.offset⟩, false⟩

end CheckHandle
