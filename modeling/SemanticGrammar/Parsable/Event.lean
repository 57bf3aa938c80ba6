import SemanticGrammar.Grammar

/-!
# What a parsable reports

A parsable reports each call of its engine and, once for each parse, how the
parse went.  A log entry has a level, a format text and the arguments of the
format.  The elapsed time of a successful parse is measured by the caller.
-/

namespace SemanticGrammar

inductive LogLevel where
  | debug
  | warn
  | error
  deriving DecidableEq, Repr

def LogLevel.name : LogLevel → String
  | debug => "debug"
  | warn => "warn"
  | error => "error"

inductive LogArgument where
  | text (content : String)
  | count (number : Nat)
  deriving DecidableEq, Repr

inductive LogEntry where
  /-- A grammar was derived for a root symbol. -/
  | derived (name : String) (symbols productions tokens : Nat)
  /-- An input was parsed and has a value. -/
  | parsed (name : String) (trees values : Nat)
  /-- An input has no tree. -/
  | noParse (name input : String)
  /-- An input has trees, and none of them has a value. -/
  | noInterpretation (trees : Nat) (name input : String)
  /-- A parse was stopped by a fault. -/
  | failed (name message : String)
  deriving DecidableEq, Repr

namespace LogEntry

def level : LogEntry → LogLevel
  | derived .. => .debug
  | parsed .. => .debug
  | noParse .. => .warn
  | noInterpretation .. => .warn
  | failed .. => .error

def format : LogEntry → String
  | derived .. =>
      "[synchro] derived grammar for %s: %d symbols, %d productions, %d tokens"
  | parsed .. => "[synchro] parsed %s: %d tree(s), %d value(s) in %dms"
  | noParse .. => "[synchro] no parse of %s for input %j"
  | noInterpretation .. =>
      "[synchro] %d parse(s) of %s but no valid interpretation for input %j"
  | failed .. => "[synchro] parse of %s failed: %s"

/-- The arguments of the format text, given the elapsed milliseconds. -/
def arguments (elapsed : Nat) : LogEntry → List LogArgument
  | derived name symbols productions tokens =>
      [.text name, .count symbols, .count productions, .count tokens]
  | parsed name trees values =>
      [.text name, .count trees, .count values, .count elapsed]
  | noParse name input => [.text name, .text input]
  | noInterpretation trees name input =>
      [.count trees, .text name, .text input]
  | failed name message => [.text name, .text message]

end LogEntry

inductive Event where
  /-- The engine is called for a parser. -/
  | engineCalled (grammar : Grammar) (maxTrees : Option Int)
  /-- An entry for the log. -/
  | logged (entry : LogEntry)

end SemanticGrammar
