import SemanticGrammar.Text.Blank

/-!
# Literals that can be read in two ways

A literal is ambiguous in a set of literals when it is a concatenation of two
or more other members.  The search keeps, for each length, one split of the
beginning of that length into other literals: the split whose last piece is
longest, after the split already kept for what comes before that piece.
-/

namespace SemanticGrammar

/-- A literal together with other literals whose concatenation it is. -/
structure Ambiguity where
  literal : String
  parts : List String
  deriving DecidableEq

namespace Ambiguity

/-- A split of the beginning of a text into pieces, or `none` when the
beginning has no split. -/
abbrev Split := Option (List (List Char))

/-- The split of the first `earlier.length` characters of a text, given the
splits of all shorter beginnings by length: the earliest start of a last
piece wins. -/
def lastSplit (pieces : List (List Char)) (text : List Char)
    (earlier : List Split) : Split :=
  earlier.zipIdx.findSome? fun (split, start) =>
    split.bind fun front =>
      let piece := (text.take earlier.length).drop start
      if piece ∈ pieces then some (front ++ [piece]) else none

/-- The splits of the beginnings of a text, for the lengths from zero to
`length`. -/
def splits (pieces : List (List Char)) (text : List Char) : Nat → List Split
  | 0 => [some []]
  | length + 1 =>
      let earlier := splits pieces text length
      earlier ++ [lastSplit pieces text earlier]

def splitWhole (pieces : List (List Char)) (text : List Char) : Split :=
  (splits pieces text text.length).getLast?.join

/-- The decomposition of one literal into other members of a set. -/
def ofLiteral? (literals : List String) (literal : String) :
    Option Ambiguity :=
  let others := literals.filter (· != literal)
  (splitWhole (others.map String.toList) literal.toList).map fun parts =>
    ⟨literal, parts.map String.ofList⟩

/-- The first ambiguous literal of a set, with its decomposition. -/
def find? (literals : List String) : Option Ambiguity :=
  literals.findSome? (ofLiteral? literals)

@[simp]
theorem splits_length (pieces : List (List Char)) (text : List Char)
    (length : Nat) :
    (splits pieces text length).length = length + 1 := by
  induction length with
  | zero => rfl
  | succ length induction => simp [splits, induction]

end Ambiguity

end SemanticGrammar
