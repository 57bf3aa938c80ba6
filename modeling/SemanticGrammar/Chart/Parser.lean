import SemanticGrammar.Chart.Search

/-!
# The chart parser

A parse of a token list is a search for the trees of each start symbol over
all tokens, cut off after a largest number of trees.
-/

namespace SemanticGrammar

namespace Chart

/-- The largest number of trees when none is asked for. -/
def defaultLimit : Int :=
  256

/-- A grammar prepared for parsing.  At least one tree is always kept. -/
def ofGrammar (grammar : Grammar) (maxTrees : Option Int) : Chart where
  grammar := grammar
  limit := (max 1 (maxTrees.getD defaultLimit)).toNat
  limit_pos := by omega

/-- The number of cells over a token list of a length: a head with two
positions in order. -/
def cellCount (chart : Chart) (length : Nat) : Nat :=
  chart.grammar.heads.length * ((length + 1) * (length + 2) / 2)

variable {σ : Type}

/-- The trees of several start symbols over all tokens, after those already
found.  No further start symbol is tried once there are too many trees. -/
def startTrees (chart : Chart) (observer : Observer σ)
    (tokens : Array String) :
    List Tree → List Symbol → Search σ (List Tree)
  | found, [] => return found
  | found, start :: starts => do
      let trees ← chart.treesAt observer tokens (chart.cellCount tokens.size)
        [] start 0 tokens.size
      let longer := found ++ trees
      if chart.limit < longer.length then
        return longer.take chart.limit
      else
        startTrees chart observer tokens longer starts

/-- A parse under observation: the trees and the last state of the search. -/
def run (chart : Chart) (observer : Observer σ) (record : σ)
    (tokens : List String) : Except Fault (List Tree × State σ) :=
  (startTrees chart observer tokens.toArray []
    chart.grammar.startSymbols).run ⟨∅, 0, record⟩

def parse (chart : Chart) (tokens : List String) : Except Fault (List Tree) :=
  (chart.run silent () tokens).map Prod.fst

def parser (grammar : Grammar) (maxTrees : Option Int) : Parser :=
  (ofGrammar grammar maxTrees).parse

end Chart

end SemanticGrammar
