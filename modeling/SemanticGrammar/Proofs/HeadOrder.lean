import SemanticGrammar.Chart.Parser
import SemanticGrammar.Proofs.ShortestLength

/-!
# The order of heads

The productions of a grammar are grouped by head in a parse: the trees of a
head follow the order of its own alternatives.  Where the heads stand among
each other does not show.  It does not show in the shortest lengths, which are
least over all derivations, and so it does not show in a search, down to each
step that an observer sees.
-/

namespace SemanticGrammar

namespace Grammar

/-- Whether two grammars differ at most in the order of their heads and of
their lexical categories. -/
structure SameUpToHeads (first second : Grammar) : Prop where
  role_eq : first.role = second.role
  alternatives_eq : first.alternatives = second.alternatives
  startSymbols_eq : first.startSymbols = second.startSymbols

namespace SameUpToHeads

variable {first second : Grammar} (same : first.SameUpToHeads second)

include same

theorem length_heads : first.heads.length = second.heads.length := by
  have perm : first.heads.Perm second.heads := by
    refine (List.perm_ext_iff_of_nodup (nodup_firstOccurrences _)
      (nodup_firstOccurrences _)).mpr fun head => ?_
    rw [← heads, ← heads, mem_heads, mem_heads, same.alternatives_eq]
  exact perm.length_eq

theorem lengthOf (symbol : Symbol) :
    first.lengthOf first.shortestLengths symbol =
      second.lengthOf second.shortestLengths symbol := by
  refine lengthOf_shortestLengths_congr same.role_eq ?_ symbol
  intro production
  exact mem_alternatives.symm.trans
    (same.alternatives_eq ▸ mem_alternatives)

theorem totalLength (symbols : List Symbol) :
    first.totalLength first.shortestLengths symbols =
      second.totalLength second.shortestLengths symbols := by
  rw [Grammar.totalLength, Grammar.totalLength, funext same.lengthOf]

end SameUpToHeads

end Grammar

namespace Chart

/-- Whether two charts have one limit and grammars that differ at most in the
order of their heads and of their lexical categories. -/
structure SameUpToHeads (first second : Chart) : Prop where
  limit_eq : first.limit = second.limit
  grammar : first.grammar.SameUpToHeads second.grammar

namespace SameUpToHeads

variable {σ : Type} {first second : Chart} (same : first.SameUpToHeads second)

include same

theorem splits : first.splits = second.splits := by
  funext symbol rest start stop
  simp only [Chart.splits, first.lengths_eq, second.lengths_eq,
    same.grammar.lengthOf, same.grammar.totalLength]

theorem tooShort : first.tooShort = second.tooShort := by
  funext symbol start stop
  simp only [Chart.tooShort, first.lengths_eq, second.lengths_eq,
    same.grammar.lengthOf, same.grammar.alternatives_eq]

variable {treesOf : Symbol → Nat → Nat → Search σ (List Tree)}

theorem sequencesAt (symbols : List Symbol) (start stop : Nat) :
    Chart.sequencesAt first treesOf symbols start stop =
      Chart.sequencesAt second treesOf symbols start stop := by
  induction symbols generalizing start with
  | nil => rfl
  | cons symbol rest ih =>
      rw [Chart.sequencesAt, Chart.sequencesAt, same.limit_eq, same.splits]
      simp only [ih]

theorem nodesOver (head : Symbol) (start stop : Nat) (found : List Tree)
    (alternatives : List (List Symbol)) :
    Chart.nodesOver first treesOf head start stop found alternatives =
      Chart.nodesOver second treesOf head start stop found alternatives := by
  induction alternatives generalizing found with
  | nil => rfl
  | cons alternative alternatives ih =>
      rw [Chart.nodesOver, Chart.nodesOver, same.limit_eq, same.sequencesAt]
      simp only [ih]

variable (observer : Observer σ) (tokens : Array String)

theorem treesAt (depth : Nat) (active : List Cell) :
    first.treesAt observer tokens depth active =
      second.treesAt observer tokens depth active := by
  induction depth generalizing active with
  | zero =>
      funext symbol start stop
      rw [treesAt.eq_def, treesAt.eq_def, same.grammar.role_eq, same.tooShort]
  | succ depth ih =>
      funext symbol start stop
      rw [treesAt.eq_def, treesAt.eq_def, same.grammar.role_eq, same.tooShort]
      simp only [ih, same.nodesOver, same.grammar.alternatives_eq]

theorem startTrees (found : List Tree) (starts : List Symbol) :
    Chart.startTrees first observer tokens found starts =
      Chart.startTrees second observer tokens found starts := by
  induction starts generalizing found with
  | nil => rfl
  | cons start starts ih =>
      have sameCount : first.cellCount tokens.size =
          second.cellCount tokens.size := by
        simp only [cellCount, same.grammar.length_heads]
      rw [Chart.startTrees, Chart.startTrees, same.treesAt, same.limit_eq,
        sameCount]
      simp only [ih]

end SameUpToHeads

/-- The order of the heads does not show in a parse. -/
theorem parser_eq_of_sameUpToHeads {first second : Grammar}
    (same : first.SameUpToHeads second) (maxTrees : Option Int) :
    parser first maxTrees = parser second maxTrees := by
  have charts : (ofGrammar first maxTrees).SameUpToHeads
      (ofGrammar second maxTrees) :=
    ⟨rfl, same⟩
  funext tokens
  simp only [parser, parse, run, charts.startTrees,
    charts.grammar.startSymbols_eq]

end Chart

end SemanticGrammar
