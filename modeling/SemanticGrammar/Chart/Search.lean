import Std.Data.TreeMap
import SemanticGrammar.Chart.Length

/-!
# The memoized search for trees

A cell is a nonterminal with a span of tokens.  Its trees are found by trying
the alternatives of the nonterminal in order and, for each, all ways to
divide the span among the constituents, earlier ends first.  Shortest lengths
rule out spans and divisions that cannot succeed.  No list of tokens is longer
than the numbers that doubles count exactly, so all lengths beyond are compared
as the greatest of these.

A cell that is met again while it is being filled is cut: it gives no tree
there, so that only finite trees arise.  The trees of a finished cell are
remembered if nothing was cut while it was being filled.  Each cell, and each
list of child sequences, keeps at most a fixed number of members, and a search
among divisions ends as soon as it finds one member too many.

The number of cells bounds how deeply cells are nested, and this bound drives
the recursion.  A search reports what it does to an observer, which sees the
cells entered and left, the cells recalled, remembered or cut, and the tokens
read.
-/

namespace SemanticGrammar

/-- A nonterminal over the span of tokens from `first` up to `last`, `last`
excluded. -/
structure Cell where
  symbol : Symbol
  first : Nat
  last : Nat
  deriving DecidableEq, Repr

/-- The order of cells in which the trees of finished cells are kept. -/
def Cell.order : Cell → Cell → Ordering :=
  compareLex (compareOn fun cell => cell.symbol.id)
    (compareLex (compareOn Cell.first) (compareOn Cell.last))

instance : Std.TransCmp Cell.order :=
  inferInstanceAs (Std.TransCmp (compareLex (compareOn fun cell : Cell =>
    cell.symbol.id) (compareLex (compareOn Cell.first) (compareOn Cell.last))))

instance : Std.LawfulEqCmp Cell.order where
  eq_of_compare {first second} same := by
    simp only [Cell.order, compareLex_eq_eq, compareOn,
      Nat.compare_eq_eq] at same
    obtain ⟨symbol, start, stop⟩ := first
    obtain ⟨symbol', start', stop'⟩ := second
    cases symbol
    cases symbol'
    simp_all

/-- A grammar prepared for a search, with its shortest lengths and with the
number of trees to keep, which is never zero. -/
structure Chart where
  grammar : Grammar
  limit : Nat
  limit_pos : 0 < limit
  lengths : Lengths := grammar.shortestLengths
  lengths_eq : lengths = grammar.shortestLengths := by rfl

namespace Chart

/-- What a search does, as an observer sees it. -/
inductive Step where
  /-- The cell is going to be filled. -/
  | entered (cell : Cell)
  /-- The cell has been filled. -/
  | left (cell : Cell)
  /-- The trees of a finished cell are kept. -/
  | remembered (cell : Cell) (trees : List Tree)
  /-- The trees of a finished cell are used again. -/
  | recalled (cell : Cell)
  /-- The cell is met while it is being filled. -/
  | cut (cell : Cell)
  /-- The token at the position is read. -/
  | readToken (position : Nat)

abbrev Observer (σ : Type) := Step → σ → σ

/-- The observer that records nothing. -/
def silent : Observer Unit :=
  fun _ _ => ()

/-- The observer that lists the steps, the last one first. -/
def recorder : Observer (List Step) :=
  List.cons

/-- What a search knows: the trees of the cells it remembers, the number of
cuts so far, and the observer's record. -/
structure State (σ : Type) where
  memo : Std.TreeMap Cell (List Tree) Cell.order
  cuts : Nat
  record : σ

/-- A search: it changes the state and may be stopped by a membership
test. -/
abbrev Search (σ : Type) := StateT (State σ) (Except Fault)

variable {σ : Type}

def report (observer : Observer σ) (step : Step) : Search σ Unit :=
  modify fun state => { state with record := observer step state.record }

def cutAt (observer : Observer σ) (cell : Cell) : Search σ (List Tree) := do
  report observer (.cut cell)
  modify fun state => { state with cuts := state.cuts + 1 }
  return []

def remember (observer : Observer σ) (cell : Cell) (trees : List Tree) :
    Search σ Unit := do
  report observer (.remembered cell trees)
  modify fun state => { state with memo := state.memo.insert cell trees }

/-- Fill a cell by a search, and keep its trees if the search cuts
nothing. -/
def fill (observer : Observer σ) (cell : Cell)
    (search : Search σ (List Tree)) : Search σ (List Tree) := do
  report observer (.entered cell)
  let cutsBefore := (← get).cuts
  let trees ← search
  report observer (.left cell)
  if (← get).cuts = cutsBefore then
    remember observer cell trees
  return trees

/-- The trees of a lexical category over a span: one leaf when the span is a
single token that passes the membership test. -/
def leavesAt (observer : Observer σ) (tokens : Array String)
    (category : Symbol) (member : String → Except Fault Bool)
    (first last : Nat) : Search σ (List Tree) := do
  if last = first + 1 then
    report observer (.readToken first)
    match tokens[first]? with
    | none => return []
    | some token =>
        if ← member token then
          return [.leaf category token]
        else
          return []
  else
    return []

/-- At most `limit` of the sequences that put a head before a tail, by head
and then by tail. -/
def prependUpTo (limit : Nat) :
    List Tree → List (List Tree) → List (List Tree)
  | [], _ => []
  | head :: heads, tails =>
      let sequences := (tails.take limit).map (head :: ·)
      sequences ++ prependUpTo (limit - sequences.length) heads tails

/-- The child sequences over several places to end the first constituent,
after those already found.  A place where the first constituent has no tree
is passed over before the rest is searched. -/
def sequencesOver (limit : Nat) (headsTo : Nat → Search σ (List Tree))
    (tailsFrom : Nat → Search σ (List (List Tree))) :
    List (List Tree) → List Nat → Search σ (List (List Tree))
  | found, [] => return found
  | found, split :: splits => do
      let heads ← headsTo split
      if heads.isEmpty then
        sequencesOver limit headsTo tailsFrom found splits
      else
        let tails ← tailsFrom split
        let longer :=
          found ++ prependUpTo (limit - found.length) heads tails
        if limit < found.length + heads.length * tails.length then
          return longer
        else
          sequencesOver limit headsTo tailsFrom longer splits

/-- The places where the first of some constituents can end within a span,
in ascending order: both it and the rest have room for their shortest
lengths. -/
def splits (chart : Chart) (symbol : Symbol) (rest : List Symbol)
    (first last : Nat) : List Nat :=
  let own := (chart.grammar.lengthOf chart.lengths symbol).capped
  let others := (chart.grammar.totalLength chart.lengths rest).capped
  List.range' (first + own) (last + 1 - (first + own + others))

/-- The child sequences of a constituent sequence over a span, given a search
for the trees of a single constituent. -/
def sequencesAt (chart : Chart)
    (treesOf : Symbol → Nat → Nat → Search σ (List Tree)) :
    List Symbol → Nat → Nat → Search σ (List (List Tree))
  | [], first, last => return if first = last then [[]] else []
  | symbol :: rest, first, last =>
      sequencesOver chart.limit (treesOf symbol first)
        (fun split => sequencesAt chart treesOf rest split last) []
        (chart.splits symbol rest first last)

/-- The nodes of a head over a span, for several alternatives and after the
nodes already found.  Every alternative is searched, also when no more nodes
are kept. -/
def nodesOver (chart : Chart)
    (treesOf : Symbol → Nat → Nat → Search σ (List Tree))
    (head : Symbol) (first last : Nat) :
    List Tree → List (List Symbol) → Search σ (List Tree)
  | found, [] => return found
  | found, alternative :: alternatives => do
      let sequences ← sequencesAt chart treesOf alternative first last
      let nodes :=
        (sequences.take (chart.limit - found.length)).map (Tree.node head)
      nodesOver chart treesOf head first last (found ++ nodes) alternatives

/-- Whether a span is shorter than every derivation of a nonterminal.  One
without alternatives has an infinite length, and no span is long enough. -/
def tooShort (chart : Chart) (symbol : Symbol) (first last : Nat) : Bool :=
  decide (last - first <
      (chart.grammar.lengthOf chart.lengths symbol).capped) ||
    (chart.grammar.alternatives symbol).isEmpty

/-- The trees of a symbol over a span, while the cells of `active` are being
filled.  At most `depth` further cells can be nested. -/
def treesAt (chart : Chart) (observer : Observer σ) (tokens : Array String)
    (depth : Nat) (active : List Cell) (symbol : Symbol) (first last : Nat) :
    Search σ (List Tree) := do
  match chart.grammar.role symbol with
  | .lexical member => leavesAt observer tokens symbol member first last
  | .empty => return if first = last then [.empty] else []
  | .nonterminal =>
      if chart.tooShort symbol first last then
        return []
      let cell : Cell := ⟨symbol, first, last⟩
      match (← get).memo[cell]? with
      | some trees =>
          report observer (.recalled cell)
          return trees
      | none =>
          if cell ∈ active then
            cutAt observer cell
          else
            match depth with
            | 0 => return []
            | depth + 1 =>
                fill observer cell
                  (nodesOver chart
                    (chart.treesAt observer tokens depth (cell :: active))
                    symbol first last []
                    (chart.grammar.alternatives symbol))

/-! ## The cases of a search -/

section Cases

variable (chart : Chart) (observer : Observer σ) (tokens : Array String)
  (depth : Nat) (active : List Cell) {symbol : Symbol} (first last : Nat)

theorem treesAt_of_lexical {member : String → Except Fault Bool}
    (lexical : chart.grammar.role symbol = .lexical member) :
    chart.treesAt observer tokens depth active symbol first last =
      leavesAt observer tokens symbol member first last := by
  rw [treesAt.eq_def]
  simp only [lexical]

theorem treesAt_of_empty (empty : chart.grammar.role symbol = .empty) :
    chart.treesAt observer tokens depth active symbol first last =
      pure (if first = last then [.empty] else []) := by
  rw [treesAt.eq_def]
  simp only [empty]

theorem treesAt_of_tooShort
    (nonterminal : chart.grammar.role symbol = .nonterminal)
    (short : chart.tooShort symbol first last = true) :
    chart.treesAt observer tokens depth active symbol first last =
      pure [] := by
  rw [treesAt.eq_def]
  simp only [nonterminal, short, if_true]

theorem run_treesAt_of_remembered
    (nonterminal : chart.grammar.role symbol = .nonterminal)
    (long : chart.tooShort symbol first last = false)
    (state : State σ) {trees : List Tree}
    (remembered : state.memo[(⟨symbol, first, last⟩ : Cell)]? = some trees) :
    (chart.treesAt observer tokens depth active symbol first last).run state =
      (do report observer (.recalled ⟨symbol, first, last⟩)
          return trees : Search σ (List Tree)).run state := by
  rw [treesAt.eq_def]
  simp [nonterminal, long, remembered]

theorem run_treesAt_of_mem_active
    (nonterminal : chart.grammar.role symbol = .nonterminal)
    (long : chart.tooShort symbol first last = false)
    (state : State σ)
    (isNew : state.memo[(⟨symbol, first, last⟩ : Cell)]? = none)
    (inProgress : (⟨symbol, first, last⟩ : Cell) ∈ active) :
    (chart.treesAt observer tokens depth active symbol first last).run state =
      (cutAt observer ⟨symbol, first, last⟩).run state := by
  rw [treesAt.eq_def]
  simp [nonterminal, long, isNew, inProgress]

/-- Any other cell is filled from the alternatives of its nonterminal, with
the cell added to those that are being filled. -/
theorem run_treesAt_of_not_mem_active
    (nonterminal : chart.grammar.role symbol = .nonterminal)
    (long : chart.tooShort symbol first last = false)
    (state : State σ)
    (isNew : state.memo[(⟨symbol, first, last⟩ : Cell)]? = none)
    (idle : (⟨symbol, first, last⟩ : Cell) ∉ active) :
    (chart.treesAt observer tokens (depth + 1) active symbol first
        last).run state =
      (fill observer ⟨symbol, first, last⟩
        (nodesOver chart
          (chart.treesAt observer tokens depth
            (⟨symbol, first, last⟩ :: active))
          symbol first last [] (chart.grammar.alternatives symbol))).run
        state := by
  rw [treesAt.eq_def]
  simp [nonterminal, long, isNew, idle]

end Cases

end Chart

end SemanticGrammar
