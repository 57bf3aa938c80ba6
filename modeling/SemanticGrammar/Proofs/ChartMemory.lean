import SemanticGrammar.Proofs.ChartNesting

/-!
# Remembered trees do not depend on what is in progress

The trees that a search remembers for a cell are the beginning of the plain
enumeration when no cell is being filled.  They are remembered only if nothing
was cut while they were found, and then neither the cell nor any cell that was
met meanwhile is ever in progress again.  So it makes no difference whether
the trees of a cell are recalled or found anew, whatever cells are in progress
by then.
-/

namespace SemanticGrammar

namespace Chart

/-- At each moment of a run the trees of a remembered cell are the beginning of
the plain enumeration, with no cell in progress as well as with those that are.
A search that remembers nothing finds the same trees, and neither the cell nor
what was met for it is in progress at that moment or later. -/
theorem remembered_trees_are_settled {grammar : Grammar}
    (decides : grammar.TestsNeverFail) (maxTrees : Option Int)
    (tokens : List String) :
    ∃ trees state,
      (ofGrammar grammar maxTrees).run recorder [] tokens =
          .ok (trees, state) ∧
        parser grammar maxTrees tokens = .ok trees ∧
        memoAfter state.record = state.memo ∧
        (∀ moment, moment <:+ state.record →
          ∀ (cell : Cell) kept, (memoAfter moment)[cell]? = some kept →
            kept = (grammar.treesOver tokens [] cell.symbol cell.first
                cell.last).take (max 1 (maxTrees.getD 256)).toNat ∧
              kept = (grammar.treesOver tokens (inProgress moment) cell.symbol
                cell.first cell.last).take
                  (max 1 (maxTrees.getD 256)).toNat ∧
              (∃ after, ((ofGrammar grammar maxTrees).treesAt silent
                  tokens.toArray
                  ((ofGrammar grammar maxTrees).cellCount tokens.length)
                  (inProgress moment) cell.symbol cell.first cell.last).run
                    ⟨∅, 0, ()⟩ = .ok (kept, after)) ∧
              ∀ visited, Relation.ReflTransGen (Visited moment) cell visited →
                ∀ later, moment <:+ later → later <:+ state.record →
                  visited ∉ inProgress later) ∧
        ∀ cell moment, .recalled cell :: moment <:+ state.record →
          cell ∈ memoAfter moment := by
  let chart := ofGrammar grammar maxTrees
  have decides' : chart.grammar.TestsNeverFail := decides
  obtain ⟨state, ran, told⟩ := exists_run_recorder decides' tokens
  refine ⟨_, state, ran, parser_eq_ok decides maxTrees tokens, told.memo_eq,
    ?_, ?_⟩
  · intro moment suffix cell kept isKept
    have course := told.course.of_suffix suffix
    have isMember : cell ∈ memoAfter moment := by
      rw [Std.TreeMap.mem_iff_isSome_getElem?, isKept]
      rfl
    have under := course.faithful cell kept isKept (inProgress moment)
      course.apart
    obtain ⟨-, -, ordered, inside⟩ := Grammar.mem_cellsWithin.mp
      (course.mem_cellsWithin_of_memoAfter isMember)
    obtain ⟨after, again, -⟩ := enumeratesTrees_treesAt decides'
      (chart.card_idleCells_le_cellCount tokens.length) cell.symbol cell.first
      cell.last ordered inside ⟨∅, 0, ()⟩ (Course.start.faithful)
      (fun _ _ => by simp)
    refine ⟨(course.faithful cell kept isKept [] (fun _ => by simp)).symm,
      under.symm, ⟨after, ?_⟩, fun visited path later past within => ?_⟩
    · rw [again, List.nil_append, under]
    · exact told.course.not_mem_inProgress_of_visited past within isMember path
  · intro cell moment suffix
    cases told.course.of_suffix suffix with
    | recalled before kept => exact kept

/-- A grammar in which one of two nonterminals for ambiguous sequences can be
made of itself alone. -/
def halfCyclic : Grammar where
  role symbol :=
    match symbol.id with
    | 0 => .empty
    | 1 | 2 | 3 => .nonterminal
    | _ => .lexical fun token => .ok (token == "x")
  productions :=
    [⟨⟨1⟩, [⟨2⟩]⟩, ⟨⟨1⟩, [⟨3⟩]⟩, ⟨⟨2⟩, [⟨2⟩, ⟨2⟩]⟩, ⟨⟨2⟩, [⟨4⟩]⟩,
      ⟨⟨3⟩, [⟨3⟩, ⟨2⟩]⟩, ⟨⟨3⟩, [⟨3⟩]⟩, ⟨⟨3⟩, [⟨4⟩]⟩]
  lexicalCategories := [⟨4⟩]
  startSymbols := [⟨1⟩]

theorem testsNeverFail_halfCyclic : halfCyclic.TestsNeverFail := by
  intro symbol member lexical token
  simp only [halfCyclic] at lexical
  split at lexical
  all_goals cases lexical
  exact ⟨token == "x", rfl⟩

/-- Thirty-five steps before the end of a run with cuts, both readings of three
tokens are remembered while two other cells are in progress. -/
theorem remembered_trees_are_settled_halfCyclic :
    halfCyclic.TestsNeverFail ∧
      ∃ trees state kept,
        (ofGrammar halfCyclic (some 2)).run recorder [] ["x", "x", "x"] =
            .ok (trees, state) ∧
          state.cuts = 13 ∧
          inProgress (state.record.drop 35) = [⟨⟨3⟩, 0, 3⟩, ⟨⟨1⟩, 0, 3⟩] ∧
          (memoAfter (state.record.drop 35))[(⟨⟨2⟩, 0, 3⟩ : Cell)]? =
            some kept ∧
          kept.length = 2 ∧
          kept = (halfCyclic.treesOver ["x", "x", "x"]
            [⟨⟨3⟩, 0, 3⟩, ⟨⟨1⟩, 0, 3⟩] ⟨2⟩ 0 3).take 2 ∧
          ∀ later, state.record.drop 35 <:+ later → later <:+ state.record →
            ⟨⟨2⟩, 0, 3⟩ ∉ inProgress later := by
  obtain ⟨trees, state, ran, -, -, settled, -⟩ := remembered_trees_are_settled
    testsNeverFail_halfCyclic (some 2) ["x", "x", "x"]
  have cuts := congrArg (Except.map fun result : List Tree × _ =>
    result.2.cuts) ran
  have busy := congrArg (Except.map fun result : List Tree × _ =>
    inProgress (result.2.record.drop 35)) ran
  have length := congrArg (Except.map fun result : List Tree × _ =>
    (memoAfter (result.2.record.drop 35))[(⟨⟨2⟩, 0, 3⟩ : Cell)]?.map
      List.length) ran
  replace busy : inProgress (state.record.drop 35) =
      [⟨⟨3⟩, 0, 3⟩, ⟨⟨1⟩, 0, 3⟩] :=
    Except.ok.inj (busy.symm.trans (by decide +kernel))
  replace length : (memoAfter (state.record.drop 35))[
      (⟨⟨2⟩, 0, 3⟩ : Cell)]?.map List.length = some 2 :=
    Except.ok.inj (length.symm.trans (by decide +kernel))
  obtain ⟨kept, isKept, two⟩ := Option.map_eq_some_iff.mp length
  obtain ⟨-, same, -, idle⟩ :=
    settled _ (List.drop_suffix 35 state.record) _ kept isKept
  rw [busy] at same
  exact ⟨testsNeverFail_halfCyclic, trees, state, kept, ran,
    Except.ok.inj (cuts.symm.trans (by decide +kernel)), busy, isKept, two, same,
    idle _ .refl⟩

end Chart

end SemanticGrammar
