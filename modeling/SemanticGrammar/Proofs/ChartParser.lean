import Mathlib.Data.Finset.Card
import Mathlib.Tactic.Ring
import SemanticGrammar.Chart.Parser
import SemanticGrammar.Proofs.ChartSearch
import SemanticGrammar.Proofs.ParseTrees

/-!
# What the chart parser lists

The chart parser gives the beginning of the plain enumeration, cut off once
at the end.  Its memory, its cuts, its shortest lengths and the bound on each
cell do not show.

So all it lists are parses of the tokens, none of them twice, and it lists
all parses when it lists fewer than it may.  Since some tree is always kept,
it lists a tree exactly when a start symbol derives the tokens, by whatever
derivation.
-/

namespace SemanticGrammar

namespace Chart

/-! ## The number of cells -/

theorem two_mul_sum_succ (count : Nat) :
    2 * ((List.range' 0 count).map (· + 1)).sum = count * (count + 1) := by
  induction count with
  | zero => rfl
  | succ count ih =>
      rw [List.range'_concat, List.map_append, List.sum_append, Nat.mul_add, ih]
      simp only [List.map_cons, List.map_nil, List.sum_cons, List.sum_nil]
      ring

theorem length_cellsWithin (chart : Chart) (length : Nat) :
    (chart.grammar.cellsWithin 0 length).length = chart.cellCount length := by
  have spans := Nat.div_eq_of_eq_mul_right Nat.two_pos
    (two_mul_sum_succ (length + 1)).symm
  simp only [Grammar.cellsWithin, List.length_flatMap, List.length_map,
    List.length_range', List.map_const', List.sum_replicate_nat,
    Nat.sub_zero, cellCount]
  rw [spans]

theorem card_idleCells_le_cellCount (chart : Chart) {active : List Cell}
    (length : Nat) :
    (chart.grammar.idleCells active 0 length).card ≤
      chart.cellCount length := by
  rw [← length_cellsWithin]
  exact (Finset.card_filter_le _ _).trans (List.toFinset_card_le _)

/-! ## All start symbols -/

section Runs

variable {σ : Type} {chart : Chart}

theorem enumerates_startTrees (decides : chart.grammar.TestsNeverFail)
    (observer : Observer σ) (tokens : List String) (starts : List Symbol)
    (found : List Tree) (room : found.length ≤ chart.limit) :
    Enumerates σ chart tokens [] (chart.limit - found.length) found
      (startTrees chart observer tokens.toArray found starts)
      fun context => starts.flatMap fun start =>
        chart.grammar.treesOver tokens context start 0 tokens.length := by
  induction starts generalizing found with
  | nil => exact .pure (by simp)
  | cons start starts ih =>
      have own : EnumeratesTrees σ chart tokens []
          (chart.treesAt observer tokens.toArray
            (chart.cellCount tokens.length) []) :=
        enumeratesTrees_treesAt decides
          (chart.card_idleCells_le_cellCount tokens.length)
      let others : List Cell → List Tree := fun context =>
        starts.flatMap fun start =>
          chart.grammar.treesOver tokens context start 0 tokens.length
      simp only [List.flatMap_cons, startTrees, List.size_toArray]
      refine (own start 0 tokens.length (Nat.zero_le _) (Nat.le_refl _)).bind
        (fun context => (chart.grammar.treesOver tokens [] start 0 tokens.length).take
          chart.limit ++ others context) ?_ ?_
      · generalize (chart.grammar.treesOver tokens [] start 0
          tokens.length).take chart.limit = trees
        have length : (found ++ trees).length = found.length + trees.length :=
          List.length_append
        by_cases tooMany : chart.limit < (found ++ trees).length
        · rw [if_pos tooMany]
          apply Enumerates.pure
          intro context
          rw [List.take_append, List.take_of_length_le room,
            List.take_append_of_le_length (by omega)]
        · rw [if_neg tooMany]
          apply Enumerates.append_found (by omega)
          rw [Nat.sub_sub, ← length]
          exact ih _ (by omega)
      · intro context same
        refine take_append_congr ?_ rfl
        apply take_eq_take_of_le (Nat.sub_le _ found.length)
        rw [same, List.take_take, Nat.min_self]

/-- A run, observed in any way, ends with the beginning of the plain
enumeration and with a faithful memory. -/
theorem exists_run_eq_ok (decides : chart.grammar.TestsNeverFail)
    (observer : Observer σ) (record : σ) (tokens : List String) :
    ∃ state, chart.run observer record tokens =
        .ok ((chart.grammar.allTrees tokens).take chart.limit, state) ∧
      chart.Faithful tokens state.memo := by
  have nothing : ∀ (cell : Cell) trees,
      (∅ : Memo)[cell]? = some trees → False := by
    intro cell trees remembered
    rw [Std.TreeMap.getElem?_emptyc] at remembered
    cases remembered
  obtain ⟨state, ran, extend, -⟩ :=
    enumerates_startTrees decides observer tokens chart.grammar.startSymbols []
      (Nat.zero_le _) ⟨∅, 0, record⟩ (fun cell trees remembered =>
        (nothing cell trees remembered).elim) (by simp [Apart])
  exact ⟨state, ran, extend.faithful⟩

theorem parse_eq_ok (decides : chart.grammar.TestsNeverFail)
    (tokens : List String) :
    chart.parse tokens =
      .ok ((chart.grammar.allTrees tokens).take chart.limit) := by
  obtain ⟨state, ran, -⟩ := exists_run_eq_ok decides silent () tokens
  rw [parse, ran]
  rfl

end Runs

/-! ## What is listed -/

variable {grammar : Grammar}

/-- The parser of a grammar keeps as many trees as are asked for, at least
one. -/
theorem parser_eq_ok (decides : grammar.TestsNeverFail)
    (maxTrees : Option Int) (tokens : List String) :
    parser grammar maxTrees tokens =
      .ok ((grammar.allTrees tokens).take
        (max 1 (maxTrees.getD 256)).toNat) := by
  have decides' : (ofGrammar grammar maxTrees).grammar.TestsNeverFail := decides
  exact parse_eq_ok decides' tokens

/-- A grammar of ambiguous sequences with two start symbols, each of which can
be made of the other alone and can be empty. -/
def tangled : Grammar where
  role symbol :=
    match symbol.id with
    | 0 => .empty
    | 1 | 2 => .nonterminal
    | _ => .lexical fun token => .ok (token == "x")
  productions :=
    [⟨⟨1⟩, [⟨1⟩, ⟨1⟩]⟩, ⟨⟨1⟩, [⟨2⟩]⟩, ⟨⟨1⟩, [⟨3⟩]⟩, ⟨⟨2⟩, [⟨1⟩]⟩,
      ⟨⟨2⟩, [⟨3⟩]⟩, ⟨⟨2⟩, [⟨0⟩]⟩]
  lexicalCategories := [⟨3⟩]
  startSymbols := [⟨1⟩, ⟨2⟩]

theorem testsNeverFail_tangled : tangled.TestsNeverFail := by
  intro symbol member lexical token
  simp only [tangled] at lexical
  split at lexical
  all_goals cases lexical
  exact ⟨token == "x", rfl⟩

theorem emptyIsUnique_tangled : tangled.EmptyIsUnique := by
  rintro ⟨id⟩
  simp only [tangled, Symbol.empty, Symbol.mk.injEq]
  split <;> simp_all

/-- The parser lists the beginning of the plain enumeration over all start
symbols. -/
theorem parser_eq_take_flatMap_treesOver (decides : grammar.TestsNeverFail)
    (maxTrees : Option Int) (tokens : List String) :
    parser grammar maxTrees tokens =
      .ok ((grammar.startSymbols.flatMap fun start =>
        grammar.treesOver tokens [] start 0 tokens.length).take
          (max 1 (maxTrees.getD 256)).toNat) := by
  rw [parser_eq_ok decides]
  rfl

/-- The first three of the eight trees over two tokens. -/
theorem take_flatMap_treesOver_tangled :
    tangled.TestsNeverFail ∧
      ((tangled.startSymbols.flatMap fun start =>
        tangled.treesOver ["x", "x"] [] start 0 2).take 3).map
          (Tree.render fun symbol => symbol.id.repr) =
        ["1(1(2(3 \"x\")), 1(2(3 \"x\")))", "1(1(2(3 \"x\")), 1(3 \"x\"))",
          "1(1(3 \"x\"), 1(2(3 \"x\")))"] := by
  refine ⟨testsNeverFail_tangled, ?_⟩
  have listed := parser_eq_take_flatMap_treesOver testsNeverFail_tangled
    (some 3) ["x", "x"]
  have rendered := congrArg
    (Except.map (List.map (Tree.render fun symbol => symbol.id.repr))) listed
  exact Except.ok.inj (rendered.symm.trans (by decide +kernel))

/-- The parser lists parses, none of them twice, and it lists all of them
when it lists fewer than it may. -/
theorem parser_lists_parses (decides : grammar.TestsNeverFail)
    (unique : grammar.EmptyIsUnique) (distinct : grammar.productions.Nodup)
    (distinctStarts : grammar.startSymbols.Nodup) (maxTrees : Option Int)
    (tokens : List String) :
    ∃ trees, parser grammar maxTrees tokens = .ok trees ∧
      (∀ tree ∈ trees, grammar.IsParse tokens tree) ∧
      trees.Nodup ∧
      (trees.length < max 1 (maxTrees.getD 256) →
        ∀ tree, grammar.IsParse tokens tree → tree ∈ trees) := by
  refine ⟨_, parser_eq_ok decides maxTrees tokens, ?_, ?_, ?_⟩
  · intro tree member
    exact (Grammar.mem_allTrees_iff_isParse unique).mp (List.mem_of_mem_take member)
  · exact (Grammar.nodup_allTrees unique distinct distinctStarts tokens).sublist
      (List.take_sublist _ _)
  · intro fewer tree parse
    rw [List.length_take] at fewer
    rw [List.take_of_length_le (by omega)]
    exact (Grammar.mem_allTrees_iff_isParse unique).mpr parse

/-- All eight parses of two tokens are listed. -/
theorem parser_lists_parses_tangled :
    tangled.TestsNeverFail ∧ tangled.EmptyIsUnique ∧
      tangled.productions.Nodup ∧ tangled.startSymbols.Nodup ∧
        ∃ trees, parser tangled (some 9) ["x", "x"] = .ok trees ∧
          trees.length = 8 ∧ trees.Nodup ∧
            ∀ tree, tangled.IsParse ["x", "x"] tree ↔ tree ∈ trees := by
  have distinct : tangled.productions.Nodup := by decide
  have distinctStarts : tangled.startSymbols.Nodup := by decide
  obtain ⟨trees, listed, parses, nodup, complete⟩ :=
    parser_lists_parses testsNeverFail_tangled emptyIsUnique_tangled distinct
      distinctStarts (some 9) ["x", "x"]
  have eight : trees.length = 8 :=
    Except.ok.inj ((congrArg (Except.map List.length) listed).symm.trans
      (by decide +kernel))
  refine ⟨testsNeverFail_tangled, emptyIsUnique_tangled, distinct,
    distinctStarts, trees, listed, eight, nodup, fun tree => ⟨?_, parses tree⟩⟩
  apply complete
  rw [eight]
  decide

/-- The parser lists a tree exactly when a start symbol derives the tokens,
by a derivation with or without cycles. -/
theorem parser_nonempty_iff_derives (decides : grammar.TestsNeverFail)
    (maxTrees : Option Int) (tokens : List String) :
    ∃ trees, parser grammar maxTrees tokens = .ok trees ∧
      (trees ≠ [] ↔ ∃ start ∈ grammar.startSymbols,
        ∃ tree, grammar.Derives start tree ∧ tree.tokens = tokens) := by
  refine ⟨_, parser_eq_ok decides maxTrees tokens, ?_⟩
  rw [← Grammar.exists_mem_allTrees_iff, Ne, List.take_eq_nil_iff]
  constructor
  · intro listed
    exact List.exists_mem_of_ne_nil _ fun none => listed (Or.inr none)
  · rintro ⟨tree, member⟩ (noRoom | none)
    · omega
    · exact List.ne_nil_of_mem member none

/-- Some tree is listed also when none is asked for, and no tree over a
token that no category accepts. -/
theorem parser_nonempty_iff_derives_tangled :
    tangled.TestsNeverFail ∧
      (∃ start ∈ tangled.startSymbols, ∃ tree,
        tangled.Derives start tree ∧ tree.tokens = ["x", "x"]) ∧
      ¬∃ start ∈ tangled.startSymbols, ∃ tree,
        tangled.Derives start tree ∧ tree.tokens = ["x", "y"] := by
  refine ⟨testsNeverFail_tangled, ?_, ?_⟩
  · obtain ⟨trees, listed, derives⟩ := parser_nonempty_iff_derives
      testsNeverFail_tangled (some 0) ["x", "x"]
    have one : trees.length = 1 :=
      Except.ok.inj ((congrArg (Except.map List.length) listed).symm.trans
        (by decide +kernel))
    exact derives.mp (List.ne_nil_of_length_pos (by omega))
  · obtain ⟨trees, listed, derives⟩ := parser_nonempty_iff_derives
      testsNeverFail_tangled (some 0) ["x", "y"]
    have none : trees.length = 0 :=
      Except.ok.inj ((congrArg (Except.map List.length) listed).symm.trans
        (by decide +kernel))
    exact fun derived => derives.mpr derived (List.length_eq_zero_iff.mp none)

end Chart

end SemanticGrammar
