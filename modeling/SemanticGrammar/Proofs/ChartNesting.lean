import SemanticGrammar.Proofs.ChartParser
import SemanticGrammar.Proofs.ChartRecords

/-!
# How deeply cells are nested

A cell is never entered while it is in progress, so no more cells are in
progress at once than there are heads with a span of the tokens.  The search
allows for as many nested cells, and if it allowed for more then no search
would take another step: the recursion ends by itself and not at its bound.

Each cell that is entered is left again, and no position outside of the tokens
is read.
-/

namespace SemanticGrammar

namespace Chart

/-! ## A greater bound on the nesting changes nothing -/

section Depth

variable {σ : Type} {chart : Chart} {length : Nat}

/-- Whether two ways to search for the trees of a symbol are the same over all
spans within a length. -/
def SameSearches (length : Nat)
    (treesOf treesOf' : Symbol → Nat → Nat → Search σ (List Tree)) : Prop :=
  ∀ symbol first last, first ≤ last → last ≤ length →
    treesOf symbol first last = treesOf' symbol first last

theorem sequencesOver_congr {limit : Nat}
    {headsTo headsTo' : Nat → Search σ (List Tree)}
    {tailsFrom tailsFrom' : Nat → Search σ (List (List Tree))}
    {splits : List Nat}
    (sameHeads : ∀ split ∈ splits, headsTo split = headsTo' split)
    (sameTails : ∀ split ∈ splits, tailsFrom split = tailsFrom' split)
    (found : List (List Tree)) :
    sequencesOver limit headsTo tailsFrom found splits =
      sequencesOver limit headsTo' tailsFrom' found splits := by
  induction splits generalizing found with
  | nil => rfl
  | cons split splits ih =>
      obtain ⟨sameHead, sameHeads⟩ := List.forall_mem_cons.mp sameHeads
      obtain ⟨sameTail, sameTails⟩ := List.forall_mem_cons.mp sameTails
      simp only [sequencesOver, sameHead, sameTail, ih sameHeads sameTails]

variable {treesOf treesOf' : Symbol → Nat → Nat → Search σ (List Tree)}
  {first last : Nat}

theorem sequencesAt_congr (same : SameSearches length treesOf treesOf')
    (symbols : List Symbol) (ordered : first ≤ last) (inside : last ≤ length) :
    sequencesAt chart treesOf symbols first last =
      sequencesAt chart treesOf' symbols first last := by
  induction symbols generalizing first with
  | nil => rfl
  | cons symbol rest ih =>
      apply sequencesOver_congr
      · intro split member
        obtain ⟨_, _⟩ := le_of_mem_splits member
        exact same symbol first split (by omega) (by omega)
      · intro split member
        exact ih (le_of_mem_splits member).2

theorem nodesOver_congr (same : SameSearches length treesOf treesOf')
    (head : Symbol) (alternatives : List (List Symbol)) (ordered : first ≤ last)
    (inside : last ≤ length) (found : List Tree) :
    nodesOver chart treesOf head first last found alternatives =
      nodesOver chart treesOf' head first last found alternatives := by
  induction alternatives generalizing found with
  | nil => rfl
  | cons alternative alternatives ih =>
      simp only [nodesOver, sequencesAt_congr same alternative ordered inside,
        ih]

variable {observer : Observer σ} {tokens : List String} {active : List Cell}

theorem sameSearches_treesAt_of_nested {depth depth' : Nat}
    (nested : ∀ cell ∈ chart.grammar.idleCells active 0 tokens.length,
      ∃ rest rest', depth = rest + 1 ∧ depth' = rest' + 1 ∧
        SameSearches tokens.length
          (chart.treesAt observer tokens.toArray rest (cell :: active))
          (chart.treesAt observer tokens.toArray rest' (cell :: active))) :
    SameSearches tokens.length
      (chart.treesAt observer tokens.toArray depth active)
      (chart.treesAt observer tokens.toArray depth' active) := by
  intro symbol first last ordered inside
  cases role : chart.grammar.role symbol with
  | lexical member => simp only [treesAt_of_lexical _ _ _ _ _ _ _ role]
  | empty => simp only [treesAt_of_empty _ _ _ _ _ _ _ role]
  | nonterminal =>
      cases long : chart.tooShort symbol first last with
      | true => simp only [treesAt_of_tooShort _ _ _ _ _ _ _ role long]
      | false =>
          apply StateT.ext
          intro state
          cases lookup : state.memo[(⟨symbol, first, last⟩ : Cell)]? with
          | some trees =>
              simp only [run_treesAt_of_remembered _ _ _ _ _ _ _ role long
                state lookup]
          | none =>
              by_cases busy : (⟨symbol, first, last⟩ : Cell) ∈ active
              · simp only [run_treesAt_of_mem_active _ _ _ _ _ _ _ role long
                  state lookup busy]
              · obtain ⟨rest, rest', rfl, rfl, same⟩ := nested _
                  (mem_idleCells_of_long long ordered inside busy)
                simp only [run_treesAt_of_not_mem_active _ _ _ _ _ _ _ role
                  long state lookup busy,
                  nodesOver_congr same symbol _ ordered inside]

/-- All bounds that allow for as many nested cells as there are idle ones give
the same searches. -/
theorem sameSearches_treesAt {depth depth' : Nat}
    (enough : (chart.grammar.idleCells active 0 tokens.length).card ≤ depth)
    (enough' : (chart.grammar.idleCells active 0 tokens.length).card ≤ depth') :
    SameSearches tokens.length
      (chart.treesAt observer tokens.toArray depth active)
      (chart.treesAt observer tokens.toArray depth' active) := by
  suffices every : ∀ depth',
      (chart.grammar.idleCells active 0 tokens.length).card ≤ depth' →
        SameSearches tokens.length
          (chart.treesAt observer tokens.toArray depth active)
          (chart.treesAt observer tokens.toArray depth' active) from
    every depth' enough'
  refine Grammar.idleCells_induction ?_ enough
  intro depth active _ nested depth' enough'
  apply sameSearches_treesAt_of_nested
  intro cell idle
  obtain ⟨rest, rfl, same⟩ := nested cell idle
  have fewer := Grammar.card_idleCells_cons_lt idle
  obtain ⟨rest', rfl⟩ : ∃ rest', depth' = rest' + 1 :=
    Nat.exists_eq_succ_of_ne_zero (by omega)
  exact ⟨rest, rest', rfl, rfl, same rest' (by omega)⟩

end Depth

/-! ## The record of a run -/

variable {chart : Chart} {tokens : List String}

theorem takes_startTrees (decides : chart.grammar.TestsNeverFail)
    (starts : List Symbol) (found : List Tree) :
    Takes chart tokens []
      (startTrees chart recorder tokens.toArray found starts) := by
  induction starts generalizing found with
  | nil => exact .pure _
  | cons start starts ih =>
      have takes : TakesTrees chart tokens []
          (chart.treesAt recorder tokens.toArray
            (chart.cellCount tokens.length) []) :=
        takesTrees_treesAt decides
          (chart.card_idleCells_le_cellCount tokens.length)
      refine (takes start 0 tokens.length (Nat.zero_le _)
        (Nat.le_refl _)).bind fun trees => ?_
      simp only
      split
      · exact .pure _
      · exact ih _

/-- A recorded run gives the beginning of the plain enumeration, and its record
is a course after which no cell is in progress. -/
theorem exists_run_recorder (decides : chart.grammar.TestsNeverFail)
    (tokens : List String) :
    ∃ state, chart.run recorder [] tokens =
        .ok ((chart.grammar.allTrees tokens).take chart.limit, state) ∧
      Told chart tokens [] state := by
  obtain ⟨state, ran, -⟩ := exists_run_eq_ok decides recorder [] tokens
  have toldStart : Told chart tokens [] ⟨∅, 0, []⟩ := ⟨.start, rfl, rfl, rfl⟩
  exact ⟨state, ran,
    (takes_startTrees decides _ _ _ toldStart _ _ ran).1⟩

theorem Course.length_inProgress_le {record : List Step}
    (course : chart.Course tokens record) :
    (inProgress record).length ≤ chart.cellCount tokens.length := by
  rw [← length_cellsWithin]
  exact (course.nodup_inProgress.subperm fun _ busy =>
    course.mem_cellsWithin_of_inProgress busy).length_le

/-- No cell is entered while it is in progress, and each cell that is entered
is left again.  At most as many cells are in progress at once as there are heads
with two positions in order, a greater bound on the nesting gives the same
searches, and no token is read outside of the list. -/
theorem run_nests_within_cells {grammar : Grammar}
    (decides : grammar.TestsNeverFail) (maxTrees : Option Int)
    (tokens : List String) :
    (∀ {σ : Type} (observer : Observer σ) (depth : Nat),
      (ofGrammar grammar maxTrees).cellCount tokens.length ≤ depth →
        ∀ start ∈ grammar.startSymbols,
          (ofGrammar grammar maxTrees).treesAt observer tokens.toArray depth []
              start 0 tokens.length =
            (ofGrammar grammar maxTrees).treesAt observer tokens.toArray
              ((ofGrammar grammar maxTrees).cellCount tokens.length) []
              start 0 tokens.length) ∧
      ∃ trees state,
        (ofGrammar grammar maxTrees).run recorder [] tokens =
            .ok (trees, state) ∧
          parser grammar maxTrees tokens = .ok trees ∧
          (∀ moment, moment <:+ state.record →
            (inProgress moment).length ≤
              grammar.heads.length * (tokens.length + 1) *
                (tokens.length + 2) / 2) ∧
          (∀ cell moment, .entered cell :: moment <:+ state.record →
            cell ∉ inProgress moment ∧
              ∃ later, .left cell :: later <:+ state.record ∧
                .entered cell :: moment <:+ later) ∧
          inProgress state.record = [] ∧
          ∀ position, .readToken position ∈ state.record →
            position < tokens.length := by
  let chart := ofGrammar grammar maxTrees
  have decides' : chart.grammar.TestsNeverFail := decides
  obtain ⟨state, ran, told⟩ := exists_run_recorder decides' tokens
  have idle_le : (chart.grammar.idleCells [] 0 tokens.length).card ≤
      chart.cellCount tokens.length :=
    chart.card_idleCells_le_cellCount tokens.length
  refine ⟨fun observer depth enough start _ =>
      sameSearches_treesAt (idle_le.trans enough) idle_le start 0
        tokens.length (Nat.zero_le _) (Nat.le_refl _),
    _, state, ran, parser_eq_ok decides maxTrees tokens, ?_, ?_,
    told.inProgress_eq, ?_⟩
  · intro moment suffix
    calc
      (inProgress moment).length ≤ chart.cellCount tokens.length :=
        (told.course.of_suffix suffix).length_inProgress_le
      _ ≤ grammar.heads.length *
          ((tokens.length + 1) * (tokens.length + 2)) / 2 :=
        Nat.mul_div_le_mul_div_assoc _ _ _
      _ = grammar.heads.length * (tokens.length + 1) *
          (tokens.length + 2) / 2 := by
        rw [Nat.mul_assoc]
  · intro cell moment suffix
    refine ⟨?_, Course.exists_left suffix List.mem_cons_self ?_⟩
    · cases told.course.of_suffix suffix with
      | entered before within idle isNew => exact idle
    · simp [told.inProgress_eq]
  · intro position member
    obtain ⟨later, earlier, split⟩ := List.append_of_mem member
    cases told.course.of_suffix ⟨later, split.symm⟩ with
    | readToken before inside => exact inside

/-- Over two tokens six of the twelve cells are in progress at once, though
cells are met again while they are in progress. -/
theorem run_nests_within_cells_tangled :
    tangled.TestsNeverFail ∧
      ∃ trees state, (ofGrammar tangled none).run recorder [] ["x", "x"] =
          .ok (trees, state) ∧
        (state.record.tails.map fun moment =>
          (inProgress moment).length).max? = some 6 ∧
        state.record.countP Step.isCut = 136 ∧
        (∀ moment, moment <:+ state.record →
          (inProgress moment).length ≤ 12) ∧
        ∀ position, .readToken position ∈ state.record → position < 2 := by
  obtain ⟨-, trees, state, ran, -, nested, -, -, reads⟩ :=
    run_nests_within_cells testsNeverFail_tangled none ["x", "x"]
  have deepest := congrArg (Except.map fun result : List Tree × _ =>
    (result.2.record.tails.map fun moment =>
      (inProgress moment).length).max?) ran
  have cuts := congrArg (Except.map fun result : List Tree × _ =>
    result.2.record.countP Step.isCut) ran
  exact ⟨testsNeverFail_tangled, trees, state, ran,
    Except.ok.inj (deepest.symm.trans (by decide +kernel)),
    Except.ok.inj (cuts.symm.trans (by decide +kernel)), nested, reads⟩

end Chart

end SemanticGrammar
