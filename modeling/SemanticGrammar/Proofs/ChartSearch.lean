import SemanticGrammar.Proofs.Enumeration

/-!
# The memoized search follows the plain enumeration

A search gives the beginning of what the plain enumeration gives, whatever it
remembers.  The invariant is about the cells that are remembered: none of them
is being filled, and their trees are the beginning of the enumeration under
every set of cells that holds no remembered one.  So trees that were found
while some cells were being filled may be used while others are.

What is found without a cut does not depend on the cells that are being
filled, as long as none of them is remembered in the end.  A cell that was met
is remembered by then, or else its filling would have been cut.  This also
holds where a search ends early, since the members that it did not look for
are beyond the bound.
-/

namespace SemanticGrammar

/-! ## Beginnings of lists -/

section Beginnings

variable {α : Type} {count : Nat}

theorem sub_length_eq_of_take_eq {first second : List α}
    (same : first.take count = second.take count) :
    count - first.length = count - second.length := by
  have lengths := congrArg List.length same
  simp only [List.length_take] at lengths
  omega

/-- Beginnings of two lists agree when they agree on a front and, as far as
there is room after it, on the rest. -/
theorem take_append_congr {first second rest rest' : List α}
    (same : first.take count = second.take count)
    (sameRest : rest.take (count - second.length) =
      rest'.take (count - second.length)) :
    (first ++ rest).take count = (second ++ rest').take count := by
  rw [List.take_append, List.take_append, same,
    sub_length_eq_of_take_eq same, sameRest]

theorem take_eq_take_of_le {first second : List α} {limit : Nat}
    (room : count ≤ limit) (same : first.take limit = second.take limit) :
    first.take count = second.take count := by
  have shorter := congrArg (List.take count) same
  rwa [List.take_take, List.take_take, Nat.min_eq_left room] at shorter

end Beginnings

/-- All sequences that put a head before a tail, by head and then by tail. -/
def prependAll (heads : List Tree) (tails : List (List Tree)) :
    List (List Tree) :=
  heads.flatMap fun head => tails.map (head :: ·)

section PrependAll

variable {limit count : Nat} {heads : List Tree} {tails : List (List Tree)}

@[simp]
theorem length_prependAll (heads : List Tree) (tails : List (List Tree)) :
    (prependAll heads tails).length = heads.length * tails.length := by
  simp [prependAll, List.length_flatMap]

@[simp]
theorem prependAll_nil_left : prependAll [] tails = [] :=
  rfl

@[simp]
theorem prependAll_nil_right : prependAll heads [] = [] := by
  simp [prependAll]

theorem prependAll_cons (head : Tree) :
    prependAll (head :: heads) tails =
      tails.map (head :: ·) ++ prependAll heads tails := by
  simp [prependAll]

theorem prependUpTo_eq_take :
    Chart.prependUpTo limit heads tails =
      (prependAll heads tails).take limit := by
  induction heads generalizing limit with
  | nil => simp [Chart.prependUpTo]
  | cons head heads ih =>
      have room : limit - min limit tails.length = limit - tails.length := by
        omega
      rw [prependAll_cons, List.take_append, Chart.prependUpTo, ih]
      simp [List.map_take, room]

theorem take_prependAll_take {bound : Nat} (room : count ≤ limit)
    (headRoom : count ≤ bound) :
    (prependAll (heads.take bound) (tails.take limit)).take count =
      (prependAll heads tails).take count := by
  cases tails with
  | nil => simp
  | cons tail tails =>
      induction heads generalizing bound count with
      | nil => simp
      | cons head heads ih =>
          cases bound with
          | zero => simp [Nat.le_zero.mp headRoom]
          | succ bound =>
              rw [List.take_succ_cons, prependAll_cons, prependAll_cons]
              apply take_append_congr
              · rw [List.map_take, List.take_take, Nat.min_eq_left room]
              · apply ih
                · omega
                · simp only [List.length_map, List.length_cons]
                  omega

theorem take_prependAll_congr {heads' : List Tree} {tails' : List (List Tree)}
    (room : count ≤ limit) (sameHeads : heads.take limit = heads'.take limit)
    (sameTails : tails.take limit = tails'.take limit) :
    (prependAll heads tails).take count =
      (prependAll heads' tails').take count := by
  rw [← take_prependAll_take room room, sameHeads, sameTails,
    take_prependAll_take room room]

end PrependAll

namespace Grammar

def TestsNeverFail (grammar : Grammar) : Prop :=
  ∀ symbol member, grammar.role symbol = .lexical member →
    ∀ token, ∃ accepted, member token = .ok accepted

end Grammar

namespace Chart

/-! ## What a search remembers -/

abbrev Memo := Std.TreeMap Cell (List Tree) Cell.order

/-- Whether no remembered cell is among some cells. -/
def Apart (memo : Memo) (cells : List Cell) : Prop :=
  ∀ cell ∈ cells, cell ∉ memo

/-- Whether the trees of all remembered cells are the beginning of the plain
enumeration under any cells that are not remembered. -/
def Faithful (chart : Chart) (tokens : List String) (memo : Memo) : Prop :=
  ∀ (cell : Cell) trees, memo[cell]? = some trees →
    ∀ context, Apart memo context →
      (chart.grammar.treesOver tokens context cell.symbol cell.first
        cell.last).take chart.limit = trees

section Memo

variable {memo larger : Memo} {cells : List Cell} {cell : Cell}
  {trees : List Tree}

theorem not_mem_of_getElem?_eq_none (isNew : memo[cell]? = none) :
    cell ∉ memo := by
  intro member
  rw [Std.TreeMap.mem_iff_isSome_getElem?, isNew] at member
  simp at member

theorem mem_insert_iff {other : Cell} :
    other ∈ memo.insert cell trees ↔ cell = other ∨ other ∈ memo := by
  rw [Std.TreeMap.mem_insert, Std.LawfulEqCmp.compare_eq_iff_eq]

theorem Apart.of_keeps (keeps : ∀ cell ∈ memo, cell ∈ larger)
    (apart : Apart larger cells) : Apart memo cells :=
  fun cell member remembered => apart cell member (keeps cell remembered)

theorem apart_cons :
    Apart memo (cell :: cells) ↔ cell ∉ memo ∧ Apart memo cells :=
  List.forall_mem_cons

theorem apart_insert :
    Apart (memo.insert cell trees) cells ↔ cell ∉ cells ∧ Apart memo cells := by
  simp only [Apart, mem_insert_iff, not_or]
  constructor
  · intro apart
    exact ⟨fun member => (apart cell member).1 rfl,
      fun other member => (apart other member).2⟩
  · rintro ⟨absent, apart⟩ other member
    refine ⟨?_, apart other member⟩
    rintro rfl
    exact absent member

theorem Faithful.insert {chart : Chart} {tokens : List String}
    (faithful : chart.Faithful tokens memo)
    (own : ∀ context, cell ∉ context → Apart memo context →
      (chart.grammar.treesOver tokens context cell.symbol cell.first
        cell.last).take chart.limit = trees) :
    chart.Faithful tokens (memo.insert cell trees) := by
  intro other otherTrees remembered context apart
  obtain ⟨absent, apart⟩ := apart_insert.mp apart
  rw [Std.TreeMap.getElem?_insert] at remembered
  split at remembered
  · rename_i same
    obtain rfl := Std.LawfulEqCmp.eq_of_compare same
    obtain rfl := Option.some.inj remembered
    exact own context absent apart
  · exact faithful other otherTrees remembered context apart

end Memo

variable {σ : Type} {chart : Chart} {tokens : List String}

/-- Whether a search leads from one state to another while some cells are
being filled. -/
structure Extends (chart : Chart) (tokens : List String) (active : List Cell)
    (before after : State σ) : Prop where
  faithful : chart.Faithful tokens after.memo
  apart : Apart after.memo active
  keeps : ∀ cell ∈ before.memo, cell ∈ after.memo
  cuts_le : before.cuts ≤ after.cuts

theorem Extends.refl {active : List Cell} {state : State σ}
    (faithful : chart.Faithful tokens state.memo)
    (apart : Apart state.memo active) :
    Extends chart tokens active state state :=
  ⟨faithful, apart, fun _ => id, Nat.le_refl _⟩

theorem Extends.trans {active : List Cell} {first second third : State σ}
    (left : Extends chart tokens active first second)
    (right : Extends chart tokens active second third) :
    Extends chart tokens active first third :=
  ⟨right.faithful, right.apart,
    fun cell member => right.keeps cell (left.keeps cell member),
    Nat.le_trans left.cuts_le right.cuts_le⟩

/-- Whether a search, while some cells are being filled, adds to what was
found the beginning of a list that depends on these cells, and adds the same
under any other cells if nothing was cut. -/
def Enumerates {α : Type} (σ : Type) (chart : Chart) (tokens : List String)
    (active : List Cell) (count : Nat) (found : List α)
    (search : Search σ (List α)) (all : List Cell → List α) : Prop :=
  ∀ before : State σ, chart.Faithful tokens before.memo →
    Apart before.memo active →
      ∃ after, search.run before =
          .ok (found ++ (all active).take count, after) ∧
        Extends chart tokens active before after ∧
        (after.cuts = before.cuts → ∀ context, Apart after.memo context →
          (all context).take count = (all active).take count)

/-- Whether a search for the trees of a symbol over a span follows the plain
enumeration while some cells are being filled. -/
def EnumeratesTrees (σ : Type) (chart : Chart) (tokens : List String)
    (active : List Cell)
    (treesOf : Symbol → Nat → Nat → Search σ (List Tree)) : Prop :=
  ∀ symbol first last, first ≤ last → last ≤ tokens.length →
    Enumerates σ chart tokens active chart.limit [] (treesOf symbol first last)
      fun context => chart.grammar.treesOver tokens context symbol first last

/-! ## Rules for searches -/

theorem run_bind_of_run_eq_ok {α β : Type} {search : Search σ α}
    {next : α → Search σ β} {before : State σ} (result : α) (after : State σ)
    (ran : search.run before = .ok (result, after)) :
    (search >>= next).run before = (next result).run after := by
  rw [StateT.run_bind, ran]
  rfl

namespace Enumerates

variable {α β : Type} {active : List Cell} {count limit : Nat}
  {found result : List α} {search : Search σ (List α)}
  {all : List Cell → List α}

theorem pure (same : ∀ context, result = found ++ (all context).take count) :
    Enumerates σ chart tokens active count found (pure result) all := by
  intro before faithful apart
  refine ⟨before, ?_, .refl faithful apart, fun _ context _ => ?_⟩
  · rw [← same active]
    rfl
  · exact List.append_cancel_left ((same context).symm.trans (same active))

theorem bind {first : Search σ (List β)} {next : List β → Search σ (List α)}
    {firstAll : List Cell → List β}
    (enumerates : Enumerates σ chart tokens active limit [] first firstAll)
    (rest : List Cell → List α)
    (continues : Enumerates σ chart tokens active count found
      (next ((firstAll active).take limit)) rest)
    (agrees : ∀ context,
      (firstAll context).take limit = (firstAll active).take limit →
        (all context).take count = (rest context).take count) :
    Enumerates σ chart tokens active count found (first >>= next) all := by
  intro before faithful apart
  obtain ⟨middle, ranFirst, firstExtend, firstStable⟩ :=
    enumerates before faithful apart
  obtain ⟨after, ran, extend, stable⟩ :=
    continues middle firstExtend.faithful firstExtend.apart
  rw [List.nil_append] at ranFirst
  refine ⟨after, ?_, firstExtend.trans extend, fun uncut context free => ?_⟩
  · rw [run_bind_of_run_eq_ok _ _ ranFirst, ran, agrees active rfl]
  · have firstCuts := firstExtend.cuts_le
    have laterCuts := extend.cuts_le
    have same := firstStable (by omega) context (free.of_keeps extend.keeps)
    rw [agrees context same, agrees active rfl,
      stable (by omega) context free]

theorem append_found {front : List α} {rest : List Cell → List α}
    (room : front.length ≤ count)
    (enumerates : Enumerates σ chart tokens active (count - front.length)
      (found ++ front) search rest) :
    Enumerates σ chart tokens active count found search
      fun context => front ++ rest context := by
  intro before faithful apart
  obtain ⟨after, ran, extend, stable⟩ := enumerates before faithful apart
  have split (context : List Cell) : (front ++ rest context).take count =
      front ++ (rest context).take (count - front.length) := by
    rw [List.take_append, List.take_of_length_le room]
  refine ⟨after, ?_, extend, fun uncut context free => ?_⟩
  · rw [ran, split, List.append_assoc]
  · rw [split, split, stable uncut context free]

end Enumerates

section Searches

variable {active : List Cell} {observer : Observer σ} {first last : Nat}

/-! ## Leaves -/

theorem enumerates_leavesAt {category : Symbol}
    {member : String → Except Fault Bool}
    (decides : ∀ token, ∃ accepted, member token = .ok accepted) :
    Enumerates σ chart tokens active chart.limit []
      (leavesAt observer tokens.toArray category member first last)
      fun _ => Grammar.leavesOver tokens category member first last := by
  unfold leavesAt Grammar.leavesOver
  by_cases single : last = first + 1
  · rw [if_pos single, List.getElem?_toArray]
    intro before faithful apart
    let after : State σ :=
      { before with record := observer (.readToken first) before.record }
    refine ⟨after, ?_, ⟨faithful, apart, fun _ => id, Nat.le_refl _⟩,
      fun _ _ _ => rfl⟩
    rw [run_bind_of_run_eq_ok () after rfl]
    cases tokens[first]? with
    | none =>
        rw [List.take_nil]
        rfl
    | some token =>
        obtain ⟨accepted, decided⟩ := decides token
        have decidedRun : (liftM (member token) : Search σ Bool).run after =
            .ok (accepted, after) := by
          rw [decided]
          rfl
        simp only
        rw [run_bind_of_run_eq_ok _ _ decidedRun, decided]
        cases accepted with
        | false =>
            simp only [Except.ok.injEq, Bool.false_eq_true, and_false, if_false,
              List.take_nil]
            rfl
        | true =>
            have single' : ([.leaf category token] : List Tree).length ≤
                chart.limit := chart.limit_pos
            simp only [single, and_self, if_true, List.take_of_length_le single']
            rfl
  · rw [if_neg single]
    apply Enumerates.pure
    intro _
    cases tokens[first]? <;> simp [single]

/-! ## Sequences of children -/

theorem flatMap_range'_eq {α : Type} {result : Nat → List α}
    {start count start' count' : Nat} (lower : start ≤ start')
    (upper : count' = 0 ∨ start' + count' ≤ start + count)
    (outside : ∀ place, start ≤ place → place < start + count →
      ¬(start' ≤ place ∧ place < start' + count') → result place = []) :
    (List.range' start count).flatMap result =
      (List.range' start' count').flatMap result := by
  rcases upper with none | inner
  · subst none
    simp only [List.range'_zero, List.flatMap_nil, List.flatMap_eq_nil_iff,
      List.mem_range'_1]
    exact fun place ⟨left, right⟩ => outside place left right (by omega)
  · obtain ⟨before, rfl⟩ := Nat.exists_eq_add_of_le lower
    obtain ⟨after, rfl⟩ : ∃ after, count = before + count' + after :=
      Nat.exists_eq_add_of_le (by omega)
    have front : (List.range' start before).flatMap result = [] := by
      simp only [List.flatMap_eq_nil_iff, List.mem_range'_1]
      exact fun place _ => outside place (by omega) (by omega) (by omega)
    have back : (List.range' (start + (before + count')) after).flatMap
        result = [] := by
      simp only [List.flatMap_eq_nil_iff, List.mem_range'_1]
      exact fun place _ => outside place (by omega) (by omega) (by omega)
    rw [← List.range'_append_1, ← List.range'_append_1, List.flatMap_append,
      List.flatMap_append, front, back, List.nil_append, List.append_nil]

/-- Once the heads over a span are known, the tails after it are searched and
put behind them.  The search ends here as soon as there is a member too
many. -/
theorem enumerates_prependTails {someHeads : List Tree}
    {tailsSearch : Search σ (List (List Tree))}
    {tails : List Cell → List (List Tree)}
    (tailsEnumerate :
      Enumerates σ chart tokens active chart.limit [] tailsSearch tails)
    {next : List (List Tree) → Search σ (List (List Tree))}
    {rest : List Cell → List (List Tree)}
    (others : ∀ found, found.length ≤ chart.limit →
      Enumerates σ chart tokens active (chart.limit - found.length) found
        (next found) rest)
    {found : List (List Tree)} (room : found.length ≤ chart.limit) :
    Enumerates σ chart tokens active (chart.limit - found.length) found
      (do
        let someTails ← tailsSearch
        let longer := found ++
          prependUpTo (chart.limit - found.length) someHeads someTails
        if chart.limit < found.length + someHeads.length * someTails.length then
          return longer
        else
          next longer)
      fun context => prependAll someHeads (tails context) ++ rest context := by
  refine tailsEnumerate.bind
    (fun context => prependAll someHeads
      ((tails active).take chart.limit) ++ rest context) ?_ ?_
  · generalize (tails active).take chart.limit = someTails
    have length := length_prependAll someHeads someTails
    rw [prependUpTo_eq_take]
    by_cases tooMany :
        chart.limit < found.length + someHeads.length * someTails.length
    · rw [if_pos tooMany]
      apply Enumerates.pure
      intro context
      rw [List.take_append_of_le_length (by omega)]
    · rw [if_neg tooMany]
      have small : (prependAll someHeads someTails).length ≤
          chart.limit - found.length := by
        omega
      apply Enumerates.append_found small
      rw [List.take_of_length_le small, Nat.sub_sub, ← List.length_append]
      apply others
      rw [List.length_append]
      omega
  · intro context same
    refine take_append_congr (take_prependAll_congr (Nat.sub_le _ _) rfl ?_) rfl
    rw [same, List.take_take, Nat.min_self]

theorem enumerates_sequencesOver {headsTo : Nat → Search σ (List Tree)}
    {tailsFrom : Nat → Search σ (List (List Tree))}
    {heads : Nat → List Cell → List Tree}
    {tails : Nat → List Cell → List (List Tree)} {splits : List Nat}
    (headsEnumerate : ∀ split ∈ splits,
      Enumerates σ chart tokens active chart.limit [] (headsTo split)
        (heads split))
    (tailsEnumerate : ∀ split ∈ splits,
      Enumerates σ chart tokens active chart.limit [] (tailsFrom split)
        (tails split))
    (found : List (List Tree)) (room : found.length ≤ chart.limit) :
    Enumerates σ chart tokens active (chart.limit - found.length) found
      (sequencesOver chart.limit headsTo tailsFrom found splits)
      fun context => splits.flatMap fun split =>
        prependAll (heads split context) (tails split context) := by
  have positive := chart.limit_pos
  induction splits generalizing found with
  | nil => exact .pure (by simp)
  | cons split splits ih =>
      obtain ⟨headsEnumerates, headsEnumerate⟩ :=
        List.forall_mem_cons.mp headsEnumerate
      obtain ⟨tailsEnumerates, tailsEnumerate⟩ :=
        List.forall_mem_cons.mp tailsEnumerate
      let rest : List Cell → List (List Tree) := fun context =>
        splits.flatMap fun split =>
          prependAll (heads split context) (tails split context)
      have others (found : List (List Tree))
          (room : found.length ≤ chart.limit) :
          Enumerates σ chart tokens active (chart.limit - found.length) found
            (sequencesOver chart.limit headsTo tailsFrom found splits) rest :=
        ih headsEnumerate tailsEnumerate found room
      simp only [List.flatMap_cons, sequencesOver]
      by_cases noHead : heads split active = []
      · -- The rest of the span is not searched.
        refine headsEnumerates.bind rest ?_ ?_
        · simpa only [noHead, List.take_nil, List.isEmpty_nil, if_true]
            using others found room
        · intro context same
          rw [noHead, List.take_nil, List.take_eq_nil_iff] at same
          rw [same.resolve_left (by omega), prependAll_nil_left,
            List.nil_append]
      · have hasHead :
            ((heads split active).take chart.limit).isEmpty = false := by
          simp [noHead, Nat.ne_of_gt positive]
        refine headsEnumerates.bind
          (fun context => prependAll
            ((heads split active).take chart.limit) (tails split context) ++
              rest context) ?_ ?_
        · rw [hasHead, if_neg Bool.false_ne_true]
          exact enumerates_prependTails tailsEnumerates others room
        · intro context same
          refine take_append_congr
            (take_prependAll_congr (Nat.sub_le _ _) ?_ rfl) rfl
          rw [same, List.take_take, Nat.min_self]

/-- The places that shortest lengths rule out contribute nothing. -/
theorem childrenOver_eq_flatMap_splits (chart : Chart) (tokens : List String)
    (context : List Cell) (symbol : Symbol) (rest : List Symbol)
    (first last : Nat) :
    chart.grammar.childrenOver tokens context (symbol :: rest) first last =
      (chart.splits symbol rest first last).flatMap fun split =>
        prependAll (chart.grammar.treesOver tokens context symbol first split)
          (chart.grammar.childrenOver tokens context rest split last) := by
  rw [Grammar.childrenOver_cons]
  unfold splits
  rw [chart.lengths_eq]
  apply flatMap_range'_eq (by omega) (by omega)
  intro split _ _ outside
  by_cases early : split < first +
      (chart.grammar.lengthOf chart.grammar.shortestLengths symbol).capped
  · rw [Grammar.treesOver_eq_nil_of_short early]
    rfl
  · have late : chart.grammar.childrenOver tokens context rest split
        last = [] :=
      Grammar.childrenOver_eq_nil_of_short (by omega)
    rw [late]
    exact prependAll_nil_right

theorem le_of_mem_splits {symbol : Symbol} {rest : List Symbol} {split : Nat}
    (member : split ∈ chart.splits symbol rest first last) :
    first ≤ split ∧ split ≤ last := by
  rw [splits, List.mem_range'_1] at member
  omega

theorem enumerates_sequencesAt
    {treesOf : Symbol → Nat → Nat → Search σ (List Tree)}
    (treesEnumerate : EnumeratesTrees σ chart tokens active treesOf)
    (symbols : List Symbol) (ordered : first ≤ last)
    (inside : last ≤ tokens.length) :
    Enumerates σ chart tokens active chart.limit []
      (sequencesAt chart treesOf symbols first last)
      fun context =>
        chart.grammar.childrenOver tokens context symbols first last := by
  have positive := chart.limit_pos
  induction symbols generalizing first with
  | nil =>
      apply Enumerates.pure
      intro context
      rw [Grammar.childrenOver_nil, List.nil_append, List.take_of_length_le]
      split <;> simp
      omega
  | cons symbol rest ih =>
      simp only [childrenOver_eq_flatMap_splits]
      apply enumerates_sequencesOver _ _ [] (Nat.zero_le _)
      · intro split member
        obtain ⟨_, _⟩ := le_of_mem_splits member
        exact treesEnumerate symbol first split (by omega) (by omega)
      · intro split member
        exact ih (le_of_mem_splits member).2

/-! ## Nodes -/

theorem enumerates_nodesOver
    {treesOf : Symbol → Nat → Nat → Search σ (List Tree)}
    (treesEnumerate : EnumeratesTrees σ chart tokens active treesOf)
    {head : Symbol} {alternatives : List (List Symbol)} (ordered : first ≤ last)
    (inside : last ≤ tokens.length) (found : List Tree)
    (room : found.length ≤ chart.limit) :
    Enumerates σ chart tokens active (chart.limit - found.length) found
      (nodesOver chart treesOf head first last found alternatives)
      fun context => alternatives.flatMap fun alternative =>
        (chart.grammar.childrenOver tokens context alternative first last).map
          (.node head) := by
  induction alternatives generalizing found with
  | nil => exact .pure (by simp)
  | cons alternative alternatives ih =>
      let rest : List Cell → List Tree := fun context =>
        alternatives.flatMap fun alternative =>
          (chart.grammar.childrenOver tokens context alternative first
            last).map (.node head)
      have sequences :=
        enumerates_sequencesAt treesEnumerate alternative ordered inside
      simp only [List.flatMap_cons, nodesOver]
      let nodes : List Tree :=
        (((chart.grammar.childrenOver tokens active alternative first
          last).take chart.limit).take (chart.limit - found.length)).map
            (.node head)
      have small : nodes.length ≤ chart.limit - found.length := by
        simp only [nodes, List.length_map, List.length_take]
        omega
      refine sequences.bind (fun context => nodes ++ rest context) ?_ ?_
      · apply Enumerates.append_found small
        rw [Nat.sub_sub, ← List.length_append]
        apply ih
        rw [List.length_append]
        omega
      · intro context same
        refine take_append_congr ?_ rfl
        have shorter := take_eq_take_of_le (Nat.sub_le _ found.length) same
        rw [← List.map_take, shorter]
        simp [nodes, ← List.map_take, List.take_take]

theorem run_fill {cell : Cell} {search : Search σ (List Tree)}
    {all : List Cell → List Tree}
    (enumerates : Enumerates σ chart tokens (cell :: active) chart.limit []
      search all)
    (expands : ∀ context, cell ∉ context →
      chart.grammar.treesOver tokens context cell.symbol cell.first cell.last =
        all (cell :: context))
    (idle : cell ∉ active) {before : State σ}
    (faithful : chart.Faithful tokens before.memo)
    (apart : Apart before.memo active) (isNew : cell ∉ before.memo) :
    ∃ after, (fill observer cell search).run before =
        .ok ((chart.grammar.treesOver tokens active cell.symbol cell.first
          cell.last).take chart.limit, after) ∧
      Extends chart tokens active before after ∧
      (after.cuts = before.cuts → ∀ context, Apart after.memo context →
        (chart.grammar.treesOver tokens context cell.symbol cell.first
            cell.last).take chart.limit =
          (chart.grammar.treesOver tokens active cell.symbol cell.first
            cell.last).take chart.limit) := by
  let entered : State σ :=
    { before with record := observer (.entered cell) before.record }
  obtain ⟨filled, ran, extend, stable⟩ :=
    enumerates entered faithful (apart_cons.mpr ⟨isNew, apart⟩)
  rw [List.nil_append, ← expands active idle] at ran
  obtain ⟨stillNew, filledApart⟩ := apart_cons.mp extend.apart
  let left : State σ :=
    { filled with record := observer (.left cell) filled.record }
  unfold fill
  rw [run_bind_of_run_eq_ok () entered rfl,
    run_bind_of_run_eq_ok entered entered rfl,
    run_bind_of_run_eq_ok _ _ ran,
    run_bind_of_run_eq_ok () left rfl,
    run_bind_of_run_eq_ok left left rfl]
  by_cases uncut : filled.cuts = entered.cuts
  · rw [if_pos uncut]
    let trees := (chart.grammar.treesOver tokens active cell.symbol cell.first
      cell.last).take chart.limit
    let after : State σ :=
      { left with
        memo := filled.memo.insert cell trees
        record := observer (.remembered cell trees) left.record }
    have own (context : List Cell) (absent : cell ∉ context)
        (free : Apart filled.memo context) :
        (chart.grammar.treesOver tokens context cell.symbol cell.first
          cell.last).take chart.limit = trees := by
      rw [expands context absent, stable uncut _
        (apart_cons.mpr ⟨stillNew, free⟩), ← expands active idle]
    refine ⟨after, rfl, ⟨extend.faithful.insert own, ?_, ?_, extend.cuts_le⟩, ?_⟩
    · exact apart_insert.mpr ⟨idle, filledApart⟩
    · exact fun other member =>
        mem_insert_iff.mpr (Or.inr (extend.keeps other member))
    · intro _ context free
      obtain ⟨absent, free⟩ := apart_insert.mp free
      exact own context absent free
  · rw [if_neg uncut]
    exact ⟨left, rfl,
      ⟨extend.faithful, filledApart, extend.keeps, extend.cuts_le⟩,
      fun same => absurd same uncut⟩

/-! ## Trees -/

theorem mem_idleCells_of_long {symbol : Symbol} {active : List Cell}
    (long : chart.tooShort symbol first last = false) (ordered : first ≤ last)
    (inside : last ≤ tokens.length) (idle : ⟨symbol, first, last⟩ ∉ active) :
    ⟨symbol, first, last⟩ ∈
      chart.grammar.idleCells active 0 tokens.length := by
  rw [Grammar.mem_idleCells, Grammar.mem_cellsWithin]
  refine ⟨⟨?_, Nat.zero_le _, ordered, inside⟩, idle⟩
  rw [tooShort, Bool.or_eq_false_iff, List.isEmpty_eq_false_iff] at long
  exact Grammar.mem_heads.mpr (List.exists_mem_of_ne_nil _ long.2)

theorem treesOver_eq_nil_of_tooShort {symbol : Symbol} (context : List Cell)
    (nonterminal : chart.grammar.role symbol = .nonterminal)
    (ordered : first ≤ last) (short : chart.tooShort symbol first last = true) :
    chart.grammar.treesOver tokens context symbol first last = [] := by
  rw [tooShort, Bool.or_eq_true, decide_eq_true_eq,
    List.isEmpty_iff, chart.lengths_eq] at short
  rcases short with short | none
  · exact Grammar.treesOver_eq_nil_of_short (by omega)
  · exact Grammar.treesOver_eq_nil_of_alternatives nonterminal none

theorem enumerates_treesAt_of_long {symbol : Symbol} {depth : Nat}
    (role : chart.grammar.role symbol = .nonterminal)
    (long : chart.tooShort symbol first last = false)
    (ordered : first ≤ last) (inside : last ≤ tokens.length)
    (nested : ⟨symbol, first, last⟩ ∉ active → ∃ depth', depth = depth' + 1 ∧
      EnumeratesTrees σ chart tokens (⟨symbol, first, last⟩ :: active)
        (chart.treesAt observer tokens.toArray depth'
          (⟨symbol, first, last⟩ :: active))) :
    Enumerates σ chart tokens active chart.limit []
      (chart.treesAt observer tokens.toArray depth active symbol first last)
      fun context => chart.grammar.treesOver tokens context symbol first last := by
  intro before faithful apart
  beta_reduce
  rw [List.nil_append]
  cases lookup : before.memo[(⟨symbol, first, last⟩ : Cell)]? with
  | some trees =>
      have own := faithful _ trees lookup
      refine ⟨{ before with
          record := observer (.recalled ⟨symbol, first, last⟩) before.record },
        ?_, ⟨faithful, apart, fun _ => id, Nat.le_refl _⟩, ?_⟩
      · rw [run_treesAt_of_remembered _ _ _ _ _ _ _ role long before lookup,
          own active apart]
        rfl
      · intro _ context free
        rw [own context free, own active apart]
  | none =>
      by_cases inProgress : (⟨symbol, first, last⟩ : Cell) ∈ active
      · refine ⟨⟨before.memo, before.cuts + 1,
            observer (.cut ⟨symbol, first, last⟩) before.record⟩,
          ?_, ⟨faithful, apart, fun _ => id, Nat.le_succ _⟩, ?_⟩
        · rw [run_treesAt_of_mem_active _ _ _ _ _ _ _ role long before lookup
              inProgress,
            Grammar.treesOver_of_nonterminal _ _ _ _ _ role,
            if_pos inProgress, List.take_nil]
          rfl
        · intro same
          exact absurd same (Nat.succ_ne_self _)
      · obtain ⟨depth, rfl, treesEnumerate⟩ := nested inProgress
        rw [run_treesAt_of_not_mem_active _ _ _ _ _ _ _ role long before lookup
          inProgress]
        apply run_fill (enumerates_nodesOver treesEnumerate ordered inside []
          (Nat.zero_le _)) _ inProgress faithful apart
          (not_mem_of_getElem?_eq_none lookup)
        intro context absent
        rw [Grammar.treesOver_of_nonterminal _ _ _ _ _ role, if_neg absent]

theorem enumeratesTrees_treesAt_of_nested
    (decides : chart.grammar.TestsNeverFail) {depth : Nat}
    (nested : ∀ cell ∈ chart.grammar.idleCells active 0 tokens.length,
      ∃ depth', depth = depth' + 1 ∧
        EnumeratesTrees σ chart tokens (cell :: active)
          (chart.treesAt observer tokens.toArray depth' (cell :: active))) :
    EnumeratesTrees σ chart tokens active
      (chart.treesAt observer tokens.toArray depth active) := by
  have positive := chart.limit_pos
  intro symbol first last ordered inside
  cases role : chart.grammar.role symbol with
  | lexical member =>
      rw [treesAt_of_lexical _ _ _ _ _ _ _ role]
      simp only [Grammar.treesOver_of_lexical _ _ _ _ _ role]
      exact enumerates_leavesAt (decides symbol member role)
  | empty =>
      rw [treesAt_of_empty _ _ _ _ _ _ _ role]
      simp only [Grammar.treesOver_of_empty _ _ _ _ _ role]
      apply Enumerates.pure
      intro _
      rw [List.nil_append, List.take_of_length_le]
      split
      · exact positive
      · exact Nat.zero_le _
  | nonterminal =>
      cases long : chart.tooShort symbol first last with
      | true =>
          rw [treesAt_of_tooShort _ _ _ _ _ _ _ role long]
          apply Enumerates.pure
          intro context
          rw [treesOver_eq_nil_of_tooShort context role ordered long, List.take_nil,
            List.append_nil]
      | false =>
          exact enumerates_treesAt_of_long role long ordered inside
            fun idle => nested _
              (mem_idleCells_of_long long ordered inside idle)

/-- The search for the trees of a symbol follows the plain enumeration, if it
can nest as many cells as there are idle ones. -/
theorem enumeratesTrees_treesAt (decides : chart.grammar.TestsNeverFail)
    {depth : Nat}
    (enough :
      (chart.grammar.idleCells active 0 tokens.length).card ≤ depth) :
    EnumeratesTrees σ chart tokens active
      (chart.treesAt observer tokens.toArray depth active) := by
  refine Grammar.idleCells_induction ?_ enough
  intro depth active _ nested
  exact enumeratesTrees_treesAt_of_nested decides nested

end Searches

end Chart

end SemanticGrammar
