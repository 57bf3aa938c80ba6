import SemanticGrammar.Proofs.ChartSearch

/-!
# Courses of a search

A record lists the steps of a search, the last one first, so each moment of
the search is an end of its record.  A record tells which cells are being
filled, which trees are remembered and which cells were met since a cell was
entered.

A course is a record in which each step fits what came before it.  Cells are
entered within the tokens, when they are neither in progress nor remembered,
and they are left in the reverse order.  A cell is remembered after it was
left, when all cells met while it was filled are remembered.  It follows that
what is remembered is never in progress, at that moment or later, and that its
trees are the beginning of the plain enumeration.
-/

namespace SemanticGrammar

namespace Chart

/-! ## What a record tells -/

/-- The cells that are being filled, the one entered last first. -/
def inProgress : List Step → List Cell
  | [] => []
  | .entered cell :: earlier => cell :: inProgress earlier
  | .left cell :: earlier => (inProgress earlier).erase cell
  | .remembered _ _ :: earlier => inProgress earlier
  | .recalled _ :: earlier => inProgress earlier
  | .cut _ :: earlier => inProgress earlier
  | .readToken _ :: earlier => inProgress earlier

/-- The trees of the cells that are remembered. -/
def memoAfter : List Step → Memo
  | [] => ∅
  | .remembered cell trees :: earlier => (memoAfter earlier).insert cell trees
  | .entered _ :: earlier => memoAfter earlier
  | .left _ :: earlier => memoAfter earlier
  | .recalled _ :: earlier => memoAfter earlier
  | .cut _ :: earlier => memoAfter earlier
  | .readToken _ :: earlier => memoAfter earlier

namespace Step

/-- The cell that a search meets by a step, in whatever state it is. -/
def met? : Step → Option Cell
  | entered cell => some cell
  | recalled cell => some cell
  | cut cell => some cell
  | left _ => none
  | remembered _ _ => none
  | readToken _ => none

def enters (cell : Cell) : Step → Bool
  | entered other => other == cell
  | _ => false

def isCut : Step → Bool
  | cut _ => true
  | _ => false

@[simp]
theorem enters_entered {cell other : Cell} :
    (entered other).enters cell = true ↔ other = cell := by
  simp [enters]

end Step

/-- The cells met since a cell was last entered. -/
def metSince (cell : Cell) (record : List Step) : List Cell :=
  (record.takeWhile fun step => !step.enters cell).filterMap Step.met?

/-- Whether a cell was met while the trees of another one were found that are
now remembered. -/
def Visited (record : List Step) (cell visited : Cell) : Prop :=
  ∃ trees earlier, .remembered cell trees :: earlier <:+ record ∧
    visited ∈ metSince cell earlier

/-! ## Courses -/

/-- Whether each step of a record fits the steps before it. -/
inductive Course (chart : Chart) (tokens : List String) :
    List Step → Prop where
  | start : Course chart tokens []
  | entered {earlier : List Step} {cell : Cell}
      (before : Course chart tokens earlier)
      (within : cell ∈ chart.grammar.cellsWithin 0 tokens.length)
      (idle : cell ∉ inProgress earlier) (isNew : cell ∉ memoAfter earlier) :
      Course chart tokens (.entered cell :: earlier)
  | left {earlier : List Step} {cell : Cell}
      (before : Course chart tokens earlier)
      (innermost : (inProgress earlier).head? = some cell) :
      Course chart tokens (.left cell :: earlier)
  | remembered {earlier : List Step} {cell : Cell} {trees : List Tree}
      (before : Course chart tokens earlier)
      (within : cell ∈ chart.grammar.cellsWithin 0 tokens.length)
      (idle : cell ∉ inProgress earlier)
      (visited : ∀ other ∈ metSince cell earlier, other ∈ memoAfter earlier)
      (own : ∀ context, cell ∉ context → Apart (memoAfter earlier) context →
        (chart.grammar.treesOver tokens context cell.symbol cell.first
          cell.last).take chart.limit = trees) :
      Course chart tokens (.remembered cell trees :: earlier)
  | recalled {earlier : List Step} {cell : Cell}
      (before : Course chart tokens earlier) (kept : cell ∈ memoAfter earlier) :
      Course chart tokens (.recalled cell :: earlier)
  | cut {earlier : List Step} {cell : Cell}
      (before : Course chart tokens earlier)
      (busy : cell ∈ inProgress earlier) :
      Course chart tokens (.cut cell :: earlier)
  | readToken {earlier : List Step} {position : Nat}
      (before : Course chart tokens earlier)
      (inside : position < tokens.length) :
      Course chart tokens (.readToken position :: earlier)

theorem mem_memoAfter_of_suffix {earlier later : List Step} {cell : Cell}
    (suffix : earlier <:+ later) (kept : cell ∈ memoAfter earlier) :
    cell ∈ memoAfter later := by
  obtain ⟨steps, rfl⟩ := suffix
  induction steps with
  | nil => exact kept
  | cons step steps ih =>
      cases step with
      | remembered => exact mem_insert_iff.mpr (Or.inr ih)
      | entered | left | recalled | cut | readToken => exact ih

namespace Course

variable {chart : Chart} {tokens : List String} {record moment : List Step}

theorem tail {step : Step} (course : chart.Course tokens (step :: record)) :
    chart.Course tokens record := by
  cases course <;> assumption

/-- Each moment of a course ends a course. -/
theorem of_suffix (course : chart.Course tokens record)
    (suffix : moment <:+ record) : chart.Course tokens moment := by
  obtain ⟨steps, rfl⟩ := suffix
  induction steps with
  | nil => exact course
  | cons step steps ih => exact ih course.tail

/-! ## Cells in progress -/

theorem mem_cellsWithin_of_inProgress (course : chart.Course tokens record)
    {cell : Cell} (busy : cell ∈ inProgress record) :
    cell ∈ chart.grammar.cellsWithin 0 tokens.length := by
  induction course with
  | start => cases busy
  | entered before within idle isNew ih =>
      rcases List.mem_cons.mp busy with rfl | busy
      · exact within
      · exact ih busy
  | left before innermost ih => exact ih (List.mem_of_mem_erase busy)
  | remembered _ _ _ _ _ ih | recalled _ _ ih | cut _ _ ih
  | readToken _ _ ih => exact ih busy

theorem nodup_inProgress (course : chart.Course tokens record) :
    (inProgress record).Nodup := by
  induction course with
  | start => exact .nil
  | entered before within idle isNew ih => exact List.nodup_cons.mpr ⟨idle, ih⟩
  | left before innermost ih => exact ih.erase _
  | remembered _ _ _ _ _ ih | recalled _ _ ih | cut _ _ ih
  | readToken _ _ ih => exact ih

/-- A cell that is in progress at some moment but not in the end is left in
between. -/
theorem exists_left {cell : Cell} (suffix : moment <:+ record)
    (busy : cell ∈ inProgress moment) (done : cell ∉ inProgress record) :
    ∃ later, .left cell :: later <:+ record ∧ moment <:+ later := by
  obtain ⟨steps, rfl⟩ := suffix
  induction steps with
  | nil => exact absurd busy done
  | cons step steps ih =>
      by_cases still : cell ∈ inProgress (steps ++ moment)
      · -- The cell is in progress until the last step, which must leave it.
        cases step with
        | left other =>
            by_cases same : cell = other
            · subst same
              exact ⟨steps ++ moment, List.suffix_refl _,
                List.suffix_append _ _⟩
            · exact absurd ((List.mem_erase_of_ne same).mpr still) done
        | entered other => exact absurd (List.mem_cons_of_mem _ still) done
        | remembered | recalled | cut | readToken => exact absurd still done
      · obtain ⟨later, left, after⟩ := ih still
        exact ⟨later, left.trans (List.suffix_cons _ _), after⟩

/-! ## Remembered cells -/

theorem apart (course : chart.Course tokens record) :
    Apart (memoAfter record) (inProgress record) := by
  induction course with
  | start => exact fun _ busy => by cases busy
  | entered before within idle isNew ih => exact apart_cons.mpr ⟨isNew, ih⟩
  | left before innermost ih =>
      exact fun cell busy => ih cell (List.mem_of_mem_erase busy)
  | remembered before within idle visited own ih =>
      exact apart_insert.mpr ⟨idle, ih⟩
  | recalled _ _ ih | cut _ _ ih | readToken _ _ ih => exact ih

theorem mem_cellsWithin_of_memoAfter (course : chart.Course tokens record)
    {cell : Cell} (kept : cell ∈ memoAfter record) :
    cell ∈ chart.grammar.cellsWithin 0 tokens.length := by
  induction course with
  | start => simp [memoAfter] at kept
  | remembered before within idle visited own ih =>
      rcases mem_insert_iff.mp kept with rfl | kept
      · exact within
      · exact ih kept
  | entered _ _ _ _ ih | left _ _ ih | recalled _ _ ih | cut _ _ ih
  | readToken _ _ ih => exact ih kept

theorem faithful (course : chart.Course tokens record) :
    chart.Faithful tokens (memoAfter record) := by
  induction course with
  | start => simp [Faithful, memoAfter]
  | remembered before within idle visited own ih => exact ih.insert own
  | entered _ _ _ _ ih | left _ _ ih | recalled _ _ ih | cut _ _ ih
  | readToken _ _ ih => exact ih

/-- Whatever was met, directly or not, while the trees of a remembered cell
were found is remembered itself. -/
theorem mem_memoAfter_of_visited (course : chart.Course tokens record)
    {cell other : Cell} (kept : cell ∈ memoAfter record)
    (visited : Relation.ReflTransGen (Visited record) cell other) :
    other ∈ memoAfter record := by
  induction visited with
  | refl => exact kept
  | tail _ last _ =>
      obtain ⟨trees, earlier, suffix, met⟩ := last
      have earlierSuffix := (List.suffix_cons _ _).trans suffix
      cases course.of_suffix suffix with
      | remembered before within idle visited own =>
          exact mem_memoAfter_of_suffix earlierSuffix (visited _ met)

/-- No cell that was met, directly or not, while the trees of a remembered
cell were found is in progress at that moment or later. -/
theorem not_mem_inProgress_of_visited (course : chart.Course tokens record)
    {later : List Step} (suffix : moment <:+ later) (after : later <:+ record)
    {cell other : Cell} (kept : cell ∈ memoAfter moment)
    (visited : Relation.ReflTransGen (Visited moment) cell other) :
    other ∉ inProgress later := by
  intro busy
  have momentCourse := course.of_suffix (suffix.trans after)
  exact (course.of_suffix after).apart other busy
    (mem_memoAfter_of_suffix suffix
      (momentCourse.mem_memoAfter_of_visited kept visited))

end Course

end Chart

end SemanticGrammar
