import SemanticGrammar.Proofs.ChartCourse

/-!
# The records of searches

A recorded search takes a course.  It takes up the record where it starts, and
when it ends the same cells are in progress as before, although cells may have
been entered and left meanwhile.  If it cuts nothing then every cell that it
met is remembered in the end: such a cell was remembered already or was filled
without a cut.

So the trees of a filled cell are kept only when all cells met while it was
filled are remembered.
-/

namespace SemanticGrammar

namespace Chart

variable {chart : Chart} {tokens : List String} {active : List Cell}

/-- Whether the record of a state is a course, tells the cells that are being
filled and agrees with what the state knows. -/
structure Told (chart : Chart) (tokens : List String) (active : List Cell)
    (state : State (List Step)) : Prop where
  course : chart.Course tokens state.record
  inProgress_eq : inProgress state.record = active
  memo_eq : memoAfter state.record = state.memo
  cuts_eq : state.record.countP Step.isCut = state.cuts

/-- Whether a record goes on from another one without entering some cells, and
with all cells that it meets remembered unless one is cut. -/
def Adds (active : List Cell) (before after : List Step) : Prop :=
  ∃ steps, after = steps ++ before ∧
    (∀ cell ∈ active, ∀ step ∈ steps, step.enters cell = false) ∧
    (steps.countP Step.isCut = 0 →
      ∀ cell ∈ steps.filterMap Step.met?, cell ∈ memoAfter after)

namespace Adds

variable {first second third : List Step}

theorem refl (active : List Cell) (record : List Step) :
    Adds active record record :=
  ⟨[], rfl, by simp, by simp⟩

theorem trans (left : Adds active first second)
    (right : Adds active second third) : Adds active first third := by
  obtain ⟨steps, rfl, entersNone, uncut⟩ := left
  obtain ⟨laterSteps, rfl, laterEntersNone, laterUncut⟩ := right
  refine ⟨laterSteps ++ steps, (List.append_assoc _ _ _).symm, ?_, ?_⟩
  · intro cell busy
    exact List.forall_mem_append.mpr
      ⟨laterEntersNone cell busy, entersNone cell busy⟩
  · intro none
    rw [List.countP_append, Nat.add_eq_zero_iff] at none
    rw [List.filterMap_append, List.forall_mem_append]
    refine ⟨laterUncut none.1, fun cell met => ?_⟩
    exact mem_memoAfter_of_suffix (List.suffix_append _ _)
      (uncut none.2 cell met)

/-- One step that enters no cell may be added if it meets remembered cells
only, or is a cut. -/
theorem step {step : Step} {record : List Step}
    (entersNone : ∀ cell, step.enters cell = false)
    (kept : step.isCut = false →
      ∀ cell ∈ step.met?, cell ∈ memoAfter (step :: record)) :
    Adds active record (step :: record) := by
  refine ⟨[step], rfl, by simp [entersNone], fun none cell met => ?_⟩
  rw [List.countP_eq_zero, List.forall_mem_singleton] at none
  simp only [List.filterMap_cons, List.filterMap_nil] at met
  split at met
  · cases met
  · rename_i cell' isMet
    rw [List.mem_singleton] at met
    subst met
    exact kept (Bool.not_eq_true _ ▸ none) cell isMet

end Adds

/-- Whether a search, while some cells are being filled, goes on with the
record and leaves the cells in progress as they are. -/
def Takes {α : Type} (chart : Chart) (tokens : List String)
    (active : List Cell) (search : Search (List Step) α) : Prop :=
  ∀ before, Told chart tokens active before →
    ∀ found after, search.run before = .ok (found, after) →
      Told chart tokens active after ∧ Adds active before.record after.record

/-- Whether a search for the trees of a symbol goes on with the record over
all spans of the tokens. -/
def TakesTrees (chart : Chart) (tokens : List String) (active : List Cell)
    (treesOf : Symbol → Nat → Nat → Search (List Step) (List Tree)) : Prop :=
  ∀ symbol first last, first ≤ last → last ≤ tokens.length →
    Takes chart tokens active (treesOf symbol first last)

/-! ## Rules for searches -/

theorem exists_of_run_bind_eq_ok {σ α β : Type} {search : Search σ α}
    {next : α → Search σ β} {before : State σ} {result : β × State σ}
    (ran : (search >>= next).run before = .ok result) :
    ∃ found middle, search.run before = .ok (found, middle) ∧
      (next found).run middle = .ok result := by
  rw [StateT.run_bind] at ran
  cases inner : search.run before with
  | error fault =>
      rw [inner] at ran
      cases ran
  | ok middle =>
      rw [inner] at ran
      exact ⟨middle.1, middle.2, rfl, ran⟩

namespace Takes

variable {α β : Type} {search : Search (List Step) α}
  {next : α → Search (List Step) β}

theorem pure (found : α) : Takes chart tokens active (pure found) := by
  intro before told result after ran
  obtain ⟨-, rfl⟩ := Prod.mk.inj (Except.ok.inj ran)
  exact ⟨told, .refl _ _⟩

theorem bind (first : Takes chart tokens active search)
    (rest : ∀ found, Takes chart tokens active (next found)) :
    Takes chart tokens active (search >>= next) := by
  intro before told result after ran
  obtain ⟨found, middle, ranFirst, ranNext⟩ := exists_of_run_bind_eq_ok ran
  obtain ⟨toldMiddle, addsFirst⟩ := first before told found middle ranFirst
  obtain ⟨toldAfter, addsNext⟩ :=
    rest found middle toldMiddle result after ranNext
  exact ⟨toldAfter, addsFirst.trans addsNext⟩

theorem lift (result : Except Fault α) :
    Takes chart tokens active (liftM result) := by
  intro before told found after ran
  cases result with
  | error fault => cases ran
  | ok value =>
      obtain ⟨-, rfl⟩ := Prod.mk.inj (Except.ok.inj ran)
      exact ⟨told, .refl _ _⟩

theorem readToken {position : Nat} (inside : position < tokens.length) :
    Takes chart tokens active (report recorder (.readToken position)) := by
  intro before told found after ran
  obtain ⟨-, rfl⟩ := Prod.mk.inj (Except.ok.inj ran)
  exact ⟨⟨told.course.readToken inside, told.inProgress_eq, told.memo_eq,
    told.cuts_eq⟩, .step (fun _ => rfl) (by simp [Step.met?])⟩

theorem cutAt {cell : Cell} (busy : cell ∈ active) :
    Takes chart tokens active (cutAt recorder cell) := by
  intro before told found after ran
  obtain ⟨-, rfl⟩ := Prod.mk.inj (Except.ok.inj ran)
  have busy' : cell ∈ inProgress before.record := by
    rwa [told.inProgress_eq]
  refine ⟨⟨told.course.cut busy', told.inProgress_eq, told.memo_eq, ?_⟩,
    .step (fun _ => rfl) (by simp [Step.isCut])⟩
  exact (List.countP_cons_of_pos rfl).trans (congrArg (· + 1) told.cuts_eq)

end Takes

/-! ## Leaves, children and nodes -/

section Searches

variable {first last : Nat}

theorem takes_leavesAt (category : Symbol)
    (member : String → Except Fault Bool) (inside : last ≤ tokens.length) :
    Takes chart tokens active
      (leavesAt recorder tokens.toArray category member first last) := by
  unfold leavesAt
  split
  · refine (Takes.readToken (by omega)).bind fun _ => ?_
    split
    · exact .pure _
    · refine (Takes.lift _).bind fun accepted => ?_
      cases accepted <;> exact .pure _
  · exact .pure _

theorem takes_sequencesOver {limit : Nat}
    {headsTo : Nat → Search (List Step) (List Tree)}
    {tailsFrom : Nat → Search (List Step) (List (List Tree))}
    {splits : List Nat}
    (takesHeads : ∀ split ∈ splits, Takes chart tokens active (headsTo split))
    (takesTails : ∀ split ∈ splits,
      Takes chart tokens active (tailsFrom split))
    (found : List (List Tree)) :
    Takes chart tokens active
      (sequencesOver limit headsTo tailsFrom found splits) := by
  induction splits generalizing found with
  | nil => exact .pure _
  | cons split splits ih =>
      obtain ⟨takesHead, takesHeads⟩ := List.forall_mem_cons.mp takesHeads
      obtain ⟨takesTail, takesTails⟩ := List.forall_mem_cons.mp takesTails
      refine takesHead.bind fun heads => ?_
      split
      · exact ih takesHeads takesTails found
      · refine takesTail.bind fun tails => ?_
        simp only
        split
        · exact .pure _
        · exact ih takesHeads takesTails _

variable {treesOf : Symbol → Nat → Nat → Search (List Step) (List Tree)}

theorem takes_sequencesAt (takes : TakesTrees chart tokens active treesOf)
    (symbols : List Symbol) (ordered : first ≤ last)
    (inside : last ≤ tokens.length) :
    Takes chart tokens active
      (sequencesAt chart treesOf symbols first last) := by
  induction symbols generalizing first with
  | nil => exact .pure _
  | cons symbol rest ih =>
      apply takes_sequencesOver
      · intro split member
        obtain ⟨_, _⟩ := le_of_mem_splits member
        exact takes symbol first split (by omega) (by omega)
      · intro split member
        exact ih (le_of_mem_splits member).2

theorem takes_nodesOver (takes : TakesTrees chart tokens active treesOf)
    (head : Symbol) (alternatives : List (List Symbol)) (ordered : first ≤ last)
    (inside : last ≤ tokens.length) (found : List Tree) :
    Takes chart tokens active
      (nodesOver chart treesOf head first last found alternatives) := by
  induction alternatives generalizing found with
  | nil => exact .pure _
  | cons alternative alternatives ih =>
      exact (takes_sequencesAt takes alternative ordered inside).bind
        fun sequences => ih _

/-! ## Cells -/

namespace Told

variable {cell : Cell} {state : State (List Step)}

theorem entered (told : Told chart tokens active state)
    (within : cell ∈ chart.grammar.cellsWithin 0 tokens.length)
    (idle : cell ∉ active) (isNew : cell ∉ state.memo) :
    Told chart tokens (cell :: active)
      { state with record := .entered cell :: state.record } where
  course := told.course.entered within (told.inProgress_eq ▸ idle)
    (told.memo_eq ▸ isNew)
  inProgress_eq := congrArg (cell :: ·) told.inProgress_eq
  memo_eq := told.memo_eq
  cuts_eq := told.cuts_eq

theorem left (told : Told chart tokens (cell :: active) state) :
    Told chart tokens active
      { state with record := .left cell :: state.record } where
  course := told.course.left (congrArg List.head? told.inProgress_eq)
  inProgress_eq := by
    rw [inProgress, told.inProgress_eq, List.erase_cons_head]
  memo_eq := told.memo_eq
  cuts_eq := told.cuts_eq

theorem remembered (told : Told chart tokens active state)
    (within : cell ∈ chart.grammar.cellsWithin 0 tokens.length)
    (idle : cell ∉ active)
    (visited : ∀ other ∈ metSince cell state.record, other ∈ state.memo)
    {trees : List Tree}
    (faithful : chart.Faithful tokens (state.memo.insert cell trees)) :
    Told chart tokens active
      { state with
        memo := state.memo.insert cell trees
        record := .remembered cell trees :: state.record } where
  course := by
    refine told.course.remembered within (told.inProgress_eq ▸ idle)
      (told.memo_eq ▸ visited) fun context absent free => ?_
    rw [told.memo_eq] at free
    exact faithful cell trees (by simp) context
      (apart_insert.mpr ⟨absent, free⟩)
  inProgress_eq := told.inProgress_eq
  memo_eq := congrArg (·.insert cell trees) told.memo_eq
  cuts_eq := told.cuts_eq

end Told

section Filling

variable {cell : Cell} {steps record : List Step}
  (entersNone : ∀ other ∈ cell :: active, ∀ step ∈ steps,
    step.enters other = false)

include entersNone

theorem metSince_filled :
    metSince cell (.left cell :: (steps ++ .entered cell :: record)) =
      steps.filterMap Step.met? := by
  have within : ∀ step ∈ .left cell :: steps,
      (!step.enters cell) = true := by
    simpa [Step.enters] using entersNone cell List.mem_cons_self
  rw [metSince, ← List.cons_append, List.takeWhile_append_of_pos within,
    List.takeWhile_cons_of_neg (by simp), List.append_nil]
  rfl

/-- To fill an idle cell, steps that enter neither it nor the cells in
progress are put between its own. -/
theorem enters_filled_eq_false (idle : cell ∉ active) :
    ∀ other ∈ active, ∀ step ∈ .left cell :: (steps ++ [.entered cell]),
      step.enters other = false := by
  intro other busy
  have isOther : cell ≠ other := by
    rintro rfl
    exact idle busy
  simpa [Step.enters, isOther, or_imp, forall_and] using
    entersNone other (List.mem_cons_of_mem _ busy)

end Filling

/-- A cell that is filled is entered and left, and it is remembered when all
that was met meanwhile is. -/
theorem told_fill {cell : Cell} {search : Search (List Step) (List Tree)}
    (takes : Takes chart tokens (cell :: active) search)
    (within : cell ∈ chart.grammar.cellsWithin 0 tokens.length)
    (idle : cell ∉ active) {before after : State (List Step)}
    (told : Told chart tokens active before) (isNew : cell ∉ before.memo)
    {found : List Tree}
    (ran : (fill recorder cell search).run before = .ok (found, after))
    (faithful : chart.Faithful tokens after.memo) :
    Told chart tokens active after ∧
      Adds active before.record after.record := by
  let entered : State (List Step) :=
    { before with record := .entered cell :: before.record }
  unfold fill at ran
  rw [run_bind_of_run_eq_ok () entered rfl,
    run_bind_of_run_eq_ok entered entered rfl] at ran
  obtain ⟨trees, filled, searched, ran⟩ := exists_of_run_bind_eq_ok ran
  obtain ⟨toldFilled, steps, record, entersNone, uncut⟩ :=
    takes entered (told.entered within idle isNew) trees filled searched
  have toldLeft := toldFilled.left
  have cuts : filled.cuts = steps.countP Step.isCut + before.cuts := by
    rw [← toldFilled.cuts_eq, record, List.countP_append,
      (told.entered within idle isNew).cuts_eq]
  let left : State (List Step) :=
    { filled with record := .left cell :: filled.record }
  have leftRecord : left.record =
      (.left cell :: (steps ++ [.entered cell])) ++ before.record := by
    simp [left, record, entered]
  rw [run_bind_of_run_eq_ok () left rfl, run_bind_of_run_eq_ok left left rfl]
    at ran
  have othersNone := enters_filled_eq_false entersNone idle
  by_cases none : filled.cuts = before.cuts
  · rw [if_pos none] at ran
    obtain ⟨-, rfl⟩ := Prod.mk.inj (Except.ok.inj ran)
    have kept : ∀ other ∈ steps.filterMap Step.met?, other ∈ filled.memo :=
      toldFilled.memo_eq ▸ uncut (by omega)
    refine ⟨toldLeft.remembered within idle ?_ faithful,
      .remembered cell trees :: .left cell :: (steps ++ [.entered cell]),
      congrArg (_ :: ·) leftRecord, ?_, fun _ => ?_⟩
    · rw [record, metSince_filled entersNone]
      exact kept
    · intro other busy
      exact List.forall_mem_cons.mpr ⟨rfl, othersNone other busy⟩
    · change ∀ other ∈ (steps ++ [Step.entered cell]).filterMap Step.met?,
        other ∈ (memoAfter filled.record).insert cell trees
      rw [List.filterMap_append, List.forall_mem_append, toldFilled.memo_eq]
      refine ⟨fun other met => ?_, fun other isSelf => ?_⟩
      · exact mem_insert_iff.mpr (Or.inr (kept other met))
      · exact mem_insert_iff.mpr (Or.inl (List.mem_singleton.mp isSelf).symm)
  · rw [if_neg none] at ran
    obtain ⟨-, rfl⟩ := Prod.mk.inj (Except.ok.inj ran)
    refine ⟨toldLeft, _, leftRecord, othersNone, fun noCut => ?_⟩
    have fewer :=
      ((List.sublist_append_left steps [.entered cell]).cons
        (.left cell)).countP_le (p := Step.isCut)
    omega

/-! ## Trees -/

namespace Told

variable {state : State (List Step)}

theorem faithful (told : Told chart tokens active state) :
    chart.Faithful tokens state.memo :=
  told.memo_eq ▸ told.course.faithful

theorem apart (told : Told chart tokens active state) :
    Apart state.memo active :=
  told.memo_eq ▸ told.inProgress_eq ▸ told.course.apart

end Told

theorem takes_treesAt_of_long {symbol : Symbol} {depth : Nat}
    (role : chart.grammar.role symbol = .nonterminal)
    (long : chart.tooShort symbol first last = false)
    (ordered : first ≤ last) (inside : last ≤ tokens.length)
    (enumerates : EnumeratesTrees (List Step) chart tokens active
      (chart.treesAt recorder tokens.toArray depth active))
    (nested : ⟨symbol, first, last⟩ ∈
        chart.grammar.idleCells active 0 tokens.length →
      ∃ depth', depth = depth' + 1 ∧
        TakesTrees chart tokens (⟨symbol, first, last⟩ :: active)
          (chart.treesAt recorder tokens.toArray depth'
            (⟨symbol, first, last⟩ :: active))) :
    Takes chart tokens active
      (chart.treesAt recorder tokens.toArray depth active symbol first
        last) := by
  intro before told found after ran
  -- What is remembered in the end is known from the enumeration.
  obtain ⟨after', ran', extend, -⟩ := enumerates symbol first last ordered
    inside before told.faithful told.apart
  obtain ⟨-, rfl⟩ := Prod.mk.inj (Except.ok.inj (ran'.symm.trans ran))
  cases lookup : before.memo[(⟨symbol, first, last⟩ : Cell)]? with
  | some trees =>
      rw [run_treesAt_of_remembered _ _ _ _ _ _ _ role long before lookup]
        at ran
      obtain ⟨-, rfl⟩ := Prod.mk.inj (Except.ok.inj ran)
      have kept : (⟨symbol, first, last⟩ : Cell) ∈ memoAfter before.record := by
        rw [told.memo_eq, Std.TreeMap.mem_iff_isSome_getElem?, lookup]
        rfl
      refine ⟨⟨told.course.recalled kept, told.inProgress_eq, told.memo_eq,
        told.cuts_eq⟩, .step (fun _ => rfl) fun _ cell met => ?_⟩
      obtain rfl := Option.some.inj met
      exact kept
  | none =>
      by_cases busy : (⟨symbol, first, last⟩ : Cell) ∈ active
      · rw [run_treesAt_of_mem_active _ _ _ _ _ _ _ role long before lookup
          busy] at ran
        exact Takes.cutAt busy before told found _ ran
      · have idle := mem_idleCells_of_long long ordered inside busy
        obtain ⟨depth, rfl, takes⟩ := nested idle
        rw [run_treesAt_of_not_mem_active _ _ _ _ _ _ _ role long before
          lookup busy] at ran
        exact told_fill (takes_nodesOver takes symbol _ ordered inside [])
          (Grammar.mem_idleCells.mp idle).1 busy told
          (not_mem_of_getElem?_eq_none lookup) ran extend.faithful

theorem takesTrees_treesAt_of_nested {depth : Nat}
    (enumerates : EnumeratesTrees (List Step) chart tokens active
      (chart.treesAt recorder tokens.toArray depth active))
    (nested : ∀ cell ∈ chart.grammar.idleCells active 0 tokens.length,
      ∃ depth', depth = depth' + 1 ∧
        TakesTrees chart tokens (cell :: active)
          (chart.treesAt recorder tokens.toArray depth' (cell :: active))) :
    TakesTrees chart tokens active
      (chart.treesAt recorder tokens.toArray depth active) := by
  intro symbol first last ordered inside
  cases role : chart.grammar.role symbol with
  | lexical member =>
      rw [treesAt_of_lexical _ _ _ _ _ _ _ role]
      exact takes_leavesAt symbol member inside
  | empty =>
      rw [treesAt_of_empty _ _ _ _ _ _ _ role]
      exact .pure _
  | nonterminal =>
      cases long : chart.tooShort symbol first last with
      | true =>
          rw [treesAt_of_tooShort _ _ _ _ _ _ _ role long]
          exact .pure _
      | false =>
          exact takes_treesAt_of_long role long ordered inside enumerates
            (nested _)

/-- The search for the trees of a symbol takes a course, if it can nest as
many cells as there are idle ones. -/
theorem takesTrees_treesAt (decides : chart.grammar.TestsNeverFail)
    {depth : Nat}
    (enough :
      (chart.grammar.idleCells active 0 tokens.length).card ≤ depth) :
    TakesTrees chart tokens active
      (chart.treesAt recorder tokens.toArray depth active) := by
  refine Grammar.idleCells_induction ?_ enough
  intro depth active enough nested
  exact takesTrees_treesAt_of_nested (enumeratesTrees_treesAt decides enough)
    nested

end Searches

end Chart

end SemanticGrammar
