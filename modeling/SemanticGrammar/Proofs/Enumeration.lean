import Mathlib.Data.Finset.Card
import Mathlib.Data.List.Nodup
import SemanticGrammar.Proofs.ShortestLength
import SemanticGrammar.Proofs.TreeSpan

/-!
# The plain enumeration of trees

The trees of a symbol over a span are enumerated by trying all alternatives
and all divisions of the span, in order and without a memory, a bound on the
number of trees or a look at shortest lengths.  Only the cells that are being
expanded already are left out.

The enumeration lists exactly the derivations that read the span and go
through no cell twice, and it lists each of them once when productions do not
repeat.  It ends because every nested cell is a new one.
-/

namespace SemanticGrammar

namespace Grammar

/-! ## Cells that are not being expanded -/

/-- The cells of the heads of a grammar over the spans within a span. -/
def cellsWithin (grammar : Grammar) (first last : Nat) : List Cell :=
  grammar.heads.flatMap fun head =>
    (List.range' first (last + 1 - first)).flatMap fun stop =>
      (List.range' first (stop + 1 - first)).map fun start =>
        ⟨head, start, stop⟩

/-- The cells within a span that are not being expanded. -/
def idleCells (grammar : Grammar) (active : List Cell) (first last : Nat) :
    Finset Cell :=
  (grammar.cellsWithin first last).toFinset.filter (· ∉ active)

section IdleCells

variable {grammar : Grammar} {active : List Cell} {first last : Nat}
  {cell : Cell}

theorem mem_cellsWithin :
    cell ∈ grammar.cellsWithin first last ↔
      cell.symbol ∈ grammar.heads ∧ first ≤ cell.first ∧
        cell.first ≤ cell.last ∧ cell.last ≤ last := by
  obtain ⟨symbol, start, stop⟩ := cell
  simp only [cellsWithin, List.mem_flatMap, List.mem_map, List.mem_range'_1,
    Cell.mk.injEq]
  constructor
  · rintro ⟨head, headMem, last', ⟨_, _⟩, first', ⟨_, _⟩, rfl, rfl, rfl⟩
    exact ⟨headMem, by omega, by omega, by omega⟩
  · rintro ⟨headMem, _, _, _⟩
    exact ⟨symbol, headMem, stop, by omega, start, by omega, rfl, rfl, rfl⟩

theorem mem_idleCells :
    cell ∈ grammar.idleCells active first last ↔
      cell ∈ grammar.cellsWithin first last ∧ cell ∉ active := by
  simp [idleCells]

theorem card_idleCells_le_of_within {first' last' : Nat}
    (left : first ≤ first') (right : last' ≤ last) :
    (grammar.idleCells active first' last').card ≤
      (grammar.idleCells active first last).card := by
  apply Finset.card_le_card
  intro cell
  simp only [mem_idleCells, mem_cellsWithin]
  rintro ⟨⟨headMem, _, _, _⟩, absent⟩
  exact ⟨⟨headMem, by omega, by omega, by omega⟩, absent⟩

theorem idleCells_cons_subset :
    grammar.idleCells (cell :: active) first last ⊆
      grammar.idleCells active first last := by
  intro other
  simp only [mem_idleCells, List.mem_cons, not_or]
  exact fun ⟨within, _, absent⟩ => ⟨within, absent⟩

theorem card_idleCells_cons_lt
    (idle : cell ∈ grammar.idleCells active first last) :
    (grammar.idleCells (cell :: active) first last).card <
      (grammar.idleCells active first last).card := by
  apply Finset.card_lt_card
  rw [Finset.ssubset_iff_of_subset idleCells_cons_subset]
  exact ⟨cell, idle, by simp [mem_idleCells]⟩

/-- What is so for a bound on the nesting when it is so inside of each idle
cell, for the bound that is less by one, is so for all bounds that are no less
than the number of idle cells. -/
@[elab_as_elim]
theorem idleCells_induction {motive : Nat → List Cell → Prop}
    (step : ∀ depth active,
      (grammar.idleCells active first last).card ≤ depth →
        (∀ cell ∈ grammar.idleCells active first last,
          ∃ depth', depth = depth' + 1 ∧ motive depth' (cell :: active)) →
        motive depth active)
    {depth : Nat}
    (enough : (grammar.idleCells active first last).card ≤ depth) :
    motive depth active := by
  induction depth generalizing active with
  | zero =>
      refine step 0 active enough fun cell idle => ?_
      rw [Finset.card_eq_zero.mp (Nat.le_zero.mp enough)] at idle
      exact absurd idle (Finset.notMem_empty cell)
  | succ depth ih =>
      refine step (depth + 1) active enough fun cell idle => ?_
      have fewer := card_idleCells_cons_lt idle
      exact ⟨depth, rfl, ih (by omega)⟩

end IdleCells

/-! ## The enumeration -/

def leavesOver (tokens : List String) (category : Symbol)
    (member : String → Except Fault Bool) (first last : Nat) : List Tree :=
  match tokens[first]? with
  | none => []
  | some token =>
      if last = first + 1 ∧ member token = .ok true then
        [.leaf category token]
      else
        []

mutual

/-- The trees of a symbol over a span of tokens, while the cells of `active`
are being expanded. -/
def treesOver (grammar : Grammar) (tokens : List String)
    (active : List Cell) (symbol : Symbol) (first last : Nat) : List Tree :=
  match grammar.role symbol with
  | .lexical member => leavesOver tokens symbol member first last
  | .empty => if first = last then [.empty] else []
  | .nonterminal =>
      if ⟨symbol, first, last⟩ ∈ active then
        []
      else
        (grammar.alternatives symbol).attach.flatMap fun alternative =>
          (childrenOver grammar tokens (⟨symbol, first, last⟩ :: active)
            alternative.val first last).map (.node symbol)
  termination_by
    ((grammar.idleCells active first last).card,
      if first ≤ last then 0 else 1, 0)
  decreasing_by
    rename_i absent
    by_cases ordered : first ≤ last
    · apply Prod.Lex.left
      apply card_idleCells_cons_lt
      exact mem_idleCells.mpr ⟨mem_cellsWithin.mpr
        ⟨mem_heads.mpr ⟨_, alternative.property⟩, by simp [ordered]⟩, absent⟩
    · apply Prod.Lex.right' _ (Finset.card_le_card idleCells_cons_subset)
      apply Prod.Lex.left
      simp [ordered]

/-- The sequences of trees of a constituent sequence over a span: the first
constituent ends as early as possible first, then its trees come in order,
and for each of them the sequences of the rest. -/
def childrenOver (grammar : Grammar) (tokens : List String)
    (active : List Cell) (symbols : List Symbol) (first last : Nat) :
    List (List Tree) :=
  match symbols with
  | [] => if first = last then [[]] else []
  | symbol :: rest =>
      (List.range' first (last + 1 - first)).attach.flatMap fun split =>
        (treesOver grammar tokens active symbol first split.val).flatMap
          fun tree =>
            (childrenOver grammar tokens active rest split.val last).map
              (tree :: ·)
  termination_by
    ((grammar.idleCells active first last).card,
      if first ≤ last then 1 else 0, symbols.length)
  decreasing_by
    · have inside := List.mem_range'_1.mp split.property
      apply Prod.Lex.right' _
        (card_idleCells_le_of_within (by omega) (by omega))
      simp only [show split.val ≤ last by omega, show first ≤ last by omega]
      apply Prod.Lex.right
      simp
    · have inside := List.mem_range'_1.mp split.property
      apply Prod.Lex.right' _
        (card_idleCells_le_of_within (by omega) (by omega))
      apply Prod.Lex.left
      simp only [show first ≤ split.val by omega, show first ≤ last by omega]
      simp

end

section Equations

variable (grammar : Grammar) (tokens : List String) (active : List Cell)
  {symbol : Symbol} (first last : Nat)

theorem treesOver_of_lexical {member : String → Except Fault Bool}
    (lexical : grammar.role symbol = .lexical member) :
    grammar.treesOver tokens active symbol first last =
      leavesOver tokens symbol member first last := by
  rw [treesOver]
  simp only [lexical]

theorem treesOver_of_empty (empty : grammar.role symbol = .empty) :
    grammar.treesOver tokens active symbol first last =
      if first = last then [.empty] else [] := by
  rw [treesOver]
  simp only [empty]

theorem treesOver_of_nonterminal
    (nonterminal : grammar.role symbol = .nonterminal) :
    grammar.treesOver tokens active symbol first last =
      if ⟨symbol, first, last⟩ ∈ active then
        []
      else
        (grammar.alternatives symbol).flatMap fun alternative =>
          (grammar.childrenOver tokens (⟨symbol, first, last⟩ :: active)
            alternative first last).map (.node symbol) := by
  rw [treesOver]
  simp only [nonterminal]
  simp

theorem childrenOver_nil :
    grammar.childrenOver tokens active [] first last =
      if first = last then [[]] else [] := by
  rw [childrenOver]

theorem childrenOver_cons (symbol : Symbol) (rest : List Symbol) :
    grammar.childrenOver tokens active (symbol :: rest) first last =
      (List.range' first (last + 1 - first)).flatMap fun split =>
        (grammar.treesOver tokens active symbol first split).flatMap
          fun tree =>
            (grammar.childrenOver tokens active rest split last).map
              (tree :: ·) := by
  rw [childrenOver]
  simp

end Equations

/-! ## What is enumerated -/

variable {grammar : Grammar} {tokens : List String} {active : List Cell}
  {first last : Nat}

theorem mem_leavesOver {category : Symbol}
    {member : String → Except Fault Bool} {tree : Tree} :
    tree ∈ leavesOver tokens category member first last ↔
      ∃ token, tree = .leaf category token ∧ member token = .ok true ∧
        Occupies tokens [token] first last := by
  simp only [occupies_singleton, leavesOver]
  cases read : tokens[first]? with
  | none => simp
  | some token =>
      simp only [Option.some.injEq, List.mem_ite_nil_right, List.mem_singleton]
      constructor
      · rintro ⟨⟨single, accepted⟩, rfl⟩
        exact ⟨token, rfl, accepted, single, rfl⟩
      · rintro ⟨_, rfl, accepted, single, rfl⟩
        exact ⟨⟨single, accepted⟩, rfl⟩

theorem mem_childrenOver_of_forall {symbols : List Symbol}
    {children : List Tree}
    (each : ∀ child ∈ children, ∀ symbol first last,
      child ∈ grammar.treesOver tokens active symbol first last ↔
        grammar.Derives symbol child ∧ child.Avoids active first ∧
          Occupies tokens child.tokens first last) :
    children ∈ grammar.childrenOver tokens active symbols first last ↔
      List.Forall₂ grammar.Derives symbols children ∧
        Tree.AvoidsAll active first children ∧
          Occupies tokens (children.flatMap Tree.tokens) first last := by
  induction symbols generalizing children first with
  | nil =>
      rw [childrenOver_nil, List.mem_ite_nil_right, List.mem_singleton,
        List.forall₂_nil_left_iff]
      constructor
      · rintro ⟨rfl, rfl⟩
        simp [Tree.AvoidsAll]
      · rintro ⟨rfl, -, occupies⟩
        exact ⟨by simpa using occupies, rfl⟩
  | cons symbol rest ih =>
      simp only [childrenOver_cons, List.mem_flatMap, List.mem_map,
        List.mem_range'_1]
      constructor
      · rintro ⟨split, -, child, childMem, others, othersMem, rfl⟩
        obtain ⟨childEach, othersEach⟩ := List.forall_mem_cons.mp each
        obtain ⟨derived, avoids, occupies⟩ :=
          (childEach symbol first split).mp childMem
        obtain ⟨othersDerived, othersAvoid, othersOccupy⟩ :=
          (ih othersEach).mp othersMem
        obtain rfl : first + child.width = split := occupies.1
        refine ⟨.cons derived othersDerived, ⟨avoids, othersAvoid⟩, ?_⟩
        rw [List.flatMap_cons, occupies_append]
        exact ⟨_, occupies, othersOccupy⟩
      · rintro ⟨derived, avoids, occupies⟩
        cases derived with
        | @cons _ child _ others childDerived othersDerived =>
            obtain ⟨childEach, othersEach⟩ := List.forall_mem_cons.mp each
            rw [List.flatMap_cons, occupies_append] at occupies
            obtain ⟨split, childOccupies, othersOccupy⟩ := occupies
            obtain rfl : first + child.width = split := childOccupies.1
            refine ⟨_, ?_, child,
              (childEach symbol first _).mpr
                ⟨childDerived, avoids.1, childOccupies⟩,
              others,
              (ih othersEach).mpr ⟨othersDerived, avoids.2, othersOccupy⟩,
              rfl⟩
            have before := childOccupies.first_le
            have after := othersOccupy.first_le
            omega

theorem mem_treesOver_of_forall {symbol : Symbol} {tree : Tree}
    (each : ∀ head children, tree = .node head children →
      ∀ child ∈ children, ∀ active symbol first last,
        child ∈ grammar.treesOver tokens active symbol first last ↔
          grammar.Derives symbol child ∧ child.Avoids active first ∧
            Occupies tokens child.tokens first last) :
    tree ∈ grammar.treesOver tokens active symbol first last ↔
      grammar.Derives symbol tree ∧ tree.Avoids active first ∧
        Occupies tokens tree.tokens first last := by
  cases role : grammar.role symbol with
  | lexical member =>
      rw [treesOver_of_lexical _ _ _ _ _ role, mem_leavesOver]
      constructor
      · rintro ⟨token, rfl, accepted, occupies⟩
        exact ⟨.leaf role accepted, by simp, by simpa using occupies⟩
      · rintro ⟨derived, -, occupies⟩
        cases derived with
        | @leaf _ _ token lexical accepted =>
            obtain rfl := Role.lexical.inj (role.symm.trans lexical)
            exact ⟨token, rfl, accepted, by simpa using occupies⟩
        | node nonterminal => simp [role] at nonterminal
        | empty empty => simp [role] at empty
  | empty =>
      rw [treesOver_of_empty _ _ _ _ _ role, List.mem_ite_nil_right,
        List.mem_singleton]
      constructor
      · rintro ⟨rfl, rfl⟩
        exact ⟨.empty role, by simp, by simp⟩
      · rintro ⟨derived, -, occupies⟩
        cases derived with
        | leaf lexical => simp [role] at lexical
        | node nonterminal => simp [role] at nonterminal
        | empty => exact ⟨by simpa using occupies, rfl⟩
  | nonterminal =>
      rw [treesOver_of_nonterminal _ _ _ _ _ role, List.mem_ite_nil_left]
      simp only [List.mem_flatMap, List.mem_map]
      constructor
      · rintro ⟨idle, alternative, declared, children, childrenMem, rfl⟩
        obtain ⟨derived, avoid, occupy⟩ :=
          (mem_childrenOver_of_forall fun child member =>
            each symbol children rfl child member _).mp childrenMem
        have width := occupy.1
        rw [← Tree.tokens_node symbol, Tree.length_tokens,
          Tree.width_node] at width
        rw [Tree.avoids_node, Tree.tokens_node, width]
        exact ⟨.node role declared derived, ⟨idle, avoid⟩, occupy⟩
      · rintro ⟨derived, avoids, occupies⟩
        cases derived with
        | leaf lexical => simp [role] at lexical
        | empty empty => simp [role] at empty
        | @node _ alternative children _ declared derived =>
            have width := occupies.1
            rw [Tree.length_tokens, Tree.width_node] at width
            rw [Tree.avoids_node, width] at avoids
            rw [Tree.tokens_node] at occupies
            exact ⟨avoids.1, alternative, declared, children,
              (mem_childrenOver_of_forall fun child member =>
                each symbol children rfl child member _).mpr
                ⟨derived, avoids.2, occupies⟩, rfl⟩

/-- The enumeration lists the derivations that read the span and avoid the
cells that are being expanded. -/
theorem mem_treesOver {symbol : Symbol} {tree : Tree} :
    tree ∈ grammar.treesOver tokens active symbol first last ↔
      grammar.Derives symbol tree ∧ tree.Avoids active first ∧
        Occupies tokens tree.tokens first last := by
  induction tree generalizing active symbol first last with
  | leaf category token => exact mem_treesOver_of_forall (by simp)
  | empty => exact mem_treesOver_of_forall (by simp)
  | node head children ih =>
      apply mem_treesOver_of_forall
      rintro _ _ ⟨rfl, rfl⟩ child member active symbol first last
      exact ih child member

theorem mem_childrenOver {symbols : List Symbol} {children : List Tree} :
    children ∈ grammar.childrenOver tokens active symbols first last ↔
      List.Forall₂ grammar.Derives symbols children ∧
        Tree.AvoidsAll active first children ∧
          Occupies tokens (children.flatMap Tree.tokens) first last :=
  mem_childrenOver_of_forall fun _ _ _ _ _ => mem_treesOver

def allTrees (grammar : Grammar) (tokens : List String) : List Tree :=
  grammar.startSymbols.flatMap fun start =>
    grammar.treesOver tokens [] start 0 tokens.length

theorem mem_allTrees {tree : Tree} :
    tree ∈ grammar.allTrees tokens ↔
      ∃ start ∈ grammar.startSymbols, grammar.Derives start tree ∧
        tree.Avoids [] 0 ∧ tree.tokens = tokens := by
  simp only [allTrees, List.mem_flatMap, mem_treesOver, occupies_whole]

/-- Some tree is enumerated exactly when some derivation of a start symbol
reads the tokens, with or without cycles. -/
theorem exists_mem_allTrees_iff :
    (∃ tree, tree ∈ grammar.allTrees tokens) ↔
      ∃ start ∈ grammar.startSymbols,
        ∃ tree, grammar.Derives start tree ∧ tree.tokens = tokens := by
  simp only [mem_allTrees]
  constructor
  · rintro ⟨tree, start, startMem, derived, -, reads⟩
    exact ⟨start, startMem, tree, derived, reads⟩
  · rintro ⟨start, startMem, tree, derived, reads⟩
    obtain ⟨shrunk, shrunkDerived, sameTokens, avoids⟩ :=
      derived.exists_avoids 0
    exact ⟨shrunk, start, startMem, shrunkDerived, avoids,
      sameTokens.trans reads⟩

/-! ## Spans that are too short -/

theorem treesOver_eq_nil_of_short {symbol : Symbol}
    (short : last <
      first + (grammar.lengthOf grammar.shortestLengths symbol).capped) :
    grammar.treesOver tokens active symbol first last = [] := by
  apply List.eq_nil_iff_forall_not_mem.mpr
  intro tree member
  obtain ⟨derived, -, occupies⟩ := mem_treesOver.mp member
  have room := derived.capped_lengthOf_le
  have width := occupies.1
  rw [Tree.length_tokens] at width
  omega

theorem childrenOver_eq_nil_of_short {symbols : List Symbol}
    (short : last <
      first + (grammar.totalLength grammar.shortestLengths symbols).capped) :
    grammar.childrenOver tokens active symbols first last = [] := by
  apply List.eq_nil_iff_forall_not_mem.mpr
  intro children member
  obtain ⟨derived, -, occupies⟩ := mem_childrenOver.mp member
  have room := Derives.capped_totalLength_le derived
  have width := occupies.1
  rw [← Tree.tokens_node Symbol.empty, Tree.length_tokens,
    Tree.width_node] at width
  omega

theorem treesOver_eq_nil_of_alternatives {symbol : Symbol}
    (nonterminal : grammar.role symbol = .nonterminal)
    (none : grammar.alternatives symbol = []) :
    grammar.treesOver tokens active symbol first last = [] := by
  apply List.eq_nil_iff_forall_not_mem.mpr
  intro tree member
  obtain ⟨derived, -, -⟩ := mem_treesOver.mp member
  obtain ⟨alternative, declared, -⟩ :=
    (Derives.iff_of_nonterminal nonterminal).mp derived
  rw [none] at declared
  cases declared

end Grammar

end SemanticGrammar
