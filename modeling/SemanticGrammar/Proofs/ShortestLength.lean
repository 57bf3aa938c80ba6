import Mathlib.Order.Bounds.Basic
import SemanticGrammar.Chart.Length
import SemanticGrammar.Proofs.DerivationTree
import SemanticGrammar.Proofs.DoubleSum

/-!
# Shortest lengths are least

The leaves of a derivation are counted in doubles as lengths are: from left to
right, node by node.  The shortest length of a symbol is the least count of a
derivation in which lexical categories accept every token, and a symbol all of
whose derivations have an infinite count, or that has none, has no shortest
length.

The lengths that the passes end with are settled: no production gives less to
its head than is known.  So no derivation has a smaller count than the length of
its symbol, by induction on the tree.  On the other side each length that comes
up in the passes is attained by a derivation, since a production puts
derivations of its constituents together.

Both sides speak of derivations only.  So the order of the productions, and how
often each of them stands there, does not show in the shortest lengths.  Counts
up to 2 ^ 53 are exact, and then so are the lengths.
-/

namespace SemanticGrammar

theorem forall₂_and_mem {α β : Type} {related : α → β → Prop} {first : List α}
    {second : List β} (pairs : List.Forall₂ related first second) :
    List.Forall₂ (fun left right => related left right ∧ right ∈ second)
      first second := by
  induction pairs with
  | nil => exact .nil
  | cons pair rest ih =>
      refine .cons ⟨pair, List.mem_cons_self⟩ (ih.imp ?_)
      exact fun _ _ both => ⟨both.1, List.mem_cons_of_mem _ both.2⟩

/-! ## Leaves counted in doubles -/

namespace Tree

mutual

/-- The number of leaves of a tree, counted in doubles node by node. -/
def counted : Tree → Double
  | leaf _ _ => some 1
  | node _ children => Double.sum (countedAll children)
  | empty => some 0

def countedAll : List Tree → List Double
  | [] => []
  | tree :: trees => tree.counted :: countedAll trees

end

theorem countedAll_eq_map (trees : List Tree) :
    countedAll trees = trees.map counted := by
  induction trees with
  | nil => rfl
  | cons tree trees ih => simp [countedAll, ih]

@[simp]
theorem counted_leaf (category : Symbol) (token : String) :
    (leaf category token).counted = some 1 := by
  simp [counted]

@[simp]
theorem counted_node (head : Symbol) (children : List Tree) :
    (node head children).counted = Double.sum (children.map counted) := by
  simp [counted, countedAll_eq_map]

@[simp]
theorem counted_empty : empty.counted = some 0 := by
  simp [counted]

/-- Counts of trees are added up exactly if they are and the total is small. -/
theorem foldl_add_counted {trees : List Tree}
    (each : ∀ tree ∈ trees, tree.width ≤ Double.exactLimit →
      tree.counted = some tree.width) {start : Nat}
    (small : start + totalWidth trees ≤ Double.exactLimit) :
    (trees.map counted).foldl Double.add (some start) =
      some (start + totalWidth trees) := by
  induction trees generalizing start with
  | nil => rfl
  | cons tree trees ih =>
      rw [totalWidth_cons] at small
      rw [List.forall_mem_cons] at each
      rw [List.map_cons, List.foldl_cons, each.1 (by omega), Double.add,
        Double.round_of_le (by omega), ih each.2 (by omega), totalWidth_cons]
      congr 1
      omega

theorem counted_of_le {tree : Tree} (small : tree.width ≤ Double.exactLimit) :
    tree.counted = some tree.width := by
  induction tree with
  | leaf category token => simp
  | node head children ih =>
      rw [width_node] at small ⊢
      have added := foldl_add_counted ih ((Nat.zero_add _).trans_le small)
      rwa [Nat.zero_add, ← Double.sum, ← counted_node head] at added
  | empty => simp

theorem capped_foldl_counted {trees : List Tree}
    (each : ∀ tree ∈ trees,
      tree.counted.capped = min tree.width Double.exactLimit)
    (start : Double) :
    Double.capped ((trees.map counted).foldl Double.add start) =
      min (start.capped + totalWidth trees) Double.exactLimit := by
  induction trees generalizing start with
  | nil => exact (Nat.min_eq_left start.capped_le).symm
  | cons tree trees ih =>
      rw [List.forall_mem_cons] at each
      rw [List.map_cons, List.foldl_cons, ih each.2, Double.capped_add, each.1,
        totalWidth_cons]
      omega

theorem capped_counted (tree : Tree) :
    tree.counted.capped = min tree.width Double.exactLimit := by
  induction tree with
  | leaf category token => rw [counted_leaf, width_leaf, Double.capped_some]
  | node head children ih =>
      rw [counted_node, width_node, Double.sum, capped_foldl_counted ih,
        Double.capped_some, Nat.zero_min, Nat.zero_add]
  | empty => rw [counted_empty, width_empty, Double.capped_some]

end Tree

namespace Grammar

theorem mem_heads {grammar : Grammar} {head : Symbol} :
    head ∈ grammar.heads ↔
      ∃ alternative, alternative ∈ grammar.alternatives head := by
  simp only [heads, mem_firstOccurrences, List.mem_map, mem_alternatives]
  constructor
  · rintro ⟨production, declared, rfl⟩
    exact ⟨production.constituents, declared⟩
  · rintro ⟨alternative, declared⟩
    exact ⟨_, declared, rfl⟩

/-! ## Derivations without membership tests -/

/-- The grammar whose lexical categories accept every token. -/
def permissive (grammar : Grammar) : Grammar :=
  { grammar with
    role := fun symbol =>
      match grammar.role symbol with
      | .lexical _ => .lexical fun _ => .ok true
      | other => other }

section Permissive

variable {grammar : Grammar} {symbol : Symbol}

theorem role_permissive_of_lexical {member : String → Except Fault Bool}
    (lexical : grammar.role symbol = .lexical member) :
    grammar.permissive.role symbol = .lexical fun _ => .ok true := by
  simp [permissive, lexical]

theorem exists_role_of_permissive {member : String → Except Fault Bool}
    (lexical : grammar.permissive.role symbol = .lexical member) :
    ∃ member', grammar.role symbol = .lexical member' := by
  cases role : grammar.role symbol <;> simp_all [permissive]

theorem role_permissive_eq_nonterminal_iff :
    grammar.permissive.role symbol = .nonterminal ↔
      grammar.role symbol = .nonterminal := by
  cases role : grammar.role symbol <;> simp [permissive, role]

theorem role_permissive_eq_empty_iff :
    grammar.permissive.role symbol = .empty ↔ grammar.role symbol = .empty := by
  cases role : grammar.role symbol <;> simp [permissive, role]

end Permissive

/-- Whether one grammar allows whatever another one does. -/
structure Includes (larger smaller : Grammar) : Prop where
  accepts : ∀ category member token,
    smaller.role category = .lexical member → member token = .ok true →
      ∃ member', larger.role category = .lexical member' ∧
        member' token = .ok true
  nonterminal : ∀ head, smaller.role head = .nonterminal →
    larger.role head = .nonterminal
  empty : ∀ symbol, smaller.role symbol = .empty → larger.role symbol = .empty
  productions : smaller.productions ⊆ larger.productions

theorem includes_permissive (grammar : Grammar) :
    grammar.permissive.Includes grammar where
  accepts _ _ _ lexical _ := ⟨_, role_permissive_of_lexical lexical, rfl⟩
  nonterminal _ := role_permissive_eq_nonterminal_iff.mpr
  empty _ := role_permissive_eq_empty_iff.mpr
  productions := List.Subset.refl _

theorem includes_of_subset {larger smaller : Grammar}
    (roles : larger.role = smaller.role)
    (productions : smaller.productions ⊆ larger.productions) :
    larger.Includes smaller where
  accepts _ member _ lexical accepted := ⟨member, roles ▸ lexical, accepted⟩
  nonterminal _ nonterminal := roles ▸ nonterminal
  empty _ empty := roles ▸ empty
  productions := productions

theorem Derives.of_includes {larger smaller : Grammar}
    (includes : larger.Includes smaller) {symbol : Symbol} {tree : Tree}
    (derived : smaller.Derives symbol tree) : larger.Derives symbol tree := by
  induction tree generalizing symbol with
  | leaf category token =>
      cases derived with
      | leaf lexical accepted =>
          obtain ⟨_, lexical', accepted'⟩ :=
            includes.accepts _ _ _ lexical accepted
          exact .leaf lexical' accepted'
  | node head children ih =>
      obtain ⟨rfl, nonterminal, alternative, declared, childrenDerived⟩ :=
        derived.exists_alternative
      refine .node (includes.nonterminal _ nonterminal)
        (mem_alternatives.mpr (includes.productions
          (mem_alternatives.mp declared))) ?_
      exact (forall₂_and_mem childrenDerived).imp
        fun _ child both => ih child both.2 both.1
  | empty =>
      cases derived with
      | empty empty => exact .empty (includes.empty _ empty)

variable {grammar : Grammar} {lengths : Lengths}

/-! ## The end of the passes -/

/-- Whether no production lowers a length. -/
def IsSettled (grammar : Grammar) (lengths : Lengths) : Prop :=
  ∀ production ∈ grammar.productions,
    grammar.lowered? lengths production = none

theorem foldl_visit_of_not_lowered {productions : List Production}
    {pass : LengthPass}
    (unlowered : (productions.foldl grammar.visit pass).lowered = false) :
    productions.foldl grammar.visit pass = pass ∧
      ∀ production ∈ productions,
        grammar.lowered? pass.lengths production = none := by
  induction productions generalizing pass with
  | nil => exact ⟨rfl, by simp⟩
  | cons production productions ih =>
      rw [List.foldl_cons] at unlowered ⊢
      obtain ⟨same, others⟩ := ih unlowered
      rw [same] at unlowered ⊢
      cases lowers : grammar.lowered? pass.lengths production with
      | some total =>
          simp only [visit, lowers] at unlowered
          cases unlowered
      | none =>
          have unchanged : grammar.visit pass production = pass := by
            simp only [visit, lowers]
          rw [unchanged] at others ⊢
          exact ⟨rfl, List.forall_mem_cons.mpr ⟨lowers, others⟩⟩

/-- A pass that lowers no length leaves the lengths as they are, and they are
settled. -/
theorem isSettled_of_not_lowered
    (unlowered : (grammar.pass lengths).lowered = false) :
    (grammar.pass lengths).lengths = lengths ∧ grammar.IsSettled lengths := by
  obtain ⟨same, settled⟩ := foldl_visit_of_not_lowered unlowered
  exact ⟨congrArg LengthPass.lengths same, settled⟩

def afterPasses (grammar : Grammar) (lengths : Lengths) : Nat → Lengths
  | 0 => lengths
  | passes + 1 =>
      afterPasses grammar (grammar.pass lengths).lengths passes

/-- The passes go on as long as they lower a length, and they end with a pass
that lowers none. -/
theorem exists_settle_eq_afterPasses (grammar : Grammar) (lengths : Lengths) :
    ∃ passes, grammar.settle lengths = grammar.afterPasses lengths passes ∧
      (∀ earlier < passes,
        (grammar.pass (grammar.afterPasses lengths earlier)).lowered = true) ∧
      (grammar.pass (grammar.settle lengths)).lowered = false := by
  fun_induction grammar.settle lengths with
  | case1 lengths lowered ih =>
      obtain ⟨passes, same, before, unlowered⟩ := ih
      refine ⟨passes + 1, same, ?_, unlowered⟩
      rintro (_ | earlier) fewer
      · exact lowered
      · exact before earlier (Nat.lt_of_succ_lt_succ fewer)
  | case2 lengths unlowered =>
      rw [Bool.not_eq_true] at unlowered
      obtain ⟨same, -⟩ := isSettled_of_not_lowered unlowered
      rw [same]
      exact ⟨0, rfl, fun _ fewer => absurd fewer (Nat.not_lt_zero _), unlowered⟩

theorem isSettled_shortestLengths (grammar : Grammar) :
    grammar.IsSettled grammar.shortestLengths := by
  obtain ⟨-, -, -, unlowered⟩ := grammar.exists_settle_eq_afterPasses []
  exact (isSettled_of_not_lowered unlowered).2

section Induction

variable {motive : Lengths → Prop}
  (step : ∀ lengths, ∀ production ∈ grammar.productions, ∀ total,
    grammar.lowered? lengths production = some total → motive lengths →
      motive ((production.head, total) :: lengths))

include step

theorem foldl_visit_induction {productions : List Production}
    (declared : productions ⊆ grammar.productions) {pass : LengthPass}
    (start : motive pass.lengths) :
    motive (productions.foldl grammar.visit pass).lengths := by
  induction productions generalizing pass with
  | nil => exact start
  | cons production productions ih =>
      rw [List.cons_subset] at declared
      refine ih declared.2 ?_
      cases lowers : grammar.lowered? pass.lengths production with
      | some total =>
          simp only [visit, lowers]
          exact step _ production declared.1 total lowers start
      | none =>
          simp only [visit, lowers]
          exact start

/-- What is kept whenever a production lowers a length is kept by all
passes. -/
theorem settle_induction (start : motive lengths) :
    motive (grammar.settle lengths) := by
  have overPass : ∀ lengths, motive lengths →
      motive (grammar.pass lengths).lengths := fun _ holds =>
    foldl_visit_induction step (List.Subset.refl _) holds
  fun_induction grammar.settle lengths with
  | case1 lengths lowered ih => exact ih (overPass lengths start)
  | case2 lengths unlowered => exact overPass lengths start

end Induction

/-! ## No derivation has a smaller count -/

theorem IsSettled.atMost_lookup (settled : grammar.IsSettled lengths)
    {head : Symbol} {alternative : List Symbol}
    (declared : alternative ∈ grammar.alternatives head) :
    Double.AtMost (lengths.lookup head)
      (grammar.totalLength lengths alternative) := by
  intro total known
  have notLowered := settled _ (mem_alternatives.mp declared)
  simp only [lowered?, known] at notLowered
  cases old : lengths.lookup head with
  | none => simp [old] at notLowered
  | some length =>
      refine ⟨length, ?_, rfl⟩
      simpa [old] using notLowered

theorem atMost_totalLength {symbols : List Symbol} {trees : List Tree}
    (each : List.Forall₂
      (fun symbol tree =>
        Double.AtMost (grammar.lengthOf lengths symbol) tree.counted)
      symbols trees) :
    Double.AtMost (grammar.totalLength lengths symbols)
      (Double.sum (trees.map Tree.counted)) := by
  apply Double.AtMost.sum
  rwa [List.forall₂_map_left_iff, List.forall₂_map_right_iff]

theorem IsSettled.atMost_counted (settled : grammar.IsSettled lengths)
    {symbol : Symbol} {tree : Tree}
    (derived : grammar.permissive.Derives symbol tree) :
    Double.AtMost (grammar.lengthOf lengths symbol) tree.counted := by
  induction tree generalizing symbol with
  | leaf category token =>
      cases derived with
      | leaf lexical =>
          obtain ⟨_, role⟩ := exists_role_of_permissive lexical
          simpa only [lengthOf, role, Tree.counted_leaf] using .refl _
  | node head children ih =>
      obtain ⟨rfl, nonterminal, alternative, declared, childrenDerived⟩ :=
        derived.exists_alternative
      have each := (forall₂_and_mem childrenDerived).imp
        fun _ child both => ih child both.2 both.1
      have own := (settled.atMost_lookup declared).trans
        (atMost_totalLength each)
      simpa only [lengthOf, role_permissive_eq_nonterminal_iff.mp nonterminal,
        Tree.counted_node] using own
  | empty =>
      cases derived with
      | empty empty =>
          simpa only [lengthOf, role_permissive_eq_empty_iff.mp empty,
            Tree.counted_empty] using .refl _

/-! ## Some derivation has this count -/

/-- Whether each length is the count of some derivation. -/
def Attained (grammar : Grammar) (lengths : Lengths) : Prop :=
  ∀ symbol length, grammar.lengthOf lengths symbol = some length →
    ∃ tree, grammar.permissive.Derives symbol tree ∧ tree.counted = some length

theorem attained_of_nonterminals
    (attained : ∀ head, grammar.role head = .nonterminal →
      ∀ length, lengths.lookup head = some length →
        ∃ tree, grammar.permissive.Derives head tree ∧
          tree.counted = some length) :
    grammar.Attained lengths := by
  intro symbol length known
  cases role : grammar.role symbol with
  | nonterminal =>
      exact attained symbol role length (by simpa [lengthOf, role] using known)
  | lexical member =>
      simp only [lengthOf, role] at known
      exact ⟨.leaf symbol "", .leaf (role_permissive_of_lexical role) rfl,
        by simpa using known⟩
  | empty =>
      simp only [lengthOf, role] at known
      exact ⟨_, .empty (role_permissive_eq_empty_iff.mpr role),
        by simpa using known⟩

theorem Attained.exists_trees (attained : grammar.Attained lengths)
    {symbols : List Symbol}
    (finite : ∀ count ∈ symbols.map (grammar.lengthOf lengths),
      ∃ length, count = some length) :
    ∃ trees, List.Forall₂ grammar.permissive.Derives symbols trees ∧
      trees.map Tree.counted = symbols.map (grammar.lengthOf lengths) := by
  induction symbols with
  | nil => exact ⟨[], .nil, rfl⟩
  | cons symbol rest ih =>
      rw [List.map_cons, List.forall_mem_cons] at finite
      obtain ⟨⟨length, known⟩, others⟩ := finite
      obtain ⟨tree, derived, count⟩ := attained symbol length known
      obtain ⟨trees, othersDerived, counts⟩ := ih others
      refine ⟨tree :: trees, .cons derived othersDerived, ?_⟩
      rw [List.map_cons, List.map_cons, count, counts, known]

theorem Attained.lowered (attained : grammar.Attained lengths)
    {production : Production} {total : Nat}
    (declared : production ∈ grammar.productions)
    (lowers : grammar.lowered? lengths production = some total) :
    grammar.Attained ((production.head, total) :: lengths) := by
  apply attained_of_nonterminals
  intro head nonterminal length known
  rw [Lengths.lookup_lowered] at known
  split at known
  · rename_i same
    cases known
    have added := (Option.filter_eq_some_iff.mp lowers).1
    obtain ⟨trees, derived, counts⟩ :=
      attained.exists_trees (Double.exists_eq_some_of_sum added)
    refine ⟨.node head trees, .node
      (role_permissive_eq_nonterminal_iff.mpr nonterminal)
      (mem_alternatives.mpr (same ▸ declared)) derived, ?_⟩
    rw [Tree.counted_node, counts]
    exact added
  · exact attained head length (by simpa [lengthOf, nonterminal] using known)

theorem attained_shortestLengths (grammar : Grammar) :
    grammar.Attained grammar.shortestLengths :=
  settle_induction
    (fun _ _ declared _ lowers attained => attained.lowered declared lowers)
    (attained_of_nonterminals (by simp))

/-! ## Shortest lengths -/

section ShortestLengths

variable {symbol : Symbol} {length : Nat}

theorem atMost_counted_of_derives {tree : Tree}
    (derived : grammar.permissive.Derives symbol tree) :
    Double.AtMost (grammar.lengthOf grammar.shortestLengths symbol)
      tree.counted :=
  grammar.isSettled_shortestLengths.atMost_counted derived

/-- The shortest length of a symbol is the least count of a derivation. -/
theorem lengthOf_shortestLengths_eq_some_iff :
    grammar.lengthOf grammar.shortestLengths symbol = some length ↔
      IsLeast {count | ∃ tree, grammar.permissive.Derives symbol tree ∧
        tree.counted = some count} length := by
  constructor
  · intro known
    refine ⟨grammar.attained_shortestLengths symbol length known, ?_⟩
    rintro other ⟨tree, derived, count⟩
    obtain ⟨length', lengthLe, known'⟩ :=
      atMost_counted_of_derives derived other count
    exact Option.some.inj (known.symm.trans known') ▸ lengthLe
  · rintro ⟨⟨tree, derived, count⟩, least⟩
    obtain ⟨length', lengthLe, known⟩ :=
      atMost_counted_of_derives derived length count
    have attained := grammar.attained_shortestLengths symbol length' known
    rw [known, Nat.le_antisymm lengthLe (least attained)]

/-- The order of the productions and their repetitions do not show in the
shortest lengths. -/
theorem lengthOf_shortestLengths_congr {first second : Grammar}
    (roles : first.role = second.role)
    (same : ∀ production,
      production ∈ first.productions ↔ production ∈ second.productions)
    (symbol : Symbol) :
    first.lengthOf first.shortestLengths symbol =
      second.lengthOf second.shortestLengths symbol := by
  have permissiveRoles : first.permissive.role = second.permissive.role := by
    simp only [permissive, roles]
  have sameDerivations : ∀ tree, first.permissive.Derives symbol tree ↔
      second.permissive.Derives symbol tree := fun tree =>
    ⟨Derives.of_includes (includes_of_subset permissiveRoles.symm
        fun production => (same production).mp),
      Derives.of_includes (includes_of_subset permissiveRoles
        fun production => (same production).mpr)⟩
  apply Option.ext
  intro length
  simp only [lengthOf_shortestLengths_eq_some_iff, sameDerivations]

theorem lengthOf_shortestLengths_eq_none_iff :
    grammar.lengthOf grammar.shortestLengths symbol = none ↔
      ∀ tree, grammar.permissive.Derives symbol tree → tree.counted = none := by
  rw [Option.eq_none_iff_forall_ne_some]
  constructor
  · intro unknown tree derived
    rw [Option.eq_none_iff_forall_ne_some]
    intro count counted
    obtain ⟨length, -, known⟩ :=
      atMost_counted_of_derives derived count counted
    exact unknown length known
  · intro uncounted length known
    obtain ⟨tree, derived, counted⟩ :=
      grammar.attained_shortestLengths symbol length known
    rw [uncounted tree derived] at counted
    cases counted

theorem lengthOf_shortestLengths_of_counted {count : Double}
    (derivable : ∃ tree, grammar.permissive.Derives symbol tree)
    (counted : ∀ tree, grammar.permissive.Derives symbol tree →
      tree.counted = count) :
    grammar.lengthOf grammar.shortestLengths symbol = count := by
  obtain ⟨tree, derived⟩ := derivable
  cases count with
  | none => exact lengthOf_shortestLengths_eq_none_iff.mpr counted
  | some count =>
      rw [lengthOf_shortestLengths_eq_some_iff]
      refine ⟨⟨tree, derived, counted tree derived⟩, ?_⟩
      rintro other ⟨otherTree, otherDerived, same⟩
      rw [counted otherTree otherDerived] at same
      exact Nat.le_of_eq (Option.some.inj same)

section Least

variable (least : IsLeast {count | ∃ tree,
  grammar.permissive.Derives symbol tree ∧ tree.width = count} length)

include least

/-- As far as capped counts tell, the shortest length is the least number of
tokens that a derivation reads. -/
theorem capped_shortestLength :
    (grammar.lengthOf grammar.shortestLengths symbol).capped =
      min length Double.exactLimit := by
  obtain ⟨⟨tree, derived, rfl⟩, isLeast⟩ := least
  apply Nat.le_antisymm
  · exact Tree.capped_counted tree ▸
      (atMost_counted_of_derives derived).capped_le
  · cases known : grammar.lengthOf grammar.shortestLengths symbol with
    | none => exact Double.capped_none ▸ Nat.min_le_right _ _
    | some length =>
        obtain ⟨other, otherDerived, count⟩ :=
          grammar.attained_shortestLengths symbol length known
        have le : tree.width ≤ other.width :=
          isLeast ⟨other, otherDerived, rfl⟩
        rw [← count, Tree.capped_counted]
        omega

theorem shortestLength_of_le (small : length ≤ Double.exactLimit) :
    grammar.lengthOf grammar.shortestLengths symbol = some length := by
  obtain ⟨⟨tree, derived, rfl⟩, isLeast⟩ := least
  rw [lengthOf_shortestLengths_eq_some_iff]
  refine ⟨⟨tree, derived, Tree.counted_of_le small⟩, ?_⟩
  rintro count ⟨other, otherDerived, same⟩
  have le : tree.width ≤ other.width := isLeast ⟨other, otherDerived, rfl⟩
  have capped := other.capped_counted
  rw [same, Double.capped_some] at capped
  omega

end Least

end ShortestLengths

/-! ## Room for derivations -/

theorem Derives.capped_lengthOf_le {symbol : Symbol} {tree : Tree}
    (derived : grammar.Derives symbol tree) :
    (grammar.lengthOf grammar.shortestLengths symbol).capped ≤ tree.width := by
  have le := (atMost_counted_of_derives
    (derived.of_includes grammar.includes_permissive)).capped_le
  rw [Tree.capped_counted] at le
  omega

theorem Derives.capped_totalLength_le {symbols : List Symbol}
    {trees : List Tree}
    (derived : List.Forall₂ grammar.Derives symbols trees) :
    (grammar.totalLength grammar.shortestLengths symbols).capped ≤
      Tree.totalWidth trees := by
  have each := derived.imp fun _ _ single => atMost_counted_of_derives
    (single.of_includes grammar.includes_permissive)
  have le := (atMost_totalLength each).capped_le
  rw [← Tree.counted_node Symbol.empty, Tree.capped_counted,
    Tree.width_node] at le
  omega

end Grammar

end SemanticGrammar
