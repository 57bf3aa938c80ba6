import SemanticGrammar.Double
import SemanticGrammar.Grammar

/-!
# Shortest lengths

The shortest length of a symbol is the least number of tokens that it can
cover: one for a lexical category, none for the empty symbol, and for a
nonterminal the least total over its alternatives.  Lengths are counted in
doubles.  A nonterminal has an infinite length when it has no finite derivation,
or none that doubles can count.

Lengths are found in passes over the productions.  A production lowers the
length of its head when the total of its constituents is less than what is
known so far, and the productions after it use the lowered length at once.
There is another pass as long as the last one has lowered some length.

The passes end because each length that is lowered makes the sum of all lengths
smaller, in which an infinite one counts as much as the least number that is too
large for a double.
-/

namespace SemanticGrammar

/-- The finite lengths found so far, by nonterminal, the latest first. -/
abbrev Lengths := List (Symbol × Nat)

theorem Lengths.lookup_lowered (lengths : Lengths) (head symbol : Symbol)
    (length : Nat) :
    List.lookup symbol ((head, length) :: lengths) =
      if symbol = head then some length else lengths.lookup symbol := by
  by_cases same : symbol = head
  · simp [same]
  · have differs : (symbol == head) = false := by simp [same]
    simp [List.lookup_cons, same, differs]

/-- The lengths in the course of a pass, and whether it has lowered one. -/
structure LengthPass where
  lengths : Lengths
  lowered : Bool

namespace Grammar

def lengthOf (grammar : Grammar) (lengths : Lengths) (symbol : Symbol) :
    Double :=
  match grammar.role symbol with
  | .nonterminal => lengths.lookup symbol
  | .lexical _ => some 1
  | .empty => some 0

def totalLength (grammar : Grammar) (lengths : Lengths)
    (symbols : List Symbol) : Double :=
  Double.sum (symbols.map (grammar.lengthOf lengths))

/-- The length that a production gives to its head, if it is less than what is
known of the head.  Heads are nonterminals, so this is what the table says. -/
def lowered? (grammar : Grammar) (lengths : Lengths)
    (production : Production) : Option Nat :=
  (grammar.totalLength lengths production.constituents).filter fun total =>
    (lengths.lookup production.head).all fun known => decide (total < known)

/-- Look at one production in the course of a pass. -/
def visit (grammar : Grammar) (pass : LengthPass) (production : Production) :
    LengthPass :=
  match grammar.lowered? pass.lengths production with
  | some total => ⟨(production.head, total) :: pass.lengths, true⟩
  | none => pass

def pass (grammar : Grammar) (lengths : Lengths) : LengthPass :=
  grammar.productions.foldl grammar.visit ⟨lengths, false⟩

end Grammar

/-! ## The passes end -/

/-- The sum of a weight over several members. -/
def weightOf {α : Type} (weight : α → Nat) : List α → Nat
  | [] => 0
  | member :: members => weight member + weightOf weight members

section WeightOf

variable {α : Type} {lighter heavier : α → Nat}
  (each : ∀ member, lighter member ≤ heavier member)

include each

theorem weightOf_le_weightOf (members : List α) :
    weightOf lighter members ≤ weightOf heavier members := by
  induction members with
  | nil => exact Nat.le_refl _
  | cons member members ih => exact Nat.add_le_add (each member) ih

theorem weightOf_lt_weightOf {members : List α} {member : α}
    (less : lighter member < heavier member) (isMember : member ∈ members) :
    weightOf lighter members < weightOf heavier members := by
  induction members with
  | nil => cases isMember
  | cons other members ih =>
      rcases List.mem_cons.mp isMember with rfl | later
      · exact Nat.add_lt_add_of_lt_of_le less (weightOf_le_weightOf each members)
      · exact Nat.add_lt_add_of_le_of_lt (each other) (ih later)

end WeightOf

namespace Grammar

/-- How far the lengths of the heads can still be lowered. -/
def remaining (grammar : Grammar) (lengths : Lengths) : Nat :=
  weightOf (fun head => (lengths.lookup head).getD Double.overflow)
    grammar.heads

variable {grammar : Grammar} {lengths : Lengths} {production : Production}
  {total : Nat}

theorem mem_heads_of_mem (declared : production ∈ grammar.productions) :
    production.head ∈ grammar.heads :=
  mem_firstOccurrences.mpr (List.mem_map_of_mem declared)

/-- A length that is lowered is less than the one that is known, if one is
known, and can be counted otherwise. -/
theorem lt_of_lowered?
    (lowers : grammar.lowered? lengths production = some total) :
    total < (lengths.lookup production.head).getD Double.overflow := by
  obtain ⟨added, less⟩ := Option.filter_eq_some_iff.mp lowers
  cases known : lengths.lookup production.head with
  | none => exact Double.lt_overflow_of_sum added
  | some length => simpa [known] using less

theorem remaining_lowered_lt (declared : production ∈ grammar.productions)
    (lowers : grammar.lowered? lengths production = some total) :
    grammar.remaining ((production.head, total) :: lengths) <
      grammar.remaining lengths := by
  have own := lt_of_lowered? lowers
  refine weightOf_lt_weightOf (fun symbol => ?_) ?_ (mem_heads_of_mem declared)
  · rw [Lengths.lookup_lowered]
    by_cases same : symbol = production.head
    · rw [if_pos same, Option.getD_some, same]
      exact Nat.le_of_lt own
    · simp only [if_neg same, Nat.le_refl]
  · rw [Lengths.lookup_lowered, if_pos rfl, Option.getD_some]
    exact own

/-- Productions that lower some length leave less to be lowered. -/
theorem remaining_foldl_visit_lt {productions : List Production}
    (declared : productions ⊆ grammar.productions) (pass : LengthPass) :
    productions.foldl grammar.visit pass = pass ∨
      grammar.remaining (productions.foldl grammar.visit pass).lengths <
        grammar.remaining pass.lengths := by
  induction productions generalizing pass with
  | nil => exact Or.inl rfl
  | cons production productions ih =>
      rw [List.cons_subset] at declared
      rw [List.foldl_cons]
      have rest := ih declared.2 (grammar.visit pass production)
      cases lowers : grammar.lowered? pass.lengths production with
      | none =>
          have same : grammar.visit pass production = pass := by
            simp only [visit, lowers]
          rwa [same] at rest ⊢
      | some total =>
          have first : grammar.remaining
              (grammar.visit pass production).lengths <
                grammar.remaining pass.lengths := by
            simp only [visit, lowers]
            exact remaining_lowered_lt declared.1 lowers
          rcases rest with same | less
          · exact Or.inr (same.symm ▸ first)
          · exact Or.inr (Nat.lt_trans less first)

theorem remaining_pass_lt (lowered : (grammar.pass lengths).lowered = true) :
    grammar.remaining (grammar.pass lengths).lengths <
      grammar.remaining lengths := by
  rcases remaining_foldl_visit_lt (List.Subset.refl grammar.productions)
    ⟨lengths, false⟩ with same | less
  · rw [pass, same] at lowered
    cases lowered
  · exact less

/-- The lengths after one pass after another, up to the first one that lowers
nothing. -/
def settle (grammar : Grammar) (lengths : Lengths) : Lengths :=
  if (grammar.pass lengths).lowered then
    grammar.settle (grammar.pass lengths).lengths
  else
    (grammar.pass lengths).lengths
  termination_by grammar.remaining lengths
  decreasing_by
    rename_i lowered
    exact remaining_pass_lt lowered

def shortestLengths (grammar : Grammar) : Lengths :=
  grammar.settle []

end Grammar

end SemanticGrammar
