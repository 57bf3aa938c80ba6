import SemanticGrammar.Proofs.Tokenizer.Coverage

/-!
# Tokenizers of sets of literals

Literals are collected in whichever order symbols are met, and some are met
more than once.  A tokenizer does not depend on either: whether it is made is a
matter of which literals there are, and their arrangement is the only one that
is strictly ordered.
-/

namespace SemanticGrammar

namespace Tokenizer

variable {literals literals' : List String} {tokenizer tokenizer' : Tokenizer}

theorem pairwise_strictlyPrecedes_literals
    (made : ofLiterals? literals = .ok tokenizer) :
    tokenizer.literals.Pairwise Text.StrictlyPrecedes := by
  obtain ⟨-, -, rfl⟩ := ofLiterals?_eq_ok_iff.mp made
  exact pairwise_strictlyPrecedes_arrange (nodup_firstOccurrences literals)

/-- The literals of a tokenizer are the one list of its members that is
strictly ordered. -/
theorem eq_literals_of_pairwise (made : ofLiterals? literals = .ok tokenizer)
    {ordered : List String}
    (members : ∀ literal, literal ∈ ordered ↔ literal ∈ literals)
    (strictly : ordered.Pairwise Text.StrictlyPrecedes) :
    ordered = tokenizer.literals :=
  strictly.eq_of_mem_iff (pairwise_strictlyPrecedes_literals made)
    fun literal => (members literal).trans
      (mem_literals_of_ofLiterals? made).symm

variable (same : ∀ literal, literal ∈ literals ↔ literal ∈ literals')

include same

theorem ofLiterals?_eq_ok_congr :
    ofLiterals? literals = .ok tokenizer ↔
      ofLiterals? literals' = .ok tokenizer := by
  rw [ofLiterals?_eq_ok_iff, ofLiterals?_eq_ok_iff,
    arrange_firstOccurrences_congr same]
  simp only [same, Ambiguity.isConcatenation_congr same]

/-- Literals with the same members are refused alike.  When they are not, their
tokenizers try the same literals in the same strict order, which is the only
one that these members have, and read the same tokens. -/
theorem tokenizer_depends_on_members :
    ((∃ cause, ofLiterals? literals = .error cause) ↔
        ∃ cause, ofLiterals? literals' = .error cause) ∧
      ∀ tokenizer, ofLiterals? literals = .ok tokenizer →
        ∃ tokenizer', ofLiterals? literals' = .ok tokenizer' ∧
          tokenizer.literals = tokenizer'.literals ∧
          tokenizer.literals.Nodup ∧
          tokenizer.literals.Pairwise Text.StrictlyPrecedes ∧
          (∀ ordered : List String, ordered.Pairwise Text.StrictlyPrecedes →
            ((∀ literal, literal ∈ ordered ↔ literal ∈ literals) ↔
              ordered = tokenizer.literals)) ∧
          ∀ explain input,
            tokenizer.scan explain input = .ok (tokenizer.tokenize input) ∧
              tokenizer'.scan explain input =
                .ok (tokenizer.tokenize input) := by
  constructor
  · rw [exists_error_iff, exists_error_iff]
    exact not_congr (exists_congr fun _ => ofLiterals?_eq_ok_congr same)
  · intro tokenizer made
    have strictly := pairwise_strictlyPrecedes_literals made
    have scanned := scan_eq_ok fun literal => ne_empty_of_mem_literals made
    refine ⟨tokenizer, (ofLiterals?_eq_ok_congr same).mp made, rfl,
      strictly.nodup, strictly, fun ordered isOrdered => ?_,
      fun explain input => ⟨scanned explain input, scanned explain input⟩⟩
    constructor
    · exact fun members => eq_literals_of_pairwise made members isOrdered
    · rintro rfl
      exact fun _ => mem_literals_of_ofLiterals? made

omit same

/-- A pair of surrogates is as long as two characters and comes before them when
they lie above it. -/
theorem tokenizer_depends_on_members_astral :
    (∀ literal, literal ∈ ["～～", "=", "😀", "IN", "="] ↔
        literal ∈ ["IN", "😀", "～～", "="]) ∧
      ∃ tokenizer,
        ofLiterals? ["～～", "=", "😀", "IN", "="] = .ok tokenizer ∧
          ofLiterals? ["IN", "😀", "～～", "="] = .ok tokenizer ∧
          tokenizer.literals = ["IN", "😀", "～～", "="] ∧
          tokenizer.literals.Pairwise Text.StrictlyPrecedes := by
  let tokenizer : Tokenizer := ⟨["IN", "😀", "～～", "="]⟩
  have same : ∀ literal, literal ∈ ["～～", "=", "😀", "IN", "="] ↔
      literal ∈ ["IN", "😀", "～～", "="] := by
    intro literal
    simp only [List.mem_cons, List.not_mem_nil, or_false]
    tauto
  have made : ofLiterals? ["～～", "=", "😀", "IN", "="] = .ok tokenizer := by
    decide +kernel
  obtain ⟨-, alike⟩ := tokenizer_depends_on_members same
  obtain ⟨tokenizer', made', sameLiterals, -, strictly, -⟩ :=
    alike tokenizer made
  have sameTokenizer : tokenizer = tokenizer' :=
    congrArg Tokenizer.mk sameLiterals
  rw [← sameTokenizer] at made'
  exact ⟨same, tokenizer, made, made', rfl, strictly⟩

end Tokenizer

end SemanticGrammar
