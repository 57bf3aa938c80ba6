import SemanticGrammar.Proofs.Tokenizer.Concatenation

/-!
# Which literals are refused

No tokenizer is made for literals of which one is empty, holds a blank or is a
concatenation of others.  The error names the first such literal in the order
in which the literals are given: the first broken one or, when none is broken,
the first concatenation together with literals that make it up.  Later
repetitions of a literal change nothing, since they come after it.
-/

namespace SemanticGrammar

/-- Whether a member of a list is the first one with a property. -/
def IsFirst {α : Type} (property : α → Prop) (members : List α)
    (member : α) : Prop :=
  property member ∧
    ∃ before after, members = before ++ member :: after ∧
      ∀ earlier ∈ before, ¬property earlier

theorem isFirst_iff_find? {α : Type} {test : α → Bool} {members : List α}
    {member : α} :
    IsFirst (test · = true) members member ↔
      members.find? test = some member := by
  simp [IsFirst, List.find?_eq_some_iff_append]

theorem isFirst_firstOccurrences {α : Type} [DecidableEq α]
    {property : α → Prop} {members : List α} {member : α} :
    IsFirst property (firstOccurrences members) member ↔
      IsFirst property members member := by
  classical
  have tested : (fun member => decide (property member) = true) = property := by
    simp
  rw [← tested, isFirst_iff_find?, isFirst_iff_find?, find?_firstOccurrences]

namespace Ambiguity

/-- Whether an ambiguity shows the first literal of a set that is a
concatenation, with two or more other members that make it up. -/
structure IsFirstIn (literals : List String) (ambiguity : Ambiguity) :
    Prop where
  first : IsFirst (IsConcatenation literals) literals ambiguity.literal
  two_le_length : 2 ≤ ambiguity.parts.length
  others : ∀ part ∈ ambiguity.parts,
    part ∈ literals ∧ part ≠ ambiguity.literal
  join_eq : String.join ambiguity.parts = ambiguity.literal

theorem isFirstIn_of_find? {literals : List String} {ambiguity : Ambiguity}
    (nonempty : ∀ literal ∈ literals, literal ≠ "")
    (found : find? literals = some ambiguity) :
    ambiguity.IsFirstIn literals := by
  obtain ⟨before, literal, after, split, decomposed, passed⟩ :=
    List.findSome?_eq_some_iff.mp found
  have isMember : literal ∈ literals := by
    rw [split]
    simp
  have earlierMembers : before ⊆ literals := by
    rw [split]
    exact List.subset_append_left _ _
  obtain ⟨rfl, others, joined⟩ := decomposes_of_ofLiteral? decomposed
  have two : 2 ≤ ambiguity.parts.length :=
    two_le_length_of_join_eq (nonempty _ isMember)
      (fun part member => (others part member).2) joined
  refine ⟨⟨⟨_, two, others, joined⟩, before, after, split, ?_⟩, two, others,
    joined⟩
  intro earlier isEarlier concatenation
  rw [← isSome_ofLiteral?_iff (nonempty earlier (earlierMembers isEarlier)),
    passed earlier isEarlier] at concatenation
  cases concatenation

theorem IsFirstIn.of_firstOccurrences {literals : List String}
    {ambiguity : Ambiguity}
    (first : ambiguity.IsFirstIn (firstOccurrences literals)) :
    ambiguity.IsFirstIn literals where
  first := by
    have same : IsConcatenation (firstOccurrences literals) =
        IsConcatenation literals :=
      funext fun literal => propext
        (isConcatenation_congr (fun _ => mem_firstOccurrences) literal)
    rw [← isFirst_firstOccurrences, ← same]
    exact first.first
  two_le_length := first.two_le_length
  others part member :=
    (first.others part member).imp_left mem_firstOccurrences.mp
  join_eq := first.join_eq

end Ambiguity

namespace Tokenizer

/-- Whether literals are refused for a cause. -/
inductive Refuses (literals : List String) : ConfigurationError → Prop where
  /-- The first literal that is empty or holds a blank is refused. -/
  | malformed {literal : String}
      (first : IsFirst (Text.isUnbroken · = false) literals literal) :
      Refuses literals (.malformedToken literal)
  /-- Otherwise the first literal is refused that is a concatenation. -/
  | ambiguous {ambiguity : Ambiguity}
      (unbroken : ∀ literal ∈ literals, Text.isUnbroken literal = true)
      (first : ambiguity.IsFirstIn literals) :
      Refuses literals (.ambiguousToken ambiguity.literal ambiguity.parts)

theorem refuses_of_ofLiterals? {literals : List String}
    {cause : ConfigurationError}
    (refused : ofLiterals? literals = .error cause) :
    Refuses literals cause := by
  unfold ofLiterals? at refused
  simp only at refused
  split at refused
  · rename_i literal broken
    obtain rfl := Except.error.inj refused
    rw [← isFirst_iff_find?, isFirst_firstOccurrences] at broken
    simp only [Bool.not_eq_true'] at broken
    exact .malformed broken
  · rename_i noneBroken
    have unbroken : ∀ literal ∈ literals, Text.isUnbroken literal = true := by
      simpa [List.find?_eq_none, mem_firstOccurrences] using noneBroken
    split at refused
    · rename_i ambiguity found
      obtain rfl := Except.error.inj refused
      have nonempty : ∀ literal ∈ firstOccurrences literals,
          literal ≠ "" := fun literal member =>
        (Text.isUnbroken_iff.mp
          (unbroken literal (mem_firstOccurrences.mp member))).1
      exact .ambiguous unbroken
        (Ambiguity.isFirstIn_of_find? nonempty found).of_firstOccurrences
    · cases refused

theorem exists_ofLiterals?_eq_error_iff {literals : List String} :
    (∃ cause, ofLiterals? literals = .error cause) ↔
      ∃ literal ∈ literals, Text.isUnbroken literal = false ∨
        Ambiguity.IsConcatenation literals literal := by
  rw [exists_error_iff]
  simp only [ofLiterals?_eq_ok_iff, exists_and_left, exists_eq, and_true]
  constructor
  · intro notMade
    by_contra noneRefused
    push Not at noneRefused
    refine notMade ⟨fun literal member => ?_, fun literal member => ?_⟩
    · exact Bool.not_eq_false _ ▸ (noneRefused literal member).1
    · exact (noneRefused literal member).2
  · rintro ⟨literal, member, broken | concatenation⟩ ⟨unbroken, unambiguous⟩
    · rw [unbroken literal member] at broken
      cases broken
    · exact unambiguous literal member concatenation

/-- Among literals that are not empty, an ambiguity is found when one of them
is a concatenation of others, and it is the first one.  So literals are refused
when one of them is empty, holds a blank or is a concatenation of others, and
what an ambiguity error names is a literal and the parts that make it up. -/
theorem concatenations_are_refused (literals : List String) :
    ((∀ literal ∈ literals, literal ≠ "") →
      (Ambiguity.find? literals = none ↔
          ∀ literal ∈ literals,
            ¬Ambiguity.IsConcatenation literals literal) ∧
        ∀ ambiguity, Ambiguity.find? literals = some ambiguity →
          ambiguity.IsFirstIn literals) ∧
      ((∃ cause, ofLiterals? literals = .error cause) ↔
        (∃ literal ∈ literals, literal = "" ∨
          ∃ character ∈ literal.toList, Text.isBlank character = true) ∨
        ∃ literal ∈ literals, Ambiguity.IsConcatenation literals literal) ∧
      (∀ cause, ofLiterals? literals = .error cause →
        Refuses literals cause) ∧
      ∀ literal parts,
        ofLiterals? literals = .error (.ambiguousToken literal parts) →
          (ConfigurationError.ambiguousToken literal parts).tokens =
              literal :: parts ∧
            String.join parts = literal := by
  have broken_iff : ∀ literal : String, Text.isUnbroken literal = false ↔
      literal = "" ∨
        ∃ character ∈ literal.toList, Text.isBlank character = true := by
    intro literal
    rw [← Bool.not_eq_true, Text.isUnbroken_iff]
    simp [imp_iff_not_or]
  refine ⟨fun nonempty => ⟨Ambiguity.find?_eq_none_iff nonempty,
    fun ambiguity => Ambiguity.isFirstIn_of_find? nonempty⟩, ?_,
    fun cause => refuses_of_ofLiterals?, ?_⟩
  · rw [exists_ofLiterals?_eq_error_iff]
    simp only [broken_iff, and_or_left, exists_or]
  · intro literal parts refused
    refine ⟨rfl, ?_⟩
    cases refuses_of_ofLiterals? refused with
    | ambiguous unbroken first => exact first.join_eq

/-- The first ambiguity is neither the first literal nor the only one that is a
concatenation, and one split of its beginning leads nowhere. -/
theorem concatenations_are_refused_overlapping :
    ∃ literals : List String,
      literals = ["ba", "abab", "ab", "a", "aab", "abab"] ∧
        (∀ literal ∈ literals, literal ≠ "") ∧
        Ambiguity.find? literals = some ⟨"abab", ["ab", "ab"]⟩ ∧
        Ambiguity.IsFirstIn literals ⟨"abab", ["ab", "ab"]⟩ ∧
        ofLiterals? literals =
          .error (.ambiguousToken "abab" ["ab", "ab"]) ∧
        Refuses literals (.ambiguousToken "abab" ["ab", "ab"]) := by
  obtain ⟨finds, -, refused, -⟩ := concatenations_are_refused
    ["ba", "abab", "ab", "a", "aab", "abab"]
  have nonempty : ∀ literal ∈ ["ba", "abab", "ab", "a", "aab", "abab"],
      literal ≠ "" := by
    decide
  have found : Ambiguity.find? ["ba", "abab", "ab", "a", "aab", "abab"] =
      some ⟨"abab", ["ab", "ab"]⟩ := by
    decide +kernel
  have error : ofLiterals? ["ba", "abab", "ab", "a", "aab", "abab"] =
      .error (.ambiguousToken "abab" ["ab", "ab"]) := by
    decide +kernel
  exact ⟨_, rfl, nonempty, found, (finds nonempty).2 _ found, error,
    refused _ error⟩

end Tokenizer

end SemanticGrammar
