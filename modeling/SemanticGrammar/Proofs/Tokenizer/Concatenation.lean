import Mathlib.Data.List.Induction
import SemanticGrammar.Tokenizer.Basic

/-!
# Ambiguous literals are concatenations

The search for an ambiguous literal decides whether a literal is a
concatenation of two or more other members of its set.  For each beginning of
the literal it keeps a split exactly when there is one: a beginning that is a
concatenation ends with a piece that is not empty, and what comes before this
piece is a shorter beginning.

So a tokenizer is made exactly when all literals are unbroken and none is a
concatenation of others.
-/

namespace SemanticGrammar

namespace Ambiguity

/-- Whether a text is a concatenation of some pieces. -/
def Composes (pieces : List (List Char)) (text : List Char)
    (parts : List (List Char)) : Prop :=
  parts ⊆ pieces ∧ parts.flatten = text

/-- Whether a split is a concatenation for a text, or there is none. -/
def Decides (pieces : List (List Char)) (text : List Char) : Split → Prop
  | some parts => Composes pieces text parts
  | none => ∀ parts, ¬Composes pieces text parts

variable {pieces : List (List Char)} {text : List Char}

theorem Composes.append_piece {front : List (List Char)} {piece : List Char}
    (composes : Composes pieces text front) (member : piece ∈ pieces) :
    Composes pieces (text ++ piece) (front ++ [piece]) := by
  obtain ⟨subset, rfl⟩ := composes
  exact ⟨List.append_subset.mpr ⟨subset, by simpa using member⟩, by simp⟩

theorem Composes.exists_last {parts : List (List Char)}
    (composes : Composes pieces text parts) (nonempty : text ≠ []) :
    ∃ front before last, last ∈ pieces ∧ last ≠ [] ∧
      Composes pieces before front ∧ text = before ++ last := by
  obtain ⟨subset, rfl⟩ := composes
  induction parts using List.reverseRecOn with
  | nil => exact (nonempty rfl).elim
  | append_singleton front last ih =>
      obtain ⟨frontSubset, lastSubset⟩ := List.append_subset.mp subset
      rw [List.flatten_append, List.flatten_singleton] at nonempty ⊢
      by_cases isEmpty : last = []
      · subst isEmpty
        rw [List.append_nil] at nonempty ⊢
        exact ih frontSubset nonempty
      · exact ⟨front, front.flatten, last, by simpa using lastSubset, isEmpty,
          ⟨frontSubset, rfl⟩, rfl⟩

theorem decides_lastSplit {earlier : List Split}
    (inside : earlier.length ≤ text.length) (started : earlier ≠ [])
    (decided : ∀ start split, earlier[start]? = some split →
      Decides pieces (text.take start) split) :
    Decides pieces (text.take earlier.length)
      (lastSplit pieces text earlier) := by
  cases found : lastSplit pieces text earlier with
  | some parts =>
      obtain ⟨⟨split, start⟩, member, isPiece⟩ :=
        List.exists_of_findSome?_eq_some found
      rw [List.mk_mem_zipIdx_iff_getElem?] at member
      obtain ⟨front, rfl, lastIsPiece⟩ := Option.bind_eq_some_iff.mp isPiece
      simp only [Option.ite_none_right_eq_some, Option.some.injEq]
        at lastIsPiece
      obtain ⟨lastMember, rfl⟩ := lastIsPiece
      have shorter : start < earlier.length :=
        (List.getElem?_eq_some_iff.mp member).1
      have whole : text.take start ++ (text.take earlier.length).drop start =
          text.take earlier.length := by
        have same : (text.take earlier.length).take start =
            text.take start := by
          rw [List.take_take, Nat.min_eq_left (Nat.le_of_lt shorter)]
        rw [← same, List.take_append_drop]
      have before : Composes pieces (text.take start) front :=
        decided start (some front) member
      have joined := before.append_piece lastMember
      rw [whole] at joined
      exact joined
  | none =>
      intro parts composes
      have length : (text.take earlier.length).length = earlier.length :=
        List.length_take_of_le inside
      have nonempty : text.take earlier.length ≠ [] := by
        rw [Ne, ← List.length_eq_zero_iff, length, List.length_eq_zero_iff]
        exact started
      obtain ⟨front, before, last, lastMember, lastNonempty, composesFront,
        whole⟩ := composes.exists_last nonempty
      rw [whole, List.length_append] at length
      have shorter : before.length < earlier.length := by
        have := List.length_pos_iff.mpr lastNonempty
        omega
      have beginning : text.take before.length = before := by
        have same := congrArg (List.take before.length) whole
        rwa [List.take_take, Nat.min_eq_left (Nat.le_of_lt shorter),
          List.take_left] at same
      have piece : (text.take earlier.length).drop before.length = last := by
        rw [whole, List.drop_left]
      have kept := List.getElem?_eq_getElem shorter
      have split := decided before.length _ kept
      rw [beginning] at split
      cases known : earlier[before.length] with
      | none =>
          rw [known] at split
          exact split front composesFront
      | some front' =>
          rw [known] at kept
          have tried := List.findSome?_eq_none_iff.mp found
            (some front', before.length)
            (List.mk_mem_zipIdx_iff_getElem?.mpr kept)
          simp [piece, lastMember] at tried

theorem decides_splits {length : Nat} (inside : length ≤ text.length)
    {shorter : Nat} {split : Split}
    (kept : (splits pieces text length)[shorter]? = some split) :
    Decides pieces (text.take shorter) split := by
  induction length generalizing shorter split with
  | zero =>
      obtain ⟨isZero, isStart⟩ := List.getElem?_eq_some_iff.mp kept
      obtain rfl : shorter = 0 := by simpa [splits] using isZero
      obtain rfl : some [] = split := isStart
      exact ⟨List.nil_subset _, rfl⟩
  | succ length ih =>
      have earlier : ∀ start split,
          (splits pieces text length)[start]? = some split →
            Decides pieces (text.take start) split :=
        fun start split => ih (Nat.le_of_succ_le inside)
      have count : (splits pieces text length).length = length + 1 :=
        splits_length pieces text length
      have last := decides_lastSplit (by omega)
        (List.ne_nil_of_length_pos (by omega)) earlier
      rw [splits, List.getElem?_append] at kept
      split at kept
      · exact earlier shorter split kept
      · rename_i beyond
        obtain ⟨single, isLast⟩ := List.getElem?_eq_some_iff.mp kept
        rw [List.length_singleton, count] at single
        obtain rfl : shorter = length + 1 := by omega
        simp only [count, Nat.sub_self, List.getElem_cons_zero] at isLast
        rw [← isLast, ← count]
        exact last

theorem decides_splitWhole (pieces : List (List Char)) (text : List Char) :
    Decides pieces text (splitWhole pieces text) := by
  have count : (splits pieces text text.length).length = text.length + 1 :=
    splits_length pieces text text.length
  have inside : text.length < (splits pieces text text.length).length := by
    omega
  have decided := decides_splits (Nat.le_refl text.length)
    (List.getElem?_eq_getElem inside)
  rw [List.take_length] at decided
  have last : splitWhole pieces text =
      (splits pieces text text.length)[text.length] := by
    rw [splitWhole, List.getLast?_eq_getElem?, count, Nat.add_sub_cancel,
      List.getElem?_eq_getElem inside, Option.join_some]
  rw [last]
  exact decided

/-- Whether a literal is a concatenation of two or more members of a set, each
of them different from the literal. -/
def IsConcatenation (literals : List String) (literal : String) : Prop :=
  ∃ parts : List String, 2 ≤ parts.length ∧
    (∀ part ∈ parts, part ∈ literals ∧ part ≠ literal) ∧
    String.join parts = literal

theorem two_le_length_of_join_eq {literal : String} {parts : List String}
    (nonempty : literal ≠ "") (others : ∀ part ∈ parts, part ≠ literal)
    (same : String.join parts = literal) : 2 ≤ parts.length := by
  match parts with
  | [] => exact (nonempty same.symm).elim
  | [part] =>
      have whole : part = literal := by
        rw [← same, ← String.toList_inj, String.toList_join,
          List.flatMap_singleton]
      exact (others part (by simp) whole).elim
  | _ :: _ :: _ => simp

theorem toList_mem_others_iff {literals : List String}
    {literal part : String} :
    part.toList ∈ (literals.filter (· != literal)).map String.toList ↔
      part ∈ literals ∧ part ≠ literal := by
  simp [String.toList_inj]

theorem decomposes_of_ofLiteral? {literals : List String} {literal : String}
    {ambiguity : Ambiguity}
    (found : ofLiteral? literals literal = some ambiguity) :
    ambiguity.literal = literal ∧
      (∀ part ∈ ambiguity.parts, part ∈ literals ∧ part ≠ literal) ∧
      String.join ambiguity.parts = literal := by
  have decided := decides_splitWhole
    ((literals.filter (· != literal)).map String.toList) literal.toList
  obtain ⟨pieces, split, rfl⟩ := Option.map_eq_some_iff.mp found
  rw [split] at decided
  obtain ⟨subset, whole⟩ := decided
  refine ⟨rfl, ?_, ?_⟩
  · intro part member
    obtain ⟨piece, isPiece, rfl⟩ := List.mem_map.mp member
    rw [← toList_mem_others_iff, String.toList_ofList]
    exact subset isPiece
  · rw [← String.toList_inj, String.toList_join, ← whole, List.flatMap_map]
    simp [List.flatMap_def]

/-- A literal that is not empty has a decomposition when it is a
concatenation. -/
theorem isSome_ofLiteral?_iff {literals : List String} {literal : String}
    (nonempty : literal ≠ "") :
    (ofLiteral? literals literal).isSome = true ↔
      IsConcatenation literals literal := by
  constructor
  · intro decomposed
    obtain ⟨ambiguity, found⟩ := Option.isSome_iff_exists.mp decomposed
    obtain ⟨-, others, same⟩ := decomposes_of_ofLiteral? found
    exact ⟨ambiguity.parts, two_le_length_of_join_eq nonempty
      (fun part member => (others part member).2) same, others, same⟩
  · rintro ⟨parts, -, others, rfl⟩
    have decided := decides_splitWhole
      ((literals.filter (· != String.join parts)).map String.toList)
      (String.join parts).toList
    rw [ofLiteral?, Option.isSome_map, Option.isSome_iff_ne_none]
    intro undecomposed
    rw [undecomposed] at decided
    refine decided (parts.map String.toList) ⟨?_, ?_⟩
    · intro piece member
      obtain ⟨part, isPart, rfl⟩ := List.mem_map.mp member
      exact toList_mem_others_iff.mpr (others part isPart)
    · rw [String.toList_join, List.flatMap_def]

theorem IsConcatenation.of_subset {literals larger : List String}
    {literal : String} (subset : literals ⊆ larger)
    (concatenation : IsConcatenation literals literal) :
    IsConcatenation larger literal := by
  obtain ⟨parts, two, members, same⟩ := concatenation
  exact ⟨parts, two, fun part isPart =>
    ⟨subset (members part isPart).1, (members part isPart).2⟩, same⟩

theorem isConcatenation_congr {literals literals' : List String}
    (same : ∀ literal, literal ∈ literals ↔ literal ∈ literals')
    (literal : String) :
    IsConcatenation literals literal ↔ IsConcatenation literals' literal :=
  ⟨.of_subset fun member => (same member).mp,
    .of_subset fun member => (same member).mpr⟩

/-- No literal of a set is ambiguous when none is a concatenation of other
members. -/
theorem find?_eq_none_iff {literals : List String}
    (nonempty : ∀ literal ∈ literals, literal ≠ "") :
    find? literals = none ↔
      ∀ literal ∈ literals, ¬IsConcatenation literals literal := by
  rw [find?, List.findSome?_eq_none_iff]
  refine forall₂_congr fun literal member => ?_
  rw [← isSome_ofLiteral?_iff (nonempty literal member)]
  simp

end Ambiguity

namespace Tokenizer

/-- A tokenizer is made for literals that are unbroken and of which none is a
concatenation of others. -/
theorem ofLiterals?_eq_ok_iff {literals : List String}
    {tokenizer : Tokenizer} :
    ofLiterals? literals = .ok tokenizer ↔
      (∀ literal ∈ literals, Text.isUnbroken literal = true) ∧
      (∀ literal ∈ literals, ¬Ambiguity.IsConcatenation literals literal) ∧
      tokenizer = ⟨arrange (firstOccurrences literals)⟩ := by
  have concatenation_iff : ∀ literal,
      Ambiguity.IsConcatenation (firstOccurrences literals) literal ↔
        Ambiguity.IsConcatenation literals literal :=
    Ambiguity.isConcatenation_congr fun _ => mem_firstOccurrences
  have unbroken_iff :
      ((firstOccurrences literals).find? fun literal =>
          !Text.isUnbroken literal) = none ↔
        ∀ literal ∈ literals, Text.isUnbroken literal = true := by
    simp [List.find?_eq_none, mem_firstOccurrences]
  unfold ofLiterals?
  simp only
  split
  · rename_i literal broken
    refine iff_of_false (by simp) fun ⟨unbroken, _⟩ => ?_
    rw [unbroken_iff.mpr unbroken] at broken
    cases broken
  · rename_i allUnbroken
    rw [unbroken_iff] at allUnbroken
    have nonempty : ∀ literal ∈ firstOccurrences literals, literal ≠ "" := by
      intro literal member
      exact (Text.isUnbroken_iff.mp
        (allUnbroken literal (mem_firstOccurrences.mp member))).1
    have find_iff := Ambiguity.find?_eq_none_iff nonempty
    simp only [mem_firstOccurrences, concatenation_iff] at find_iff
    split
    · rename_i ambiguity found
      refine iff_of_false (by simp) fun ⟨_, unambiguous, _⟩ => ?_
      rw [find_iff.mpr unambiguous] at found
      cases found
    · rename_i noAmbiguity
      rw [Except.ok.injEq]
      exact ⟨fun same => ⟨allUnbroken, find_iff.mp noAmbiguity, same.symm⟩,
        fun conditions => conditions.2.2.symm⟩

end Tokenizer

end SemanticGrammar
