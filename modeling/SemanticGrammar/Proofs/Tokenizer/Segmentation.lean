import SemanticGrammar.Proofs.Tokenizer.Concatenation

/-!
# Texts that literals make up in two ways

A segmentation of a text is a sequence of literals that make it up.  The
literals of a tokenizer may segment a text in two ways, but only by an overlap:
some literal of one segmentation ends inside a literal of the other.

Where two segmentations first differ, two literals start at the same place.
The segmentation with the shorter one either comes to the end of the longer
one, which is then a concatenation of other literals, or passes that end inside
a literal.  The first is refused when a tokenizer is made, and nothing else is:
a concatenation and its parts are two segmentations without an overlap.
-/

namespace SemanticGrammar

namespace Tokenizer

/-- Whether a sequence of literals makes up a text. -/
def IsSegmentation (literals : List String) (text : String)
    (pieces : List String) : Prop :=
  (∀ piece ∈ pieces, piece ∈ literals) ∧ String.join pieces = text

/-- Whether a text ends inside the next one, which comes after `head`: the next
text starts with the rest of it and goes on. -/
def Overlaps (head piece next : String) : Prop :=
  ∃ shared tail, head ≠ "" ∧ shared ≠ "" ∧ tail ≠ "" ∧
    piece = head ++ shared ∧ next = shared ++ tail

/-- A text in which the first character of another one does not occur again
ends before it. -/
theorem not_overlaps_of_head_notMem_tail {piece next : String}
    (apart : next.toList.head? ∉ piece.toList.tail.map some)
    (head : String) : ¬Overlaps head piece next := by
  rintro ⟨shared, tail, started, inside, -, rfl, rfl⟩
  obtain ⟨_, before, isHead⟩ :=
    List.exists_cons_of_ne_nil (mt String.toList_eq_nil_iff.mp started)
  obtain ⟨first, rest, isShared⟩ :=
    List.exists_cons_of_ne_nil (mt String.toList_eq_nil_iff.mp inside)
  apply apart
  simp [String.toList_append, isHead, isShared]

/-- Whether a piece of one sequence starts before a piece of another one and
ends inside it. -/
def EndsInside (first second : List String) : Prop :=
  ∃ front piece back front' next back' head,
    first = front ++ piece :: back ∧ second = front' ++ next :: back' ∧
      String.join front' = String.join front ++ head ∧
      Overlaps head piece next

theorem EndsInside.cons {first second : List String} (piece : String)
    (inside : EndsInside first second) :
    EndsInside (piece :: first) (piece :: second) := by
  obtain ⟨front, _, back, front', _, back', head, rfl, rfl, starts, overlaps⟩ :=
    inside
  refine ⟨piece :: front, _, back, piece :: front', _, back', head, rfl, rfl, ?_,
    overlaps⟩
  rw [String.join_cons, String.join_cons, starts, String.append_assoc]

theorem EndsInside.exists_overlaps {first second : List String}
    (inside : EndsInside first second) :
    ∃ piece ∈ first, ∃ next ∈ second, ∃ head, Overlaps head piece next := by
  obtain ⟨front, piece, back, front', next, back', head, rfl, rfl, -,
    overlaps⟩ := inside
  exact ⟨piece, by simp, next, by simp, head, overlaps⟩

theorem not_endsInside_singleton (pieces : List String) :
    ¬EndsInside [String.join pieces] pieces ∧
      ¬EndsInside pieces [String.join pieces] := by
  constructor
  · rintro ⟨front, piece, back, front', next, back', head, single, whole,
      starts, shared, tail, -, -, passes, rfl, rfl⟩
    obtain ⟨rfl, isPiece, rfl⟩ :
        front = [] ∧ head ++ shared = String.join pieces ∧ back = [] := by
      simpa [List.append_eq_singleton_iff] using single.symm
    have length := congrArg String.length isPiece
    rw [whole, String.join_append, String.join_cons, starts] at length
    simp only [String.join_nil, String.length_append, String.length_empty]
      at length
    exact passes (String.length_eq_zero_iff.mp (by omega))
  · rintro ⟨front, piece, back, front', next, back', head, -, single, starts,
      shared, tail, started, -, -, rfl, rfl⟩
    obtain ⟨rfl, -, rfl⟩ :
        front' = [] ∧ shared ++ tail = String.join pieces ∧ back' = [] := by
      simpa [List.append_eq_singleton_iff] using single.symm
    exact started (String.append_eq_empty_iff.mp starts.symm).2

/-- Two texts with the same beginning: one of them starts the other. -/
theorem append_eq_append {front back front' back' : String}
    (same : front ++ back = front' ++ back') :
    (∃ middle, front' = front ++ middle ∧ back = middle ++ back') ∨
      ∃ middle, front = front' ++ middle ∧ back' = middle ++ back := by
  have lists := congrArg String.toList same
  simp only [String.toList_append] at lists
  obtain ⟨middle, whole, rest⟩ | ⟨middle, whole, rest⟩ :=
    List.append_eq_append_iff.mp lists
  · refine .inl ⟨String.ofList middle, ?_, ?_⟩ <;>
      simpa [← String.toList_inj]
  · refine .inr ⟨String.ofList middle, ?_, ?_⟩ <;>
      simpa [← String.toList_inj]

/-- At any place of a text that pieces make up, some pieces end or one piece
goes on. -/
theorem ends_or_passes {pieces : List String} {text rest : String}
    (same : String.join pieces = text ++ rest) :
    (∃ front back, pieces = front ++ back ∧ String.join front = text) ∨
      ∃ front piece back shared tail, pieces = front ++ piece :: back ∧
        shared ≠ "" ∧ tail ≠ "" ∧ piece = shared ++ tail ∧
        text = String.join front ++ shared := by
  induction pieces generalizing text with
  | nil =>
      have isEmpty := String.append_eq_empty_iff.mp same.symm
      exact .inl ⟨[], [], rfl, isEmpty.1.symm⟩
  | cons piece pieces ih =>
      rw [String.join_cons] at same
      obtain ⟨middle, rfl, later⟩ | ⟨middle, rfl, -⟩ := append_eq_append same
      · obtain ⟨front, back, rfl, ends⟩ |
          ⟨front, next, back, shared, tail, rfl, inside, passes, rfl, rfl⟩ :=
          ih later
        · exact .inl ⟨piece :: front, back, rfl, by
            rw [String.join_cons, ends]⟩
        · exact .inr ⟨piece :: front, _, back, shared, tail, rfl, inside,
            passes, rfl, by rw [String.join_cons, String.append_assoc]⟩
      · by_cases atStart : text = ""
        · exact .inl ⟨[], _, rfl, atStart.symm⟩
        · by_cases atEnd : middle = ""
          · exact .inl ⟨[text ++ middle], pieces, rfl, by simp [atEnd]⟩
          · exact .inr ⟨[], _, pieces, text, middle, rfl, atStart, atEnd, rfl,
              by simp⟩

section Unambiguous

variable {literals : List String}
  (nonempty : ∀ literal ∈ literals, literal ≠ "")

include nonempty

theorem eq_nil_of_join_eq_empty {pieces : List String}
    (members : ∀ piece ∈ pieces, piece ∈ literals)
    (isEmpty : String.join pieces = "") : pieces = [] := by
  cases pieces with
  | nil => rfl
  | cons piece rest =>
      rw [String.join_cons, String.append_eq_empty_iff] at isEmpty
      exact (nonempty piece (members piece (by simp)) isEmpty.1).elim

variable (unambiguous : ∀ literal ∈ literals,
  ¬Ambiguity.IsConcatenation literals literal)

include unambiguous

theorem eq_singleton_of_join_mem {pieces : List String}
    (members : ∀ piece ∈ pieces, piece ∈ literals)
    (member : String.join pieces ∈ literals) :
    pieces = [String.join pieces] := by
  by_cases isPiece : String.join pieces ∈ pieces
  · obtain ⟨front, back, whole⟩ := List.append_of_mem isPiece
    have length := congrArg (String.length ∘ String.join) whole
    simp only [Function.comp_apply, String.join_append, String.join_cons,
      String.length_append] at length
    have frontEmpty := eq_nil_of_join_eq_empty nonempty
      (fun piece isMember => members piece (by rw [whole]; simp [isMember]))
      (String.length_eq_zero_iff.mp (by omega : (String.join front).length = 0))
    have backEmpty := eq_nil_of_join_eq_empty nonempty
      (fun piece isMember => members piece (by rw [whole]; simp [isMember]))
      (String.length_eq_zero_iff.mp (by omega : (String.join back).length = 0))
    rwa [frontEmpty, backEmpty] at whole
  · refine (unambiguous _ member ⟨pieces, ?_, ?_, rfl⟩).elim
    · exact Ambiguity.two_le_length_of_join_eq (nonempty _ member)
        (fun piece isMember same => isPiece (same ▸ isMember)) rfl
    · exact fun piece isMember =>
        ⟨members piece isMember, fun same => isPiece (same ▸ isMember)⟩

/-- The sequence with the shorter first piece does not come to the end of the
longer one, so one of its pieces passes that end. -/
theorem endsInside_or_starts {piece other : String}
    {pieces others : List String}
    (members : ∀ member ∈ piece :: pieces, member ∈ literals)
    (isLiteral : other ∈ literals) (differ : piece ≠ other)
    (same : String.join (piece :: pieces) = String.join (other :: others)) :
    EndsInside (other :: others) (piece :: pieces) ∨
      ∃ tail, tail ≠ "" ∧ piece = other ++ tail := by
  rw [String.join_cons (s := other)] at same
  obtain ⟨front, back, whole, rfl⟩ |
    ⟨front, next, back, shared, tail, whole, inside, passes, rfl, rfl⟩ :=
    ends_or_passes same
  · have single : front = [String.join front] := by
      refine eq_singleton_of_join_mem nonempty unambiguous ?_ isLiteral
      exact fun member isMember => members member (by rw [whole]; simp [isMember])
    rw [single] at whole
    exact (differ (List.cons.inj whole).1).elim
  · cases front with
    | nil =>
        exact .inr ⟨tail, passes, by simpa using (List.cons.inj whole).1⟩
    | cons start front =>
        obtain ⟨rfl, -⟩ := List.cons.inj whole
        have started : String.join (piece :: front) ≠ "" := by
          intro isEmpty
          cases eq_nil_of_join_eq_empty nonempty (fun member isMember =>
            members member (by rw [whole]; exact List.mem_append_left _ isMember))
            isEmpty
        exact .inl ⟨[], _, others, piece :: front, _, back, _, rfl, whole,
          by simp, shared, tail, started, inside, passes, rfl, rfl⟩

/-- Two segmentations of one text overlap where they first differ. -/
theorem endsInside_of_ne {text : String} {first second : List String}
    (isFirst : IsSegmentation literals text first)
    (isSecond : IsSegmentation literals text second)
    (differ : first ≠ second) :
    EndsInside first second ∨ EndsInside second first := by
  obtain ⟨firstMembers, rfl⟩ := isFirst
  obtain ⟨secondMembers, same⟩ := isSecond
  induction first generalizing second with
  | nil =>
      have isEmpty := eq_nil_of_join_eq_empty nonempty secondMembers same
      exact (differ isEmpty.symm).elim
  | cons piece first ih =>
      cases second with
      | nil =>
          have isEmpty :=
            eq_nil_of_join_eq_empty nonempty firstMembers same.symm
          exact (differ isEmpty).elim
      | cons other second =>
          by_cases samePiece : piece = other
          · subst samePiece
            rw [String.join_cons, String.join_cons, String.append_right_inj]
              at same
            have later := ih (fun isSame => differ (by rw [isSame]))
              (List.forall_mem_cons.mp firstMembers).2
              (List.forall_mem_cons.mp secondMembers).2 same
            exact later.imp (.cons piece) (.cons piece)
          · obtain inside | ⟨tail, -, longer⟩ :=
              endsInside_or_starts nonempty unambiguous secondMembers
                (firstMembers piece (by simp)) (Ne.symm samePiece) same
            · exact .inl inside
            obtain inside | ⟨tail', goesOn, shorter⟩ :=
              endsInside_or_starts nonempty unambiguous firstMembers
                (secondMembers other (by simp)) samePiece same.symm
            · exact .inr inside
            rw [longer, String.append_assoc] at shorter
            have isEmpty := String.append_eq_left_iff.mp shorter.symm
            exact (goesOn (String.append_eq_empty_iff.mp isEmpty).2).elim

end Unambiguous

/-- Literals are those of a tokenizer exactly when they are unbroken and two
segmentations of one text always overlap.  So where no literal's end is the
beginning of a literal, each text has one segmentation at most, and a literal
has none but itself anyway. -/
theorem accepted_iff_segmentations_overlap (literals : List String) :
    ((∃ tokenizer, ofLiterals? literals = .ok tokenizer) ↔
        (∀ literal ∈ literals, Text.isUnbroken literal = true) ∧
          ∀ text first second, IsSegmentation literals text first →
            IsSegmentation literals text second → first ≠ second →
              EndsInside first second ∨ EndsInside second first) ∧
      ((∃ tokenizer, ofLiterals? literals = .ok tokenizer) →
        (∀ piece ∈ literals, ∀ next ∈ literals, ∀ head,
          ¬Overlaps head piece next) →
        ∀ text first second, IsSegmentation literals text first →
          IsSegmentation literals text second → first = second) ∧
      ((∃ tokenizer, ofLiterals? literals = .ok tokenizer) →
        ∀ literal ∈ literals, ∀ pieces,
          IsSegmentation literals literal pieces → pieces = [literal]) := by
  have nonempty : (∀ literal ∈ literals, Text.isUnbroken literal = true) →
      ∀ literal ∈ literals, literal ≠ "" :=
    fun unbroken literal member =>
      (Text.isUnbroken_iff.mp (unbroken literal member)).1
  simp only [ofLiterals?_eq_ok_iff, exists_and_left, exists_eq, and_true]
  refine ⟨?_, ?_, ?_⟩
  · refine and_congr_right fun unbroken => ⟨?_, ?_⟩
    · intro unambiguous text first second isFirst isSecond differ
      exact endsInside_of_ne (nonempty unbroken) unambiguous isFirst isSecond
        differ
    · rintro overlap _ member ⟨parts, two, others, rfl⟩
      obtain ⟨noOverlap, noOverlap'⟩ := not_endsInside_singleton parts
      refine (overlap (String.join parts) [String.join parts] parts
        ⟨by simpa using member, by simp⟩
        ⟨fun part isPart => (others part isPart).1, rfl⟩ ?_).elim
        noOverlap noOverlap'
      rintro single
      rw [← single] at two
      simp at two
  · rintro ⟨unbroken, unambiguous⟩ apart text first second isFirst isSecond
    by_contra differ
    obtain inside | inside :=
      endsInside_of_ne (nonempty unbroken) unambiguous isFirst isSecond differ
    · obtain ⟨piece, member, next, member', head, overlaps⟩ :=
        inside.exists_overlaps
      exact apart piece (isFirst.1 piece member) next
        (isSecond.1 next member') head overlaps
    · obtain ⟨piece, member, next, member', head, overlaps⟩ :=
        inside.exists_overlaps
      exact apart piece (isSecond.1 piece member) next
        (isFirst.1 next member') head overlaps
  · rintro ⟨unbroken, unambiguous⟩ literal member pieces ⟨members, rfl⟩
    exact eq_singleton_of_join_mem (nonempty unbroken) unambiguous members member

/-- A tokenizer's literals segment a text in two ways: they overlap, and no
literal is a concatenation of others.  The tokenizer takes the longest one. -/
theorem overlapping_literals_have_two_segmentations :
    ∃ tokenizer, ofLiterals? ["<=", ">", "<", "=>"] = .ok tokenizer ∧
      IsSegmentation ["<=", ">", "<", "=>"] "<=>" ["<=", ">"] ∧
      IsSegmentation ["<=", ">", "<", "=>"] "<=>" ["<", "=>"] ∧
      ["<=", ">"] ≠ ["<", "=>"] ∧
      tokenizer.tokenize "<=>" = ["<=", ">"] := by
  refine ⟨⟨["<=", "=>", "<", ">"]⟩, ?_, ⟨?_, ?_⟩, ⟨?_, ?_⟩, ?_, ?_⟩ <;>
    decide +kernel

/-- Some literals start others, but the first character of each occurs inside
none, so a text that they make up is segmented in one way. -/
theorem segmentations_overlap_operators :
    ∃ literals : List String, literals = ["IN", "INc", "=", "=c", "("] ∧
      (∃ tokenizer, ofLiterals? literals = .ok tokenizer) ∧
      (∀ piece ∈ literals, ∀ next ∈ literals, ∀ head,
        ¬Overlaps head piece next) ∧
      ∀ pieces, IsSegmentation literals "INc=(=c" pieces →
        pieces = ["INc", "=", "(", "=c"] := by
  have accepted : ∃ tokenizer,
      ofLiterals? ["IN", "INc", "=", "=c", "("] = .ok tokenizer :=
    ⟨⟨["INc", "=c", "IN", "(", "="]⟩, by decide +kernel⟩
  have apart : ∀ piece ∈ ["IN", "INc", "=", "=c", "("],
      ∀ next ∈ ["IN", "INc", "=", "=c", "("], ∀ head,
        ¬Overlaps head piece next := by
    intro piece member next member'
    apply not_overlaps_of_head_notMem_tail
    revert piece next
    decide +kernel
  have segmentation : IsSegmentation ["IN", "INc", "=", "=c", "("] "INc=(=c"
      ["INc", "=", "(", "=c"] := ⟨by decide, by decide⟩
  exact ⟨_, rfl, accepted, apart, fun pieces isSegmentation =>
    (accepted_iff_segmentations_overlap _).2.1 accepted apart _ _ _
      isSegmentation segmentation⟩

end Tokenizer

end SemanticGrammar
