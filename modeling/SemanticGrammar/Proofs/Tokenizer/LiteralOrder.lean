import Mathlib.Data.List.Sort
import SemanticGrammar.Tokenizer.Basic

/-!
# The order in which literals are tried

Literals are ordered by the lengths of their code units, the longer ones
first, and then by the units themselves.  Units determine a text, since a unit
that begins a pair never stands alone.  So the order is total, no two literals
share a place in it, and the arranged literals depend only on which literals
there are.
-/

namespace SemanticGrammar

namespace Text

/-! ## Units determine a text -/

/-- The first character and the units after it can be told from the units. -/
theorem characterUnits_append_inj {first second : Char}
    {units units' : List Nat}
    (same : characterUnits first ++ units = characterUnits second ++ units') :
    first = second ∧ units = units' := by
  have firstValid := first.valid
  have secondValid := second.valid
  simp only [UInt32.isValidChar, Nat.isValidChar, Char.toNat_val]
    at firstValid secondValid
  unfold characterUnits at same
  split at same <;> split at same
  · simp only [List.cons_append, List.nil_append, List.cons.injEq] at same
    exact ⟨Char.toNat_inj.mp same.1, same.2⟩
  · simp only [List.cons_append, List.nil_append, List.cons.injEq] at same
    omega
  · simp only [List.cons_append, List.nil_append, List.cons.injEq] at same
    omega
  · simp only [List.cons_append, List.nil_append, List.cons.injEq] at same
    obtain ⟨high, low, rest⟩ := same
    exact ⟨Char.toNat_inj.mp (by omega), rest⟩

theorem characterUnits_ne_nil (character : Char) :
    characterUnits character ≠ [] := by
  unfold characterUnits
  split <;> simp

theorem flatMap_characterUnits_injective {first second : List Char}
    (same : first.flatMap characterUnits = second.flatMap characterUnits) :
    first = second := by
  induction first generalizing second with
  | nil =>
      cases second with
      | nil => rfl
      | cons character second =>
          simp [characterUnits_ne_nil] at same
  | cons character first ih =>
      cases second with
      | nil => simp [characterUnits_ne_nil] at same
      | cons character' second =>
          rw [List.flatMap_cons, List.flatMap_cons] at same
          obtain ⟨rfl, rest⟩ := characterUnits_append_inj same
          rw [ih rest]

theorem units_injective {first second : String}
    (same : units first = units second) : first = second :=
  String.toList_inj.mp (flatMap_characterUnits_injective same)

/-! ## The order is total -/

theorem unitsNotAfter_cons_iff {unit unit' : Nat} {first second : List Nat} :
    unitsNotAfter (unit :: first) (unit' :: second) = true ↔
      unit < unit' ∨ unit = unit' ∧ unitsNotAfter first second = true := by
  simp [unitsNotAfter]

theorem unitsNotAfter_iff_not_lt {first second : List Nat} :
    unitsNotAfter first second = true ↔ ¬second < first := by
  induction first generalizing second with
  | nil => simp [unitsNotAfter]
  | cons unit first ih =>
      cases second with
      | nil => simp [unitsNotAfter]
      | cons unit' second =>
          rw [unitsNotAfter_cons_iff, ih, List.not_lt, List.not_lt,
            List.cons_le_cons_iff]

theorem precedes_iff {first second : String} :
    precedes first second = true ↔
      unitLength second < unitLength first ∨
        unitLength first = unitLength second ∧
          ¬units second < units first := by
  simp [precedes, unitsNotAfter_iff_not_lt]

theorem precedes_antisymm {first second : String}
    (forth : precedes first second = true)
    (back : precedes second first = true) : first = second := by
  rw [precedes_iff] at forth back
  rcases forth with longer | ⟨sameLength, notAfter⟩
  · rcases back with longer' | ⟨sameLength, _⟩ <;> omega
  · rcases back with longer | ⟨_, notAfter'⟩
    · omega
    · exact units_injective (List.le_antisymm (List.not_lt.mp notAfter)
        (List.not_lt.mp notAfter'))

theorem precedes_trans {first second third : String}
    (left : precedes first second = true)
    (right : precedes second third = true) : precedes first third = true := by
  rw [precedes_iff] at left right ⊢
  rcases left with longer | ⟨sameLength, notAfter⟩
  · rcases right with longer' | ⟨sameLength', _⟩ <;> omega
  · rcases right with longer | ⟨sameLength', notAfter'⟩
    · omega
    · exact Or.inr ⟨sameLength.trans sameLength',
        List.not_lt.mpr (List.le_trans (List.not_lt.mp notAfter)
          (List.not_lt.mp notAfter'))⟩

theorem precedes_total (first second : String) :
    precedes first second = true ∨ precedes second first = true := by
  rw [precedes_iff, precedes_iff]
  rcases Nat.lt_trichotomy (unitLength first) (unitLength second) with
    shorter | same | longer
  · exact Or.inr (Or.inl shorter)
  · rcases List.le_total (units first) (units second) with
      notAfter | notAfter
    · exact Or.inl (Or.inr ⟨same, List.not_lt.mpr notAfter⟩)
    · exact Or.inr (Or.inr ⟨same.symm, List.not_lt.mpr notAfter⟩)
  · exact Or.inl (Or.inl longer)

/-! ## The strict order -/

/-- Whether one literal comes before another one: it has more code units or, if
it has as many, the lower unit where the two first differ. -/
def StrictlyPrecedes (first second : String) : Prop :=
  unitLength second < unitLength first ∨
    unitLength first = unitLength second ∧ units first < units second

theorem strictlyPrecedes_iff {first second : String} :
    StrictlyPrecedes first second ↔
      precedes first second = true ∧ first ≠ second := by
  constructor
  · rintro (longer | ⟨sameLength, less⟩)
    · refine ⟨precedes_iff.mpr (Or.inl longer), ?_⟩
      rintro rfl
      exact Nat.lt_irrefl _ longer
    · refine ⟨precedes_iff.mpr (Or.inr ⟨sameLength, List.lt_asymm less⟩), ?_⟩
      rintro rfl
      exact List.lt_irrefl _ less
  · rintro ⟨before, different⟩
    refine (precedes_iff.mp before).imp_right fun ⟨sameLength, notAfter⟩ =>
      ⟨sameLength, ?_⟩
    exact (List.le_iff_lt_or_eq.mp (List.not_lt.mp notAfter)).resolve_right
      fun same => different (units_injective same)

instance : Std.Irrefl StrictlyPrecedes where
  irrefl _ before := (strictlyPrecedes_iff.mp before).2 rfl

instance : Std.Antisymm StrictlyPrecedes where
  antisymm _ _ forth back :=
    precedes_antisymm (strictlyPrecedes_iff.mp forth).1
      (strictlyPrecedes_iff.mp back).1

end Text

namespace Tokenizer

/-! ## Arranging literals -/

theorem perm_place (literal : String) (literals : List String) :
    (place literal literals).Perm (literal :: literals) := by
  induction literals with
  | nil => exact List.Perm.refl _
  | cons first rest ih =>
      unfold place
      split
      · exact List.Perm.refl _
      · exact (ih.cons first).trans (List.Perm.swap literal first rest)

theorem pairwise_place {literal : String} {literals : List String}
    (ordered : literals.Pairwise (Text.precedes · · = true)) :
    (place literal literals).Pairwise (Text.precedes · · = true) := by
  induction literals with
  | nil => exact List.pairwise_singleton _ _
  | cons first rest ih =>
      obtain ⟨firstPrecedes, restOrdered⟩ := List.pairwise_cons.mp ordered
      unfold place
      split
      · rename_i literalPrecedes
        refine List.pairwise_cons.mpr ⟨fun other member => ?_, ordered⟩
        rcases List.mem_cons.mp member with rfl | later
        · exact literalPrecedes
        · exact Text.precedes_trans literalPrecedes (firstPrecedes other later)
      · rename_i notBefore
        refine List.pairwise_cons.mpr ⟨fun other member => ?_, ih restOrdered⟩
        rcases List.mem_cons.mp ((perm_place literal rest).mem_iff.mp member)
          with rfl | later
        · exact (Text.precedes_total other first).resolve_left notBefore
        · exact firstPrecedes other later

theorem perm_arrange (literals : List String) :
    (arrange literals).Perm literals := by
  induction literals with
  | nil => exact List.Perm.refl _
  | cons literal literals ih =>
      exact (perm_place literal _).trans (ih.cons literal)

theorem pairwise_arrange (literals : List String) :
    (arrange literals).Pairwise (Text.precedes · · = true) := by
  induction literals with
  | nil => exact List.Pairwise.nil
  | cons literal literals ih => exact pairwise_place ih

theorem pairwise_strictlyPrecedes_arrange {literals : List String}
    (distinct : literals.Nodup) :
    (arrange literals).Pairwise Text.StrictlyPrecedes := by
  have arrangedDistinct : (arrange literals).Nodup :=
    (perm_arrange literals).nodup_iff.mpr distinct
  exact ((pairwise_arrange literals).and arrangedDistinct).imp
    Text.strictlyPrecedes_iff.mpr

/-- Literals are arranged alike in whichever order and however often they are
given. -/
theorem arrange_firstOccurrences_congr {literals literals' : List String}
    (same : ∀ literal, literal ∈ literals ↔ literal ∈ literals') :
    arrange (firstOccurrences literals) =
      arrange (firstOccurrences literals') := by
  refine (pairwise_strictlyPrecedes_arrange
    (nodup_firstOccurrences literals)).eq_of_mem_iff
    (pairwise_strictlyPrecedes_arrange
      (nodup_firstOccurrences literals')) fun literal => ?_
  rw [(perm_arrange _).mem_iff, (perm_arrange _).mem_iff,
    mem_firstOccurrences, mem_firstOccurrences, same]

end Tokenizer

end SemanticGrammar
