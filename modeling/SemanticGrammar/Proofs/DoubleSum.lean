import Mathlib.Data.List.Forall2
import SemanticGrammar.Double

/-!
# Sums of doubles

Rounding keeps the order of numbers: between two powers of two it goes by
multiples of one unit, and the powers themselves are not changed.  So a sum of
counts is at most another one when its summands are.

A sum is exact as long as it is at most 2 ^ 53, and above that it does not fall
below 2 ^ 53 again.  Sums that are capped there are the same as sums of numbers.
-/

namespace SemanticGrammar

namespace Double

/-! ## Rounding -/

theorem spacing_pos (number : Nat) : 0 < spacing number :=
  two_pow_pos _

theorem div_mul_spacing_le_nearest (number : Nat) :
    number / spacing number * spacing number ≤ nearest number := by
  simp only [nearest]
  split
  · exact Nat.le_refl _
  · exact Nat.mul_le_mul_right _ (Nat.le_succ _)

theorem nearest_le_succ_mul_spacing (number : Nat) :
    nearest number ≤ (number / spacing number + 1) * spacing number := by
  simp only [nearest]
  split
  · exact Nat.mul_le_mul_right _ (Nat.le_succ _)
  · exact Nat.le_refl _

theorem spacing_dvd_two_pow {number exponent : Nat}
    (large : number.log2 ≤ exponent) :
    spacing number ∣ Nat.pow 2 exponent :=
  Nat.pow_dvd_pow 2 (by omega)

theorem nearest_le_two_pow {number exponent : Nat}
    (below : number.log2 < exponent) : nearest number ≤ Nat.pow 2 exponent := by
  obtain ⟨significand, same⟩ := spacing_dvd_two_pow (Nat.le_of_lt below)
  have less : number < spacing number * significand := by
    rw [← same]
    exact Nat.lt_of_lt_of_le Nat.lt_log2_self
      (Nat.pow_le_pow_right (Nat.succ_pos 1) below)
  have small : number / spacing number < significand :=
    Nat.div_lt_of_lt_mul less
  calc
    nearest number ≤ (number / spacing number + 1) * spacing number :=
      nearest_le_succ_mul_spacing number
    _ ≤ significand * spacing number := Nat.mul_le_mul_right _ small
    _ = Nat.pow 2 exponent := by rw [same, Nat.mul_comm]

theorem two_pow_log2_le_nearest {number : Nat} (positive : number ≠ 0) :
    Nat.pow 2 number.log2 ≤ nearest number := by
  obtain ⟨significand, same⟩ :=
    spacing_dvd_two_pow (Nat.le_refl number.log2)
  have large : significand ≤ number / spacing number := by
    rw [Nat.le_div_iff_mul_le (spacing_pos number), Nat.mul_comm, ← same]
    exact Nat.log2_self_le positive
  calc
    Nat.pow 2 number.log2 = significand * spacing number := by
      rw [same, Nat.mul_comm]
    _ ≤ number / spacing number * spacing number :=
      Nat.mul_le_mul_right _ large
    _ ≤ nearest number := div_mul_spacing_le_nearest number

/-- Rounding keeps the order of numbers. -/
theorem nearest_le_nearest {first second : Nat} (le : first ≤ second) :
    nearest first ≤ nearest second := by
  rcases Nat.eq_zero_or_pos first with rfl | positive
  · exact Nat.zero_le _
  have exponents : first.log2 ≤ second.log2 := by
    rw [Nat.le_log2 (by omega)]
    exact Nat.le_trans (Nat.log2_self_le (Nat.ne_of_gt positive)) le
  rcases Nat.lt_or_eq_of_le exponents with less | same
  · exact Nat.le_trans (nearest_le_two_pow less)
      (two_pow_log2_le_nearest (by omega))
  · have sameUnit : spacing first = spacing second := by
      simp only [spacing, same]
    have positiveUnit := spacing_pos second
    have quotients : first / spacing second ≤ second / spacing second :=
      Nat.div_le_div_right le
    rcases Nat.lt_or_eq_of_le quotients with less | sameQuotient
    · calc
        nearest first ≤ (first / spacing second + 1) * spacing second :=
          sameUnit ▸ nearest_le_succ_mul_spacing first
        _ ≤ second / spacing second * spacing second :=
          Nat.mul_le_mul_right _ less
        _ ≤ nearest second := div_mul_spacing_le_nearest second
    · -- Within one unit the remainders decide, and they are in order.
      have divided := Nat.div_add_mod first (spacing second)
      have divided' := Nat.div_add_mod second (spacing second)
      have rests : first % spacing second ≤ second % spacing second := by
        rw [sameQuotient] at divided
        omega
      simp only [nearest, sameUnit, sameQuotient]
      split <;> split
      · exact Nat.le_refl _
      · exact Nat.mul_le_mul_right _ (Nat.le_succ _)
      · omega
      · exact Nat.le_refl _

theorem nearest_of_le {number : Nat} (small : number ≤ exactLimit) :
    nearest number = number := by
  rcases Nat.lt_or_eq_of_le small with less | rfl
  · have unit : spacing number = 1 := by
      have exponent : number.log2 ≤ 52 := by
        rcases Nat.eq_zero_or_pos number with rfl | positive
        · decide
        · exact Nat.le_of_lt_succ ((Nat.log2_lt (by omega)).mpr less)
      rw [spacing, Nat.sub_eq_zero_of_le exponent]
    simp [nearest, unit, Nat.mod_one]
  · decide +kernel

theorem exactLimit_lt_overflow : exactLimit < overflow := by
  decide +kernel

theorem round_of_le {number : Nat} (small : number ≤ exactLimit) :
    round number = some number := by
  rw [round, nearest_of_le small,
    if_pos (Nat.lt_of_le_of_lt small exactLimit_lt_overflow)]

theorem nearest_two_pow (exponent : Nat) :
    nearest (Nat.pow 2 exponent) = Nat.pow 2 exponent := by
  have divides : spacing (Nat.pow 2 exponent) ∣ Nat.pow 2 exponent :=
    spacing_dvd_two_pow (Nat.le_of_eq Nat.log2_two_pow)
  have noRest := Nat.mod_eq_zero_of_dvd divides
  simp only [nearest, noRest]
  rw [if_pos (Or.inl (spacing_pos _)), Nat.div_mul_cancel divides]

theorem round_two_pow (exponent : Nat) :
    round (Nat.pow 2 exponent) =
      if exponent < exponentLimit then some (Nat.pow 2 exponent) else none := by
  have finite : Nat.pow 2 exponent < overflow ↔ exponent < exponentLimit := by
    unfold overflow
    generalize exponentLimit = limit
    exact Nat.pow_lt_pow_iff_right (by decide)
  simp only [round, nearest_two_pow, finite]

/-- Powers of two are doubled exactly as long as they are finite. -/
theorem sum_round_two_pow (exponent : Nat) :
    sum [round (Nat.pow 2 exponent), round (Nat.pow 2 exponent)] =
      round (Nat.pow 2 (exponent + 1)) := by
  rw [round_two_pow exponent]
  split
  · rename_i finite
    have own : add (some 0) (some (Nat.pow 2 exponent)) =
        some (Nat.pow 2 exponent) := by
      rw [add, Nat.zero_add, round_two_pow, if_pos finite]
    have twice : Nat.pow 2 exponent + Nat.pow 2 exponent =
        Nat.pow 2 (exponent + 1) :=
      (Nat.mul_two _).symm
    rw [sum, List.foldl_cons, own, List.foldl_cons, add, twice, List.foldl_nil]
  · rw [round_two_pow, if_neg (by omega)]
    rfl

/-! ## Capped counts -/

theorem capped_some (number : Nat) :
    capped (some number) = min number exactLimit :=
  rfl

theorem capped_none : capped none = exactLimit :=
  Nat.min_self _

theorem capped_le (count : Double) : count.capped ≤ exactLimit :=
  Nat.min_le_right _ _

theorem capped_round (number : Nat) :
    (round number).capped = min number exactLimit := by
  rcases Nat.le_total number exactLimit with small | large
  · rw [round_of_le small, capped_some]
  · have large' : exactLimit ≤ nearest number :=
      nearest_of_le (Nat.le_refl exactLimit) ▸ nearest_le_nearest large
    rw [Nat.min_eq_right large, round]
    split
    · rw [capped_some, Nat.min_eq_right large']
    · exact capped_none

theorem none_add (count : Double) : add none count = none :=
  rfl

theorem add_none (count : Double) : add count none = none := by
  cases count <;> rfl

theorem capped_add (first second : Double) :
    (add first second).capped =
      min (first.capped + second.capped) exactLimit := by
  cases first with
  | none =>
      rw [none_add, capped_none]
      omega
  | some first =>
      cases second with
      | none =>
          rw [add_none, capped_none]
          omega
      | some second =>
          rw [add, capped_round, capped_some, capped_some]
          omega

/-! ## Counts in order -/

/-- Whether a count is finite and no greater whenever another one is finite. -/
def AtMost (first second : Double) : Prop :=
  ∀ number, second = some number → ∃ smaller ≤ number, first = some smaller

theorem AtMost.refl (count : Double) : AtMost count count :=
  fun number same => ⟨number, Nat.le_refl _, same⟩

theorem AtMost.trans {first second third : Double}
    (left : AtMost first second) (right : AtMost second third) :
    AtMost first third := by
  intro number same
  obtain ⟨smaller, smallerLe, same'⟩ := right number same
  obtain ⟨smallest, smallestLe, same''⟩ := left smaller same'
  exact ⟨smallest, Nat.le_trans smallestLe smallerLe, same''⟩

theorem AtMost.capped_le {first second : Double} (le : AtMost first second) :
    first.capped ≤ second.capped := by
  cases second with
  | none =>
      rw [capped_none]
      exact Double.capped_le first
  | some number =>
      obtain ⟨smaller, smallerLe, rfl⟩ := le number rfl
      rw [capped_some, capped_some]
      omega

theorem atMost_round {first second : Nat} (le : first ≤ second) :
    AtMost (round first) (round second) := by
  intro number same
  unfold round at same
  split at same
  · rename_i small
    cases same
    have nearestLe := nearest_le_nearest le
    exact ⟨_, nearestLe, if_pos (Nat.lt_of_le_of_lt nearestLe small)⟩
  · cases same

theorem AtMost.add {first first' second second' : Double}
    (left : AtMost first first') (right : AtMost second second') :
    AtMost (add first second) (add first' second') := by
  intro number same
  cases first' with
  | none => cases same
  | some first' =>
      cases second' with
      | none => cases same
      | some second' =>
          obtain ⟨smaller, smallerLe, rfl⟩ := left _ rfl
          obtain ⟨smaller', smallerLe', rfl⟩ := right _ rfl
          exact atMost_round (Nat.add_le_add smallerLe smallerLe') number same

theorem AtMost.foldl {counts counts' : List Double}
    (each : List.Forall₂ AtMost counts counts') {start start' : Double}
    (startLe : AtMost start start') :
    AtMost (counts.foldl Double.add start)
      (counts'.foldl Double.add start') := by
  induction each generalizing start start' with
  | nil => exact startLe
  | cons first _ ih => exact ih (startLe.add first)

theorem AtMost.sum {counts counts' : List Double}
    (each : List.Forall₂ AtMost counts counts') :
    AtMost (Double.sum counts) (Double.sum counts') :=
  AtMost.foldl each (.refl _)

/-! ## Finite sums -/

theorem foldl_add_none (counts : List Double) :
    counts.foldl add none = none := by
  induction counts with
  | nil => rfl
  | cons count counts ih => exact ih

theorem exists_eq_some_of_foldl {counts : List Double} {start : Double}
    {total : Nat} (added : counts.foldl add start = some total) :
    ∀ count ∈ counts, ∃ number, count = some number := by
  induction counts generalizing start with
  | nil => simp
  | cons count counts ih =>
      refine List.forall_mem_cons.mpr ⟨?_, ih added⟩
      cases count with
      | some number => exact ⟨number, rfl⟩
      | none =>
          rw [List.foldl_cons, add_none, foldl_add_none] at added
          cases added

theorem exists_eq_some_of_sum {counts : List Double} {total : Nat}
    (added : sum counts = some total) :
    ∀ count ∈ counts, ∃ number, count = some number :=
  exists_eq_some_of_foldl added

end Double

end SemanticGrammar
