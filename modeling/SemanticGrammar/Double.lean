/-!
# Counts in doubles

A count in doubles is a whole number with a significand of 53 bits, or
infinity.  The sum of two counts is rounded to the nearest one, and halfway
between two of them to the one with the even significand.  From 2 ^ 1024 on a
sum is infinite.

Sums up to 2 ^ 53 are exact.  Beyond that they can come out less than they are
or more, and they depend on the order of their summands.
-/

namespace SemanticGrammar

/-- A count in doubles; none stands for infinity. -/
abbrev Double := Option Nat

namespace Double

/-- Counts up to this one are exact. -/
def exactLimit : Nat :=
  Nat.pow 2 53

def exponentLimit : Nat :=
  1024

/-- From this count on a count is infinite. -/
@[irreducible]
def overflow : Nat :=
  Nat.pow 2 exponentLimit

/-- The distance between the doubles around a number. -/
def spacing (number : Nat) : Nat :=
  Nat.pow 2 (number.log2 - 52)

/-- The double nearest to a number if it is not infinite. -/
def nearest (number : Nat) : Nat :=
  let unit := spacing number
  let significand := number / unit
  let rest := number % unit
  if 2 * rest < unit ∨ 2 * rest = unit ∧ significand % 2 = 0 then
    significand * unit
  else
    (significand + 1) * unit

def round (number : Nat) : Double :=
  if nearest number < overflow then some (nearest number) else none

def add : Double → Double → Double
  | some first, some second => round (first + second)
  | _, _ => none

/-- The sum of several counts, added up from left to right. -/
def sum (counts : List Double) : Double :=
  counts.foldl add (some 0)

/-- A count as a number that is at most the limit of exact counts. -/
def capped (count : Double) : Nat :=
  min (count.getD exactLimit) exactLimit

theorem two_pow_pos (exponent : Nat) : 0 < Nat.pow 2 exponent :=
  Nat.pow_pos (Nat.succ_pos 1)

theorem overflow_pos : 0 < overflow := by
  unfold overflow
  exact two_pow_pos exponentLimit

theorem lt_overflow_of_round {number rounded : Nat}
    (rounds : round number = some rounded) : rounded < overflow := by
  unfold round at rounds
  split at rounds
  · cases rounds
    assumption
  · cases rounds

theorem lt_overflow_of_add {first second : Double} {total : Nat}
    (added : add first second = some total) : total < overflow := by
  unfold add at added
  split at added
  · exact lt_overflow_of_round added
  · cases added

theorem lt_overflow_of_foldl {counts : List Double} {start : Double}
    {total : Nat} (small : ∀ number, start = some number → number < overflow)
    (added : counts.foldl add start = some total) : total < overflow := by
  induction counts generalizing start with
  | nil => exact small total added
  | cons count counts ih => exact ih (fun _ => lt_overflow_of_add) added

theorem lt_overflow_of_sum {counts : List Double} {total : Nat}
    (added : sum counts = some total) : total < overflow := by
  have small : ∀ number, some 0 = some number → number < overflow := by
    rintro _ ⟨⟩
    exact overflow_pos
  exact lt_overflow_of_foldl small added

end Double

end SemanticGrammar
