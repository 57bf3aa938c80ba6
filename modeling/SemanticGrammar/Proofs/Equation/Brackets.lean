/-!
# Balanced brackets

Tokens are balanced when no beginning closes more brackets than it opens and
the whole closes all of them.  A balanced beginning of a bracketed list of
tokens is empty or the whole list.
-/

namespace SemanticGrammar

/-! ## Balanced tokens -/

/-- What a token adds to the number of open brackets. -/
def bracketStep (token : String) : Int :=
  if token = "(" then 1 else if token = ")" then -1 else 0

/-- The number of brackets that tokens leave open. -/
def openBrackets : List String → Int
  | [] => 0
  | token :: tokens => bracketStep token + openBrackets tokens

/-- Whether tokens close the brackets that they open, and no others. -/
structure Balanced (tokens : List String) : Prop where
  settled : openBrackets tokens = 0
  nonneg : ∀ front back, tokens = front ++ back → 0 ≤ openBrackets front

section Balanced

variable {tokens front back inner : List String}

@[simp]
theorem openBrackets_nil : openBrackets [] = 0 :=
  rfl

@[simp]
theorem openBrackets_cons (token : String) (tokens : List String) :
    openBrackets (token :: tokens) =
      bracketStep token + openBrackets tokens :=
  rfl

@[simp]
theorem openBrackets_append (front back : List String) :
    openBrackets (front ++ back) = openBrackets front + openBrackets back := by
  induction front with
  | nil => simp
  | cons token front ih =>
      rw [List.cons_append, openBrackets_cons, openBrackets_cons, ih]
      omega

namespace Balanced

theorem singleton {token : String} (notOpen : token ≠ "(")
    (notClose : token ≠ ")") : Balanced [token] := by
  have step : bracketStep token = 0 := by
    rw [bracketStep, if_neg notOpen, if_neg notClose]
  refine ⟨by simp [step], fun front back same => ?_⟩
  rcases List.append_eq_singleton_iff.mp same.symm with ⟨rfl, -⟩ | ⟨rfl, -⟩ <;>
    simp [step]

theorem append (left : Balanced front) (right : Balanced back) :
    Balanced (front ++ back) := by
  refine ⟨by simp [left.settled, right.settled], fun first rest same => ?_⟩
  rcases List.append_eq_append_iff.mp same with
    ⟨middle, rfl, split⟩ | ⟨middle, split, -⟩
  · have inside := right.nonneg middle rest split
    simpa [left.settled] using inside
  · exact left.nonneg first middle split

theorem of_append (whole : Balanced (front ++ back)) (left : Balanced front) :
    Balanced back := by
  constructor
  · have settled := whole.settled
    simpa [left.settled] using settled
  · rintro first rest rfl
    have inside := whole.nonneg (front ++ first) rest (by simp)
    simpa [left.settled] using inside

theorem enclose (balanced : Balanced inner) :
    Balanced ("(" :: (inner ++ [")"])) := by
  have opened : bracketStep "(" = 1 := by decide
  have closed : bracketStep ")" = -1 := by decide
  refine ⟨by simp [opened, closed, balanced.settled], fun front back same => ?_⟩
  cases front with
  | nil => exact Int.le_refl 0
  | cons token front =>
      obtain ⟨rfl, sameRest⟩ := List.cons.inj same
      rw [openBrackets_cons, opened]
      rcases List.append_eq_append_iff.mp sameRest with
        ⟨middle, rfl, split⟩ | ⟨middle, split, -⟩
      · rcases List.append_eq_singleton_iff.mp split.symm with
          ⟨rfl, -⟩ | ⟨rfl, -⟩ <;> simp [closed, balanced.settled]
      · have inside := balanced.nonneg front middle split
        omega

/-- A balanced beginning of bracketed tokens is empty or all of them. -/
theorem eq_nil_of_enclosed (balanced : Balanced inner)
    (frontBalanced : Balanced front) (nonempty : front ≠ [])
    (same : "(" :: (inner ++ [")"]) = front ++ back) : back = [] := by
  have opened : bracketStep "(" = 1 := by decide
  cases front with
  | nil => exact absurd rfl nonempty
  | cons token front =>
      obtain ⟨rfl, sameRest⟩ := List.cons.inj same
      rcases List.append_eq_append_iff.mp sameRest with
        ⟨middle, rfl, split⟩ | ⟨middle, split, -⟩
      · rcases List.append_eq_singleton_iff.mp split.symm with
          ⟨rfl, -⟩ | ⟨-, rfl⟩
        · have settled := frontBalanced.settled
          simp [opened, balanced.settled] at settled
        · rfl
      · -- The beginning would leave its first bracket open.
        have settled := frontBalanced.settled
        have inside := balanced.nonneg front middle split
        rw [openBrackets_cons, opened] at settled
        omega

end Balanced

end Balanced

end SemanticGrammar
