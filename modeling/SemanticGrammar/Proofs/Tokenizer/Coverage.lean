import SemanticGrammar.Proofs.Tokenizer.Concatenation
import SemanticGrammar.Proofs.Tokenizer.LiteralOrder
import SemanticGrammar.Tokenizer.Scan

/-!
# Every input is covered

Where a character is not blank, either a symbolic literal starts and is the
token there, or else the word there has that character at least.  So the scan
of an input with literals that are not empty never stops.
-/

namespace SemanticGrammar

namespace Tokenizer

variable {tokenizer : Tokenizer}

theorem tokenLength_pos
    (nonempty : ∀ literal ∈ tokenizer.literals, literal ≠ "")
    {character : Char} {rest : List Char}
    (notBlank : Text.isBlank character = false) :
    0 < tokenizer.tokenLength (character :: rest) := by
  unfold tokenLength
  cases found : tokenizer.literalAt? (character :: rest) with
  | none =>
      have noneStarts : anyStarts tokenizer.symbolicLiterals
          (character :: rest) = false := by
        rw [anyStarts, List.any_eq_false]
        intro literal member
        exact List.find?_eq_none.mp found literal
          (List.mem_filter.mp member).1
      simp [wordLength, notBlank, noneStarts]
  | some literal =>
      have member : literal ∈ tokenizer.literals :=
        List.mem_of_find?_eq_some found
      have positive : 0 < literal.toList.length := by
        rw [List.length_pos_iff, Ne, String.toList_eq_nil_iff]
        exact nonempty literal member
      simp only
      split <;> omega

theorem scanAfter_eq_ok
    (nonempty : ∀ literal ∈ tokenizer.literals, literal ≠ "")
    (skipped : Nat) (text : List Char) :
    tokenizer.scanAfter skipped text =
      .ok (tokenizer.tokensAfter skipped text) := by
  induction text generalizing skipped with
  | nil => cases skipped <;> simp [scanAfter, tokensAfter]
  | cons character rest ih =>
      cases skipped with
      | succ skipped => exact ih skipped
      | zero =>
          rw [scanAfter, tokensAfter]
          by_cases blank : Text.isBlank character = true
          · rw [if_pos blank, if_pos blank, ih]
          · rw [if_neg blank, if_neg blank]
            rw [Bool.not_eq_true] at blank
            have positive : 0 < tokenizer.tokenLength (character :: rest) :=
              tokenLength_pos nonempty blank
            obtain ⟨length, same⟩ :=
              Nat.exists_eq_succ_of_ne_zero (Nat.ne_of_gt positive)
            simp only [same, ih, Except.map, Nat.succ_eq_add_one,
              Nat.add_sub_cancel, List.take_succ_cons]

theorem scan_eq_ok
    (nonempty : ∀ literal ∈ tokenizer.literals, literal ≠ "")
    (explain : String → Nat → String) (input : String) :
    tokenizer.scan explain input = .ok (tokenizer.tokenize input) := by
  rw [scan, scanAfter_eq_ok nonempty]
  rfl

theorem mem_literals_of_ofLiterals? {literals : List String}
    (made : ofLiterals? literals = .ok tokenizer) {literal : String} :
    literal ∈ tokenizer.literals ↔ literal ∈ literals := by
  obtain ⟨-, -, rfl⟩ := ofLiterals?_eq_ok_iff.mp made
  exact (perm_arrange _).mem_iff.trans mem_firstOccurrences

theorem ne_empty_of_mem_literals {literals : List String}
    (made : ofLiterals? literals = .ok tokenizer) {literal : String}
    (member : literal ∈ tokenizer.literals) : literal ≠ "" := by
  have unbroken := (ofLiterals?_eq_ok_iff.mp made).1 literal
    ((mem_literals_of_ofLiterals? made).mp member)
  exact (Text.isUnbroken_iff.mp unbroken).1

end Tokenizer

end SemanticGrammar
