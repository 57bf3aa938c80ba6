import SemanticGrammar.Tokenizer.Basic

/-!
# Literals and words

A token is either a literal or the whole word that starts where the token
does.
-/

namespace SemanticGrammar

namespace Tokenizer

variable (tokenizer : Tokenizer)

def wordAt (text : List Char) : String :=
  String.ofList (text.take (wordLength tokenizer.symbolicLiterals text))

theorem prefix_of_literalAt? {text : List Char} {literal : String}
    (found : tokenizer.literalAt? text = some literal) :
    literal ∈ tokenizer.literals ∧ literal.toList <+: text := by
  have starts := List.find?_some found
  exact ⟨List.mem_of_find?_eq_some found,
    List.isPrefixOf_iff_prefix.mp starts⟩

/-- The text of the token that starts a text whose first character is not
blank is a literal or a word. -/
theorem take_tokenLength (text : List Char) :
    String.ofList (text.take (tokenizer.tokenLength text)) ∈
        tokenizer.literals ∨
      String.ofList (text.take (tokenizer.tokenLength text)) =
        tokenizer.wordAt text := by
  unfold tokenLength wordAt
  cases found : tokenizer.literalAt? text with
  | none => exact Or.inr rfl
  | some literal =>
      obtain ⟨member, starts⟩ := tokenizer.prefix_of_literalAt? found
      have read :
          String.ofList (text.take literal.toList.length) = literal := by
        rw [← List.prefix_iff_eq_take.mp starts, String.ofList_toList]
      simp only
      split
      · rcases Nat.le_total (wordLength tokenizer.symbolicLiterals text)
          literal.toList.length with shorter | longer
        · rw [Nat.max_eq_left shorter, read]
          exact Or.inl member
        · rw [Nat.max_eq_right longer]
          exact Or.inr rfl
      · rw [read]
        exact Or.inl member

theorem mem_literals_or_eq_wordAt {skipped : Nat} {text : List Char}
    {token : String} (member : token ∈ tokenizer.tokensAfter skipped text) :
    token ∈ tokenizer.literals ∨
      ∃ rest, rest <:+ text ∧ token = tokenizer.wordAt rest := by
  induction text generalizing skipped with
  | nil => simp [tokensAfter] at member
  | cons character rest ih =>
      have later : ∀ skipped, token ∈ tokenizer.tokensAfter skipped rest →
          token ∈ tokenizer.literals ∨
            ∃ word, word <:+ character :: rest ∧
              token = tokenizer.wordAt word := by
        intro skipped member
        rcases ih member with isLiteral | ⟨word, isSuffix, isWord⟩
        · exact Or.inl isLiteral
        · exact Or.inr ⟨word, isSuffix.trans (List.suffix_cons _ _), isWord⟩
      cases skipped with
      | succ skipped => exact later skipped member
      | zero =>
          rw [tokensAfter] at member
          split at member
          · exact later 0 member
          · rcases List.mem_cons.mp member with rfl | member
            · exact (tokenizer.take_tokenLength _).imp_right fun isWord =>
                ⟨_, List.suffix_refl _, isWord⟩
            · exact later _ member

end Tokenizer

end SemanticGrammar
