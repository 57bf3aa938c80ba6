import Mathlib.Data.List.Find
import SemanticGrammar.Proofs.TokenKinds
import SemanticGrammar.Proofs.Tokenizer.Coverage

/-!
# Blanks separate tokens

No literal holds a blank and no word goes past one, so what is read before a
blank does not depend on what comes after it.  A token that is cut out of its
text is read as it was: the literals that start it start the text too, and the
literal that was found there is still the first of them.

So the tokens of an input, written one after another with any gaps between
them, are read again.
-/

namespace SemanticGrammar

/-- Whether a text can stand between two tokens: it has a character, and all
its characters are blank. -/
def Text.isGap (text : String) : Bool :=
  text != "" && text.toList.all isBlank

theorem Text.isGap_iff {text : String} :
    isGap text = true ↔
      text ≠ "" ∧ ∀ character ∈ text.toList, isBlank character = true := by
  simp [isGap]

theorem prefix_append_cons_iff {α : Type} {word text rest : List α}
    {separator : α} (absent : separator ∉ word) :
    word <+: text ++ separator :: rest ↔ word <+: text := by
  induction word generalizing text with
  | nil => simp
  | cons first word ih =>
      rw [List.mem_cons, not_or] at absent
      cases text with
      | nil => simp [List.cons_prefix_cons, Ne.symm absent.1]
      | cons character text =>
          rw [List.cons_append, List.cons_prefix_cons, List.cons_prefix_cons,
            ih absent.2]

namespace Tokenizer

variable {tokenizer : Tokenizer}

/-! ## Before a blank -/

theorem wordLength_le (symbolic : List String) (text : List Char) :
    wordLength symbolic text ≤ text.length := by
  induction text with
  | nil => exact Nat.le_refl 0
  | cons character rest ih =>
      rw [wordLength]
      split
      · exact Nat.zero_le _
      · exact Nat.succ_le_succ ih

theorem tokenLength_le (tokenizer : Tokenizer) (text : List Char) :
    tokenizer.tokenLength text ≤ text.length := by
  have word := wordLength_le tokenizer.symbolicLiterals text
  unfold tokenLength
  cases found : tokenizer.literalAt? text with
  | none => exact word
  | some literal =>
      have within := (tokenizer.prefix_of_literalAt? found).2.length_le
      simp only
      split <;> omega

section Blanks

variable (unbroken : ∀ literal ∈ tokenizer.literals,
    Text.isUnbroken literal = true)
  {blank : Char} (isBlank : Text.isBlank blank = true) (rest : List Char)

include unbroken isBlank

theorem isPrefixOf_append_blank {literal : String}
    (member : literal ∈ tokenizer.literals) (text : List Char) :
    literal.toList.isPrefixOf (text ++ blank :: rest) =
      literal.toList.isPrefixOf text := by
  have absent : blank ∉ literal.toList := by
    intro within
    have notBlank := (Text.isUnbroken_iff.mp (unbroken literal member)).2 blank
      within
    rw [isBlank] at notBlank
    cases notBlank
  rw [Bool.eq_iff_iff, List.isPrefixOf_iff_prefix, List.isPrefixOf_iff_prefix]
  exact prefix_append_cons_iff absent

theorem anyStarts_append_blank (text : List Char) :
    anyStarts tokenizer.symbolicLiterals (text ++ blank :: rest) =
      anyStarts tokenizer.symbolicLiterals text := by
  rw [anyStarts, anyStarts, Bool.eq_iff_iff, List.any_eq_true, List.any_eq_true]
  refine exists_congr fun literal => and_congr_right fun member => ?_
  rw [isPrefixOf_append_blank unbroken isBlank rest
    (List.mem_filter.mp member).1 text]

theorem wordLength_append_blank (text : List Char) :
    wordLength tokenizer.symbolicLiterals (text ++ blank :: rest) =
      wordLength tokenizer.symbolicLiterals text := by
  induction text with
  | nil => simp [wordLength, isBlank]
  | cons character text ih =>
      rw [List.cons_append, wordLength, wordLength, ← List.cons_append,
        anyStarts_append_blank unbroken isBlank, ih]

theorem literalAt?_append_blank (text : List Char) :
    tokenizer.literalAt? (text ++ blank :: rest) =
      tokenizer.literalAt? text := by
  apply List.find?_congr
  intro literal member
  exact isPrefixOf_append_blank unbroken isBlank rest member text

theorem tokenLength_append_blank (text : List Char) :
    tokenizer.tokenLength (text ++ blank :: rest) =
      tokenizer.tokenLength text := by
  unfold tokenLength
  rw [literalAt?_append_blank unbroken isBlank,
    wordLength_append_blank unbroken isBlank]

/-- The tokens of a text with a blank inside are those before the blank and
those after it.  The induction is on the text before the blank, and what is
skipped belongs to a token that ends there. -/
theorem tokensAfter_append_blank {skipped : Nat} {text : List Char}
    (inside : skipped ≤ text.length) :
    tokenizer.tokensAfter skipped (text ++ blank :: rest) =
      tokenizer.tokensAfter skipped text ++ tokenizer.tokensAfter 0 rest := by
  induction text generalizing skipped with
  | nil =>
      obtain rfl := Nat.le_zero.mp inside
      simp [tokensAfter, isBlank]
  | cons character text ih =>
      cases skipped with
      | succ skipped => exact ih (Nat.le_of_succ_le_succ inside)
      | zero =>
          have within := tokenizer.tokenLength_le (character :: text)
          have sameLength : tokenizer.tokenLength
              (character :: (text ++ blank :: rest)) =
                tokenizer.tokenLength (character :: text) :=
            tokenLength_append_blank unbroken isBlank rest (character :: text)
          have sameToken : (character :: (text ++ blank :: rest)).take
              (tokenizer.tokenLength (character :: text)) =
                (character :: text).take
                  (tokenizer.tokenLength (character :: text)) := by
            rw [← List.cons_append]
            exact List.take_append_of_le_length within
          rw [List.length_cons] at within
          rw [List.cons_append, tokensAfter, tokensAfter]
          split
          · exact ih (Nat.zero_le _)
          · simp only [sameLength, sameToken]
            rw [ih (by omega), List.cons_append]

end Blanks

theorem tokensAfter_append_of_blank {gap : List Char}
    (blank : ∀ character ∈ gap, Text.isBlank character = true)
    (rest : List Char) :
    tokenizer.tokensAfter 0 (gap ++ rest) = tokenizer.tokensAfter 0 rest := by
  induction gap with
  | nil => rfl
  | cons character gap ih =>
      rw [List.forall_mem_cons] at blank
      rw [List.cons_append, tokensAfter, if_pos blank.1, ih blank.2]

theorem tokenize_append_gap
    (unbroken : ∀ literal ∈ tokenizer.literals, Text.isUnbroken literal = true)
    (first second : String) {gap : String} (isGap : Text.isGap gap = true) :
    tokenizer.tokenize (first ++ gap ++ second) =
      tokenizer.tokenize first ++ tokenizer.tokenize second := by
  obtain ⟨nonempty, blank⟩ := Text.isGap_iff.mp isGap
  cases characters : gap.toList with
  | nil => exact (nonempty (String.toList_eq_nil_iff.mp characters)).elim
  | cons character others =>
      rw [characters, List.forall_mem_cons] at blank
      rw [tokenize, String.toList_append, String.toList_append, characters,
        List.append_assoc, List.cons_append,
        tokensAfter_append_blank unbroken blank.1 _ (Nat.zero_le _),
        tokensAfter_append_of_blank blank.2]
      rfl

/-! ## Texts that are one token -/

theorem tokenize_eq_singleton {text : String} {first : Char}
    {others : List Char} (characters : text.toList = first :: others)
    (notBlank : Text.isBlank first = false)
    (whole : tokenizer.tokenLength text.toList = text.toList.length) :
    tokenizer.tokenize text = [text] := by
  rw [characters] at whole
  rw [tokenize, characters, tokensAfter, if_neg (by simp [notBlank])]
  simp only [whole, List.length_cons, Nat.add_sub_cancel]
  rw [tokensAfter_eq_drop, List.drop_length, ← List.length_cons,
    List.take_length, ← characters, String.ofList_toList, tokensAfter]

theorem isPrefixOf_eq_false_of_prefix {literal : String}
    {front text : List Char} (isPrefix : front <+: text)
    (notStarts : literal.toList.isPrefixOf text = false) :
    literal.toList.isPrefixOf front = false := by
  rw [Bool.eq_false_iff, Ne, List.isPrefixOf_iff_prefix] at notStarts ⊢
  exact fun starts => notStarts (starts.trans isPrefix)

/-- A literal that is found where a text starts is found in each front of the
text that holds it. -/
theorem literalAt?_eq_some_of_prefix {front text : List Char}
    (isPrefix : front <+: text) {literal : String}
    (found : tokenizer.literalAt? text = some literal)
    (starts : literal.toList <+: front) :
    tokenizer.literalAt? front = some literal := by
  obtain ⟨-, before, after, arranged, earlier⟩ :=
    List.find?_eq_some_iff_append.mp found
  refine List.find?_eq_some_iff_append.mpr
    ⟨List.isPrefixOf_iff_prefix.mpr starts, before, after, arranged, ?_⟩
  intro other member
  have notStarts := earlier other member
  rw [Bool.not_eq_true'] at notStarts ⊢
  exact isPrefixOf_eq_false_of_prefix isPrefix notStarts

theorem literalAt?_eq_none_of_prefix {front text : List Char}
    (isPrefix : front <+: text)
    (nothing : tokenizer.literalAt? text = none) :
    tokenizer.literalAt? front = none := by
  unfold literalAt? at nothing ⊢
  rw [List.find?_eq_none] at nothing ⊢
  intro literal member
  have notStarts := nothing literal member
  rw [Bool.not_eq_true] at notStarts ⊢
  exact isPrefixOf_eq_false_of_prefix isPrefix notStarts

theorem anyStarts_eq_false_of_prefix {literals : List String}
    {front text : List Char} (isPrefix : front <+: text)
    (nothing : anyStarts literals text = false) :
    anyStarts literals front = false := by
  rw [anyStarts, List.any_eq_false] at nothing ⊢
  intro literal member
  have notStarts := nothing literal member
  rw [Bool.not_eq_true] at notStarts ⊢
  exact isPrefixOf_eq_false_of_prefix isPrefix notStarts

theorem wordLength_take (symbolic : List String) (text : List Char) :
    wordLength symbolic (text.take (wordLength symbolic text)) =
      wordLength symbolic text := by
  induction text with
  | nil => rfl
  | cons character rest ih =>
      by_cases ends : (Text.isBlank character ||
          anyStarts symbolic (character :: rest)) = true
      · rw [wordLength, if_pos ends, List.take_zero, wordLength]
      · have isPrefix : character :: rest.take (wordLength symbolic rest) <+:
            character :: rest :=
          List.cons_prefix_cons.mpr ⟨rfl, List.take_prefix _ _⟩
        have inside := Bool.or_eq_false_iff.mp (Bool.eq_false_iff.mpr ends)
        rw [wordLength, if_neg ends, List.take_succ_cons, wordLength,
          inside.1, anyStarts_eq_false_of_prefix isPrefix inside.2, ih]
        rfl

/-- A token that is cut out of its text is one token.  If it is a literal, this
literal is found again.  If it is a word that is longer than a keyword, the
keyword is found again, and the word is as long as before. -/
theorem tokenLength_take (tokenizer : Tokenizer) (text : List Char) :
    tokenizer.tokenLength (text.take (tokenizer.tokenLength text)) =
      tokenizer.tokenLength text := by
  have isPrefix := List.take_prefix (tokenizer.tokenLength text) text
  have sameWord := wordLength_take tokenizer.symbolicLiterals text
  cases found : tokenizer.literalAt? text with
  | none =>
      have length : tokenizer.tokenLength text =
          wordLength tokenizer.symbolicLiterals text := by
        rw [tokenLength, found]
      have nothing := literalAt?_eq_none_of_prefix isPrefix found
      rw [length] at nothing ⊢
      rw [tokenLength, nothing, sameWord]
  | some literal =>
      have starts := (tokenizer.prefix_of_literalAt? found).2
      have length : tokenizer.tokenLength text =
          if Text.isKeyword literal then max literal.toList.length
            (wordLength tokenizer.symbolicLiterals text)
          else literal.toList.length := by
        rw [tokenLength, found]
      have notShorter :
          literal.toList.length ≤ tokenizer.tokenLength text := by
        rw [length]
        split <;> omega
      have startsToken : literal.toList <+:
          text.take (tokenizer.tokenLength text) := by
        rw [List.prefix_take_iff]
        exact ⟨starts, notShorter⟩
      have again := literalAt?_eq_some_of_prefix isPrefix found startsToken
      rw [tokenLength, again]
      simp only
      by_cases keyword : Text.isKeyword literal = true
      · rw [if_pos keyword] at length ⊢
        rcases Nat.le_total (wordLength tokenizer.symbolicLiterals text)
          literal.toList.length with shorter | longer
        · rw [Nat.max_eq_left shorter] at length
          have within := wordLength_le tokenizer.symbolicLiterals
            (text.take (tokenizer.tokenLength text))
          have bound := List.length_take_le (tokenizer.tokenLength text) text
          omega
        · rw [Nat.max_eq_right longer] at length
          rw [length, sameWord, Nat.max_eq_right longer]
      · rw [if_neg keyword] at length ⊢
        exact length.symm

/-! ## Literals -/

theorem length_le_of_precedes {first second : String} {text : List Char}
    (precedes : Text.precedes first second = true)
    (firstStarts : first.toList <+: text)
    (secondStarts : second.toList <+: text) :
    second.toList.length ≤ first.toList.length := by
  by_contra longer
  obtain ⟨more, whole⟩ := List.prefix_of_prefix_length_le firstStarts
    secondStarts (by omega)
  have moreUnits : 0 < (more.flatMap Text.characterUnits).length := by
    rw [List.length_pos_iff]
    cases more with
    | nil =>
        rw [← whole, List.append_nil] at longer
        omega
    | cons character more => simp [Text.characterUnits_ne_nil]
  have units : Text.unitLength second =
      Text.unitLength first + (more.flatMap Text.characterUnits).length := by
    rw [Text.unitLength, Text.unitLength, Text.units, Text.units, ← whole,
      List.flatMap_append, List.length_append]
  rcases Text.precedes_iff.mp precedes with shorter | ⟨sameLength, -⟩
  · omega
  · omega

theorem length_le_of_literalAt?
    (ordered : tokenizer.literals.Pairwise (Text.precedes · · = true))
    {text : List Char} {literal : String}
    (found : tokenizer.literalAt? text = some literal) {other : String}
    (member : other ∈ tokenizer.literals) (starts : other.toList <+: text) :
    other.toList.length ≤ literal.toList.length := by
  obtain ⟨isFirst, before, after, arranged, earlier⟩ :=
    List.find?_eq_some_iff_append.mp found
  rw [arranged] at member ordered
  rcases List.mem_append.mp member with isEarlier | isLater
  · have notStarts := earlier other isEarlier
    rw [List.isPrefixOf_iff_prefix.mpr starts] at notStarts
    cases notStarts
  · rcases List.mem_cons.mp isLater with rfl | isLater
    · exact Nat.le_refl _
    · have precedes := List.rel_of_pairwise_cons
        (List.pairwise_append.mp ordered).2.1 isLater
      exact length_le_of_precedes precedes
        (List.isPrefixOf_iff_prefix.mp isFirst) starts

theorem tokenLength_of_mem_literals
    (ordered : tokenizer.literals.Pairwise (Text.precedes · · = true))
    {literal : String} (member : literal ∈ tokenizer.literals) :
    tokenizer.tokenLength literal.toList = literal.toList.length := by
  have found : tokenizer.literalAt? literal.toList = some literal := by
    cases first : tokenizer.literalAt? literal.toList with
    | none =>
        have notStarts := List.find?_eq_none.mp first literal member
        exact (notStarts (List.isPrefixOf_iff_prefix.mpr
          (List.prefix_refl _))).elim
    | some longest =>
        have starts := (tokenizer.prefix_of_literalAt? first).2
        have notShorter := length_le_of_literalAt? ordered first member
          (List.prefix_refl _)
        rw [String.toList_inj.mp (starts.eq_of_length_le notShorter)]
  have word := wordLength_le tokenizer.symbolicLiterals literal.toList
  rw [tokenLength, found]
  simp only
  split
  · exact Nat.max_eq_left word
  · rfl

/-! ## Tokens read again -/

theorem exists_text_of_mem_tokensAfter {skipped : Nat} {text : List Char}
    {token : String} (member : token ∈ tokenizer.tokensAfter skipped text) :
    ∃ first rest, Text.isBlank first = false ∧
      token = String.ofList ((first :: rest).take
        (tokenizer.tokenLength (first :: rest))) := by
  induction text generalizing skipped with
  | nil => simp [tokensAfter] at member
  | cons character rest ih =>
      cases skipped with
      | succ skipped => exact ih member
      | zero =>
          rw [tokensAfter] at member
          split at member
          · exact ih member
          · rename_i notBlank
            rcases List.mem_cons.mp member with rfl | later
            · exact ⟨character, rest, Bool.eq_false_iff.mpr notBlank, rfl⟩
            · exact ih later

theorem tokenize_of_mem_tokenize
    (unbroken : ∀ literal ∈ tokenizer.literals, Text.isUnbroken literal = true)
    {input token : String} (member : token ∈ tokenizer.tokenize input) :
    tokenizer.tokenize token = [token] := by
  have nonempty : ∀ literal ∈ tokenizer.literals, literal ≠ "" :=
    fun literal member => (Text.isUnbroken_iff.mp (unbroken literal member)).1
  obtain ⟨first, rest, notBlank, rfl⟩ := exists_text_of_mem_tokensAfter member
  have within := tokenizer.tokenLength_le (first :: rest)
  have whole := tokenizer.tokenLength_take (first :: rest)
  have positive : 0 < tokenizer.tokenLength (first :: rest) :=
    tokenLength_pos nonempty notBlank
  obtain ⟨length, successor⟩ :=
    Nat.exists_eq_succ_of_ne_zero (Nat.ne_of_gt positive)
  have characters : (String.ofList ((first :: rest).take
      (tokenizer.tokenLength (first :: rest)))).toList =
        first :: rest.take length := by
    rw [String.toList_ofList, successor, Nat.succ_eq_add_one,
      List.take_succ_cons]
  apply tokenize_eq_singleton characters notBlank
  rw [String.toList_ofList, whole, List.length_take, Nat.min_eq_left within]

theorem tokenize_of_mem_literals
    (unbroken : ∀ literal ∈ tokenizer.literals, Text.isUnbroken literal = true)
    (ordered : tokenizer.literals.Pairwise (Text.precedes · · = true))
    {literal : String} (member : literal ∈ tokenizer.literals) :
    tokenizer.tokenize literal = [literal] := by
  obtain ⟨nonempty, noBlank⟩ :=
    Text.isUnbroken_iff.mp (unbroken literal member)
  cases characters : literal.toList with
  | nil => exact (nonempty (String.toList_eq_nil_iff.mp characters)).elim
  | cons first others =>
      rw [characters, List.forall_mem_cons] at noBlank
      exact tokenize_eq_singleton characters noBlank.1
        (tokenLength_of_mem_literals ordered member)

/-- Tokens one after another, with the next of the gaps after each of them but
the last one. -/
def spaced : List String → List String → String
  | [], _ => ""
  | [token], _ => token
  | token :: next :: tokens, gaps =>
      token ++ gaps.headD "" ++ spaced (next :: tokens) gaps.tail

theorem tokenize_spaced
    (unbroken : ∀ literal ∈ tokenizer.literals, Text.isUnbroken literal = true)
    {tokens : List String}
    (single : ∀ token ∈ tokens, tokenizer.tokenize token = [token])
    {gaps : List String} (areGaps : ∀ gap ∈ gaps, Text.isGap gap = true)
    (enough : tokens.length ≤ gaps.length + 1) :
    tokenizer.tokenize (spaced tokens gaps) = tokens := by
  induction tokens generalizing gaps with
  | nil => rfl
  | cons token tokens ih =>
      rw [List.forall_mem_cons] at single
      cases tokens with
      | nil => exact single.1
      | cons next tokens =>
          cases gaps with
          | nil => simp at enough
          | cons gap gaps =>
              rw [List.forall_mem_cons] at areGaps
              rw [spaced, List.headD_cons, List.tail_cons,
                tokenize_append_gap unbroken _ _ areGaps.1, single.1,
                ih single.2 areGaps.2 (Nat.le_of_succ_le_succ enough)]
              rfl

/-- Tokenizing never stops, and it respects gaps: the tokens on both sides of a
gap are read apart.  All tokens that are read, and all literals, are read again
as one token.  So the tokens of an input, written with any gaps between them,
are the tokens of what is written. -/
theorem tokenize_respects_gaps {literals : List String}
    (made : ofLiterals? literals = .ok tokenizer) :
    (∀ explain input,
        tokenizer.scan explain input = .ok (tokenizer.tokenize input)) ∧
      (∀ first gap second, Text.isGap gap = true →
        tokenizer.tokenize (first ++ gap ++ second) =
          tokenizer.tokenize first ++ tokenizer.tokenize second) ∧
      (∀ input, ∀ token ∈ tokenizer.tokenize input,
        tokenizer.tokenize token = [token]) ∧
      (∀ literal ∈ literals, tokenizer.tokenize literal = [literal]) ∧
      ∀ input gaps, (∀ gap ∈ gaps, Text.isGap gap = true) →
        (tokenizer.tokenize input).length ≤ gaps.length + 1 →
          tokenizer.tokenize (spaced (tokenizer.tokenize input) gaps) =
            tokenizer.tokenize input := by
  have mem_iff : ∀ literal, literal ∈ tokenizer.literals ↔
      literal ∈ literals := fun literal => mem_literals_of_ofLiterals? made
  obtain ⟨unbrokenLiterals, -, arranged⟩ := ofLiterals?_eq_ok_iff.mp made
  have unbroken : ∀ literal ∈ tokenizer.literals,
      Text.isUnbroken literal = true :=
    fun literal member => unbrokenLiterals literal ((mem_iff literal).mp member)
  have ordered : tokenizer.literals.Pairwise (Text.precedes · · = true) := by
    rw [arranged]
    exact pairwise_arrange _
  have single : ∀ input, ∀ token ∈ tokenizer.tokenize input,
      tokenizer.tokenize token = [token] :=
    fun input token => tokenize_of_mem_tokenize unbroken
  refine ⟨scan_eq_ok fun literal => ne_empty_of_mem_literals made,
    fun first gap second => tokenize_append_gap unbroken first second, single,
    fun literal member => tokenize_of_mem_literals unbroken ordered
      ((mem_iff literal).mpr member),
    fun input gaps areGaps => tokenize_spaced unbroken (single input) areGaps⟩

/-- A symbolic literal cuts a word short, and the keyword at its start is then
the token.  Written apart, the same tokens are read. -/
theorem tokenize_respects_gaps_keyword :
    ∃ tokenizer, ofLiterals? ["IN", "c=", "INc", "="] = .ok tokenizer ∧
      tokenizer.tokenize "INc=INcx=c" = ["INc", "=", "INcx", "=", "c"] ∧
      tokenizer.tokenize "INc\t=\u3000\nINcx = c" =
        ["INc", "=", "INcx", "=", "c"] := by
  let tokenizer : Tokenizer := ⟨["INc", "IN", "c=", "="]⟩
  have made : ofLiterals? ["IN", "c=", "INc", "="] = .ok tokenizer := by
    decide +kernel
  have tokens : tokenizer.tokenize "INc=INcx=c" =
      ["INc", "=", "INcx", "=", "c"] := by
    decide +kernel
  obtain ⟨-, -, -, -, again⟩ := tokenize_respects_gaps made
  have apart := again "INc=INcx=c" ["\t", "\u3000\n", " ", " "] (by decide)
  rw [tokens] at apart
  exact ⟨tokenizer, made, tokens, apart (by decide)⟩

end Tokenizer

end SemanticGrammar
