import SemanticGrammar.Proofs.Tokenizer.Lexing

/-!
# Where the tokens of an input stand

Each token has an offset, the number of characters before it.  The tokens of an
input lie in it one after another, they hold no blank, and what lies outside of
them is blank.  So nothing but blanks is lost.
-/

namespace SemanticGrammar

/-- A token with the number of characters before it. -/
structure PlacedToken where
  offset : Nat
  token : String
  deriving DecidableEq, Repr

def PlacedToken.stop (placed : PlacedToken) : Nat :=
  placed.offset + placed.token.toList.length

/-- Whether every character between two offsets of a text is blank. -/
def IsBlankBetween (text : List Char) (start stop : Nat) : Prop :=
  ∀ index character, start ≤ index → index < stop →
    text[index]? = some character → Text.isBlank character = true

/-- Whether tokens lie one after another in a text from an offset on, with
blanks before, between and after them. -/
inductive IsLayout (text : List Char) : Nat → List PlacedToken → Prop
  | nil {start : Nat} (blank : IsBlankBetween text start text.length) :
      IsLayout text start []
  | cons {start : Nat} {placed : PlacedToken} {later : List PlacedToken}
      (ordered : start ≤ placed.offset)
      (blank : IsBlankBetween text start placed.offset)
      (inside : placed.token.toList <+: text.drop placed.offset)
      (rest : IsLayout text placed.stop later) :
      IsLayout text start (placed :: later)

namespace IsBlankBetween

variable {text : List Char} {start stop : Nat}

theorem of_le (none : stop ≤ start) : IsBlankBetween text start stop := by
  intro index character after before
  omega

theorem cons {character : Char} {rest : List Char}
    (remaining : text.drop start = character :: rest)
    (isBlank : Text.isBlank character = true)
    (blank : IsBlankBetween text (start + 1) stop) :
    IsBlankBetween text start stop := by
  intro index other after before found
  rcases Nat.eq_or_lt_of_le after with rfl | later
  · have first : text[start]? = some character := by
      rw [← List.head?_drop, remaining, List.head?_cons]
    obtain rfl := Option.some.inj (first.symm.trans found)
    exact isBlank
  · exact blank index other later before found

theorem take_drop (blank : IsBlankBetween text start stop) :
    ∀ character ∈ (text.drop start).take (stop - start),
      Text.isBlank character = true := by
  intro character member
  obtain ⟨index, bound, rfl⟩ := List.mem_iff_getElem.mp member
  have within := bound
  rw [List.length_take] at within
  apply blank (start + index) _ (Nat.le_add_right _ _) (by omega)
  rw [List.getElem_take, ← List.getElem?_drop, List.getElem?_eq_getElem]

theorem filter_take_drop (blank : IsBlankBetween text start stop) :
    ((text.drop start).take (stop - start)).filter
      (fun character => !Text.isBlank character) = [] := by
  rw [List.filter_eq_nil_iff]
  intro character member
  simp [blank.take_drop character member]

end IsBlankBetween

namespace IsLayout

variable {text : List Char} {start : Nat} {placed : List PlacedToken}

theorem cons_blank {character : Char} {rest : List Char}
    (remaining : text.drop start = character :: rest)
    (isBlank : Text.isBlank character = true)
    (layout : IsLayout text (start + 1) placed) :
    IsLayout text start placed := by
  cases layout with
  | nil blank => exact .nil (blank.cons remaining isBlank)
  | cons ordered blank inside rest =>
      exact .cons (Nat.le_of_succ_le ordered) (blank.cons remaining isBlank)
        inside rest

/-- What is left of a text without its blanks is made of the tokens. -/
theorem filter_drop (layout : IsLayout text start placed)
    (unbroken : ∀ one ∈ placed, Text.isUnbroken one.token = true) :
    (text.drop start).filter (fun character => !Text.isBlank character) =
      placed.flatMap fun one => one.token.toList := by
  induction layout with
  | @nil start blank =>
      have nothing := blank.filter_take_drop
      rw [List.take_of_length_le (by simp)] at nothing
      exact nothing
  | @cons start first later ordered blank inside rest ih =>
      rw [List.forall_mem_cons] at unbroken
      obtain ⟨-, noBlank⟩ := Text.isUnbroken_iff.mp unbroken.1
      obtain ⟨after, split⟩ := inside
      have token : first.token.toList.filter
          (fun character => !Text.isBlank character) =
            first.token.toList := by
        rw [List.filter_eq_self]
        intro character member
        simp [noBlank character member]
      have dropped : text.drop first.stop = after := by
        rw [PlacedToken.stop, ← List.drop_drop, ← split, List.drop_left]
      calc (text.drop start).filter (fun character => !Text.isBlank character)
          = (text.drop first.offset).filter
              (fun character => !Text.isBlank character) := by
            conv_lhs => rw [← List.take_append_drop (first.offset - start)
              (text.drop start)]
            rw [List.filter_append, blank.filter_take_drop, List.nil_append,
              List.drop_drop, Nat.add_sub_cancel' ordered]
        _ = first.token.toList ++ (text.drop first.stop).filter
              (fun character => !Text.isBlank character) := by
            rw [← split, List.filter_append, token, dropped]
        _ = (first :: later).flatMap fun one => one.token.toList := by
            rw [ih unbroken.2, List.flatMap_cons]

end IsLayout

namespace Tokenizer

variable {tokenizer : Tokenizer}

/-! ## Tokens with their offsets -/

/-- The tokens of the rest of a text with their offsets, given the offset of
the rest, after its first `skipped` characters. -/
def placedAfter (tokenizer : Tokenizer) :
    Nat → Nat → List Char → List PlacedToken
  | _, _, [] => []
  | skipped + 1, offset, _ :: rest =>
      tokenizer.placedAfter skipped (offset + 1) rest
  | 0, offset, character :: rest =>
      if Text.isBlank character then
        tokenizer.placedAfter 0 (offset + 1) rest
      else
        let length := tokenizer.tokenLength (character :: rest)
        ⟨offset, String.ofList ((character :: rest).take length)⟩ ::
          tokenizer.placedAfter (length - 1) (offset + 1) rest

def placedTokens (tokenizer : Tokenizer) (input : String) :
    List PlacedToken :=
  tokenizer.placedAfter 0 0 input.toList

theorem map_token_placedAfter (skipped offset : Nat) (text : List Char) :
    (tokenizer.placedAfter skipped offset text).map PlacedToken.token =
      tokenizer.tokensAfter skipped text := by
  induction text generalizing skipped offset with
  | nil => cases skipped <;> rfl
  | cons character rest ih =>
      cases skipped with
      | succ skipped => exact ih skipped (offset + 1)
      | zero =>
          rw [placedAfter, tokensAfter]
          split
          · exact ih 0 (offset + 1)
          · simp only [List.map_cons, ih]

theorem map_token_placedTokens (input : String) :
    (tokenizer.placedTokens input).map PlacedToken.token =
      tokenizer.tokenize input :=
  map_token_placedAfter 0 0 input.toList

/-- The tokens with their offsets are a layout of the text.  The induction is on
the rest of the text, and what is skipped of it belongs to the token before. -/
theorem isLayout_placedAfter
    (nonempty : ∀ literal ∈ tokenizer.literals, literal ≠ "")
    {text rest : List Char} {skipped offset : Nat}
    (remaining : text.drop offset = rest) (inside : skipped ≤ rest.length) :
    IsLayout text (offset + skipped)
      (tokenizer.placedAfter skipped offset rest) := by
  induction rest generalizing skipped offset with
  | nil =>
      have ended : text.length ≤ offset := List.drop_eq_nil_iff.mp remaining
      cases skipped <;> exact .nil (.of_le (by omega))
  | cons character rest ih =>
      have next : text.drop (offset + 1) = rest := by
        rw [← List.drop_drop, remaining, List.drop_one, List.tail_cons]
      cases skipped with
      | succ skipped =>
          have layout := ih next (Nat.le_of_succ_le_succ inside)
          rw [Nat.add_right_comm] at layout
          exact layout
      | zero =>
          rw [placedAfter]
          split
          · rename_i isBlank
            exact (ih next (Nat.zero_le _)).cons_blank remaining isBlank
          · rename_i notBlank
            have within := tokenizer.tokenLength_le (character :: rest)
            have positive : 0 < tokenizer.tokenLength (character :: rest) :=
              tokenLength_pos nonempty (Bool.eq_false_iff.mpr notBlank)
            have length : ((character :: rest).take
                (tokenizer.tokenLength (character :: rest))).length =
                  tokenizer.tokenLength (character :: rest) :=
              List.length_take_of_le within
            rw [List.length_cons] at within
            refine .cons (Nat.le_refl _) (.of_le (Nat.le_refl _)) ?_ ?_
            · rw [String.toList_ofList, remaining]
              exact List.take_prefix _ _
            · have same : offset + tokenizer.tokenLength (character :: rest) =
                  offset + 1 +
                    (tokenizer.tokenLength (character :: rest) - 1) := by
                omega
              rw [PlacedToken.stop, String.toList_ofList, length, same]
              exact ih next (by omega)

theorem isLayout_placedTokens
    (nonempty : ∀ literal ∈ tokenizer.literals, literal ≠ "")
    (input : String) :
    IsLayout input.toList 0 (tokenizer.placedTokens input) :=
  isLayout_placedAfter nonempty rfl (Nat.zero_le _)

/-! ## Tokens without blanks -/

theorem isBlank_of_mem_take_wordLength (symbolic : List String)
    {text : List Char} {character : Char}
    (member : character ∈ text.take (wordLength symbolic text)) :
    Text.isBlank character = false := by
  induction text with
  | nil => cases member
  | cons first rest ih =>
      rw [wordLength] at member
      split at member
      · cases member
      · rename_i goesOn
        rw [List.take_succ_cons, List.mem_cons] at member
        rcases member with rfl | later
        · exact (Bool.or_eq_false_iff.mp (Bool.eq_false_iff.mpr goesOn)).1
        · exact ih later

theorem isUnbroken_of_mem_tokensAfter
    (unbroken : ∀ literal ∈ tokenizer.literals, Text.isUnbroken literal = true)
    {skipped : Nat} {text : List Char} {token : String}
    (member : token ∈ tokenizer.tokensAfter skipped text) :
    Text.isUnbroken token = true := by
  have nonempty : ∀ literal ∈ tokenizer.literals, literal ≠ "" :=
    fun literal isLiteral =>
      (Text.isUnbroken_iff.mp (unbroken literal isLiteral)).1
  obtain ⟨first, rest, notBlank, rfl⟩ := exists_text_of_mem_tokensAfter member
  have positive : 0 < tokenizer.tokenLength (first :: rest) :=
    tokenLength_pos nonempty notBlank
  rcases tokenizer.take_tokenLength (first :: rest) with isLiteral | isWord
  · exact unbroken _ isLiteral
  · refine Text.isUnbroken_iff.mpr ⟨?_, fun character within => ?_⟩
    · intro empty
      have characters := congrArg String.toList empty
      rw [String.toList_ofList] at characters
      rcases List.take_eq_nil_iff.mp characters with zero | none
      · omega
      · cases none
    · rw [isWord, wordAt, String.toList_ofList] at within
      exact isBlank_of_mem_take_wordLength _ within

/-- Tokenizing an input never stops, as the lexer of its token types never does.
The tokens are not empty and hold no blank, they lie in the input one after
another with nothing but blanks outside of them, and one after another they are
the input without its blanks. -/
theorem tokenize_loses_nothing {literals : List String}
    (made : ofLiterals? literals = .ok tokenizer)
    (explain : String → Nat → String) (input : String) :
    TokenType.lexAfter tokenizer.tokenTypes 0 input.toList =
        .ok (tokenizer.tokenize input) ∧
      tokenizer.scan explain input = .ok (tokenizer.tokenize input) ∧
      (∀ token ∈ tokenizer.tokenize input, token ≠ "" ∧
        ∀ character ∈ token.toList, Text.isBlank character = false) ∧
      (∃ placed : List PlacedToken,
        placed.map PlacedToken.token = tokenizer.tokenize input ∧
          IsLayout input.toList 0 placed) ∧
      String.join (tokenizer.tokenize input) =
        String.ofList (input.toList.filter fun character =>
          !Text.isBlank character) := by
  have nonempty : ∀ literal ∈ tokenizer.literals, literal ≠ "" :=
    fun literal => ne_empty_of_mem_literals made
  have unbroken : ∀ literal ∈ tokenizer.literals,
      Text.isUnbroken literal = true := fun literal member =>
    (ofLiterals?_eq_ok_iff.mp made).1 literal
      ((mem_literals_of_ofLiterals? made).mp member)
  have tokensUnbroken : ∀ token ∈ tokenizer.tokenize input,
      Text.isUnbroken token = true :=
    fun token => isUnbroken_of_mem_tokensAfter unbroken
  have layout := tokenizer.isLayout_placedTokens nonempty input
  refine ⟨lexAfter_tokenTypes nonempty 0 input.toList,
    scan_eq_ok nonempty explain input,
    fun token member => Text.isUnbroken_iff.mp (tokensUnbroken token member),
    ⟨_, map_token_placedTokens input, layout⟩, ?_⟩
  have characters := layout.filter_drop fun placed member =>
    tokensUnbroken placed.token (by
      rw [← map_token_placedTokens]
      exact List.mem_map_of_mem member)
  rw [List.drop_zero] at characters
  apply String.toList_injective
  rw [String.toList_join, String.toList_ofList, characters,
    ← map_token_placedTokens, List.flatMap_map]

/-- Literals that overlap words, look like patterns or lie outside of the basic
plane of characters are read, and only the gaps are lost. -/
theorem tokenize_loses_nothing_overlapping :
    ∃ tokenizer, ofLiterals? ["IN", "c=", "a+", "INc", "😀"] =
        .ok tokenizer ∧
      (∀ explain, tokenizer.scan explain "\u3000INc=x😀a+[INcd\n" =
        .ok ["INc", "=x", "😀", "a+", "[INcd"]) ∧
      String.join ["INc", "=x", "😀", "a+", "[INcd"] =
        "INc=x😀a+[INcd" := by
  let tokenizer : Tokenizer := ⟨["INc", "IN", "a+", "c=", "😀"]⟩
  have made : ofLiterals? ["IN", "c=", "a+", "INc", "😀"] =
      .ok tokenizer := by
    decide +kernel
  have tokens : tokenizer.tokenize "\u3000INc=x😀a+[INcd\n" =
      ["INc", "=x", "😀", "a+", "[INcd"] := by
    decide +kernel
  refine ⟨tokenizer, made, fun explain => ?_, ?_⟩
  · obtain ⟨-, scanned, -⟩ :=
      tokenize_loses_nothing made explain "\u3000INc=x😀a+[INcd\n"
    rw [scanned, tokens]
  · obtain ⟨-, -, -, -, joined⟩ := tokenize_loses_nothing made
      (fun _ _ => "") "\u3000INc=x😀a+[INcd\n"
    rw [tokens] at joined
    exact joined.trans (by decide +kernel)

end Tokenizer

end SemanticGrammar
