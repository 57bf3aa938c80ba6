import SemanticGrammar.Chart.Search
import SemanticGrammar.Proofs.DerivationTree

/-!
# Trees over spans of tokens

A tree that is placed at a position of a token list covers a span there, and
each of its nodes is placed at a cell.  The paths of the tree lead from the
root downward, and a tree is free of cycles when no path goes through one cell
twice.

A derivation in which no head recurs along a path with the same number of
tokens is free of cycles, so every derivation shrinks to one that is and that
reads the same tokens.
-/

namespace SemanticGrammar

/-! ## Parts of a token list -/

/-- Whether some tokens are those of a span. -/
def Occupies (tokens part : List String) (first last : Nat) : Prop :=
  first + part.length = last ∧ part <+: tokens.drop first

section Occupies

variable {tokens : List String} {first last : Nat}

@[simp]
theorem occupies_nil : Occupies tokens [] first last ↔ first = last := by
  simp [Occupies]

theorem occupies_singleton {token : String} :
    Occupies tokens [token] first last ↔
      last = first + 1 ∧ tokens[first]? = some token := by
  have start : [token] <+: tokens.drop first ↔ tokens[first]? = some token := by
    rw [← List.head?_drop]
    cases tokens.drop first with
    | nil => simp
    | cons other rest =>
        simp only [List.cons_prefix_cons, List.nil_prefix, and_true,
          List.head?_cons, Option.some.injEq]
        exact eq_comm
  rw [Occupies, start, List.length_singleton]
  exact and_congr_left fun _ => eq_comm

theorem occupies_append {front back : List String} :
    Occupies tokens (front ++ back) first last ↔
      ∃ split, Occupies tokens front first split ∧
        Occupies tokens back split last := by
  constructor
  · rintro ⟨length, stands⟩
    refine ⟨first + front.length,
      ⟨rfl, (List.prefix_append _ _).trans stands⟩, ?_, ?_⟩
    · rw [List.length_append] at length
      omega
    · obtain ⟨rest, whole⟩ := stands
      refine ⟨rest, ?_⟩
      rw [← List.drop_drop, ← whole, List.append_assoc, List.drop_left]
  · rintro ⟨split, ⟨rfl, rest, frontWhole⟩, rfl, rest', backWhole⟩
    refine ⟨by simp [Nat.add_assoc], rest', ?_⟩
    rw [← List.drop_drop, ← frontWhole, List.drop_left] at backWhole
    rw [← frontWhole, List.append_assoc, backWhole]

theorem occupies_whole {part : List String} :
    Occupies tokens part 0 tokens.length ↔ part = tokens := by
  constructor
  · rintro ⟨length, stands⟩
    exact stands.eq_of_length (by simpa using length)
  · rintro rfl
    exact ⟨Nat.zero_add _, by simp⟩

theorem Occupies.first_le {part : List String}
    (occupies : Occupies tokens part first last) : first ≤ last := by
  have length := occupies.1
  omega

end Occupies

namespace Tree

/-! ## Paths -/

mutual

/-- The paths of a tree that is placed at a position, from the root downward.
A path is the list of the cells that it goes through. -/
def pathsFrom (start : Nat) : Tree → List (List Cell)
  | leaf _ _ => [[]]
  | node head children =>
      let cell : Cell := ⟨head, start, start + totalWidth children⟩
      [cell] :: (pathsOfAllFrom start children).map (cell :: ·)
  | empty => [[]]

def pathsOfAllFrom (start : Nat) : List Tree → List (List Cell)
  | [] => []
  | tree :: trees =>
      tree.pathsFrom start ++ pathsOfAllFrom (start + tree.width) trees

end

mutual

/-- Whether no path of a tree that is placed at a position goes through a cell
twice or through a blocked one. -/
def Avoids (blocked : List Cell) (start : Nat) : Tree → Prop
  | leaf _ _ => True
  | node head children =>
      let cell : Cell := ⟨head, start, start + totalWidth children⟩
      cell ∉ blocked ∧ AvoidsAll (cell :: blocked) start children
  | empty => True

/-- Whether several trees, placed one after the other, avoid the same
cells. -/
def AvoidsAll (blocked : List Cell) (start : Nat) : List Tree → Prop
  | [] => True
  | tree :: trees =>
      tree.Avoids blocked start ∧
        AvoidsAll blocked (start + tree.width) trees

end

@[simp]
theorem avoids_leaf (blocked : List Cell) (start : Nat) (category : Symbol)
    (token : String) : (leaf category token).Avoids blocked start := by
  simp [Avoids]

@[simp]
theorem avoids_empty (blocked : List Cell) (start : Nat) :
    empty.Avoids blocked start := by
  simp [Avoids]

theorem avoids_node {blocked : List Cell} {start : Nat} {head : Symbol}
    {children : List Tree} :
    (node head children).Avoids blocked start ↔
      (⟨head, start, start + totalWidth children⟩ : Cell) ∉ blocked ∧
        AvoidsAll (⟨head, start, start + totalWidth children⟩ :: blocked)
          start children := by
  simp [Avoids]

theorem avoidsAll_iff {blocked : List Cell} {start : Nat}
    {trees : List Tree} :
    AvoidsAll blocked start trees ↔
      ∀ before tree after, trees = before ++ tree :: after →
        tree.Avoids blocked (start + totalWidth before) := by
  induction trees generalizing start with
  | nil => simp [AvoidsAll]
  | cons first rest ih =>
      simp only [AvoidsAll, ih]
      constructor
      · rintro ⟨firstAvoids, restAvoid⟩ before tree after same
        cases before with
        | nil =>
            obtain ⟨rfl, -⟩ := List.cons.inj same
            exact firstAvoids
        | cons earlier before =>
            obtain ⟨rfl, sameRest⟩ := List.cons.inj same
            rw [totalWidth_cons, ← Nat.add_assoc]
            exact restAvoid before tree after sameRest
      · intro each
        refine ⟨each [] first rest rfl, fun before tree after same => ?_⟩
        have placed := each (first :: before) tree after (by simp [same])
        rwa [totalWidth_cons, ← Nat.add_assoc] at placed

theorem mem_pathsOfAllFrom {start : Nat} {trees : List Tree}
    {path : List Cell} :
    path ∈ pathsOfAllFrom start trees ↔
      ∃ before tree after, trees = before ++ tree :: after ∧
        path ∈ tree.pathsFrom (start + totalWidth before) := by
  induction trees generalizing start with
  | nil => simp [pathsOfAllFrom]
  | cons first rest ih =>
      simp only [pathsOfAllFrom, List.mem_append, ih]
      constructor
      · rintro (inFirst | ⟨before, tree, after, same, inRest⟩)
        · exact ⟨[], first, rest, rfl, inFirst⟩
        · refine ⟨first :: before, tree, after, by simp [same], ?_⟩
          rwa [totalWidth_cons, ← Nat.add_assoc]
      · rintro ⟨before, tree, after, same, inTree⟩
        cases before with
        | nil =>
            obtain ⟨rfl, -⟩ := List.cons.inj same
            exact Or.inl inTree
        | cons earlier before =>
            obtain ⟨rfl, sameRest⟩ := List.cons.inj same
            rw [totalWidth_cons, ← Nat.add_assoc] at inTree
            exact Or.inr ⟨before, tree, after, sameRest, inTree⟩

theorem avoids_iff_paths {blocked : List Cell} {start : Nat} {tree : Tree} :
    tree.Avoids blocked start ↔
      ∀ path ∈ tree.pathsFrom start,
        path.Nodup ∧ ∀ cell ∈ path, cell ∉ blocked := by
  induction tree generalizing blocked start with
  | leaf category token => simp [pathsFrom]
  | empty => simp [pathsFrom]
  | node head children ih =>
      have childAvoids : ∀ before child after,
          children = before ++ child :: after → ∀ cells,
          (child.Avoids cells (start + totalWidth before) ↔
            ∀ path ∈ child.pathsFrom (start + totalWidth before),
              path.Nodup ∧ ∀ cell ∈ path, cell ∉ cells) := by
        intro before child after same cells
        exact ih child (by simp [same])
      rw [avoids_node, avoidsAll_iff]
      simp only [pathsFrom, List.forall_mem_cons, List.forall_mem_map,
        mem_pathsOfAllFrom]
      constructor
      · rintro ⟨ownFree, each⟩
        refine ⟨by simpa using ownFree, ?_⟩
        rintro path ⟨before, child, after, same, inChild⟩
        obtain ⟨distinct, free⟩ :=
          (childAvoids before child after same _).mp
            (each before child after same) path inChild
        refine ⟨List.nodup_cons.mpr ⟨?_, distinct⟩, ?_⟩
        · exact fun recurs => free _ recurs List.mem_cons_self
        · refine ⟨ownFree, fun cell member isBlocked => ?_⟩
          exact free cell member (List.mem_cons_of_mem _ isBlocked)
      · rintro ⟨⟨-, ownFree⟩, each⟩
        refine ⟨by simpa using ownFree, fun before child after same => ?_⟩
        rw [childAvoids before child after same]
        intro path inChild
        obtain ⟨ownDistinct, -, free⟩ :=
          each path ⟨before, child, after, same, inChild⟩
        obtain ⟨isNew, distinct⟩ := List.nodup_cons.mp ownDistinct
        refine ⟨distinct, fun cell member => ?_⟩
        rw [List.mem_cons, not_or]
        refine ⟨?_, free cell member⟩
        rintro rfl
        exact isNew member

/-! ## Freedom from cycles -/

/-- A tree in which no head recurs with the same number of tokens avoids every
cell around it that has none of its nodes' heads and lengths. -/
theorem Unrepeated.avoids {blocked : List Cell} {start : Nat} {tree : Tree}
    (unrepeated : tree.Unrepeated Prod.mk)
    (around : ∀ cell ∈ blocked,
      cell.first ≤ start ∧ start + tree.width ≤ cell.last)
    (differs : ∀ cell ∈ blocked, ∀ head children,
      node head children ∈ tree.subtrees →
        (head, totalWidth children) ≠ (cell.symbol, cell.last - cell.first)) :
    tree.Avoids blocked start := by
  induction tree generalizing blocked start with
  | leaf category token => exact avoids_leaf blocked start category token
  | empty => exact avoids_empty blocked start
  | node head children ih =>
      obtain ⟨ownFresh, childrenUnrepeated⟩ := unrepeated_node.mp unrepeated
      rw [avoids_node, avoidsAll_iff]
      constructor
      · intro isBlocked
        apply differs _ isBlocked head children (mem_subtrees_self _)
        simp
      · intro before child after same
        have member : child ∈ children := by simp [same]
        have fits : totalWidth before + child.width ≤ totalWidth children := by
          rw [same, totalWidth_append, totalWidth_cons]
          omega
        apply ih child member (childrenUnrepeated child member)
        · rw [List.forall_mem_cons]
          refine ⟨⟨by simp, by simp only; omega⟩, fun cell isBlocked => ?_⟩
          have bounds := around cell isBlocked
          rw [width_node] at bounds
          omega
        · rw [List.forall_mem_cons]
          refine ⟨fun inner innerChildren within => ?_,
            fun cell isBlocked inner innerChildren within => ?_⟩
          · have fresh := ownFresh inner innerChildren
              (mem_subtreesOfAll.mpr ⟨child, member, within⟩)
            simpa using fresh
          · exact differs cell isBlocked inner innerChildren
              (mem_subtrees_of_child member within)

end Tree

/-- Every derivation shrinks to one that is free of cycles and reads the same
tokens. -/
theorem Grammar.Derives.exists_avoids {grammar : Grammar} {symbol : Symbol}
    {tree : Tree} (derived : grammar.Derives symbol tree) (start : Nat) :
    ∃ shrunk, grammar.Derives symbol shrunk ∧
      shrunk.tokens = tree.tokens ∧ shrunk.Avoids [] start := by
  obtain ⟨shrunk, shrunkDerived, shrinks, unrepeated⟩ :=
    derived.exists_unrepeated Prod.mk
      fun same => congrArg Prod.fst same
  have sameLeaves := shrinks.leaves_eq
    fun _ _ _ same => congrArg Prod.snd same
  refine ⟨shrunk, shrunkDerived, ?_,
    unrepeated.avoids (by simp) (by simp)⟩
  simp only [Tree.tokens, sameLeaves]

end SemanticGrammar
