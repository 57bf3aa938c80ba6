import SemanticGrammar.Symbol
import SemanticGrammar.Text.Quoted

/-!
# Parse trees

A tree is a leaf that reads one token as a lexical category, a node that
makes its head from its children, or the empty tree.  Each tree has a tag,
the symbol it is a tree of, and reads its tokens from left to right.
-/

namespace SemanticGrammar

inductive Tree where
  /-- One token read as a lexical category. -/
  | leaf (category : Symbol) (token : String)
  /-- A head made from its children. -/
  | node (head : Symbol) (children : List Tree)
  /-- The tree of the empty symbol. -/
  | empty
  deriving Repr, Inhabited

namespace Tree

/-- The symbol that a tree is a tree of. -/
def tag : Tree → Symbol
  | leaf category _ => category
  | node head _ => head
  | empty => Symbol.empty

mutual

/-- The leaves of a tree from left to right, each as its category and its
token. -/
def leaves : Tree → List (Symbol × String)
  | leaf category token => [(category, token)]
  | node _ children => leavesOfAll children
  | empty => []

def leavesOfAll : List Tree → List (Symbol × String)
  | [] => []
  | tree :: trees => tree.leaves ++ leavesOfAll trees

end

/-- The tokens that a tree reads, from left to right. -/
def tokens (tree : Tree) : List String :=
  tree.leaves.map Prod.snd

mutual

/-- Bracketed text for a tree under a naming of the symbols.  The name of a
literal is its quoted text, which is then not written a second time. -/
def render (name : Symbol → String) : Tree → String
  | leaf category token =>
      let quoted := Text.quote token
      if name category = quoted then quoted else name category ++ " " ++ quoted
  | node head children =>
      name head ++ "(" ++ ", ".intercalate (renderAll name children) ++ ")"
  | empty => "ε"

def renderAll (name : Symbol → String) : List Tree → List String
  | [] => []
  | tree :: trees => tree.render name :: renderAll name trees

end

end Tree

end SemanticGrammar
