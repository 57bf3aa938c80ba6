import SemanticGrammar.Workspace

/-!
# Sessions

A session is the course of the calls that are made over one family of
declarations.  It has a workspace, the derivations that were read and the
parsables that were made.  The derivation of a root is kept once its closure
is found, and it serves all later calls for that root.  A call that fails
leaves behind what was computed before it failed.
-/

namespace SemanticGrammar

inductive Use where
  | tokenize (input : String)
  | parse (input : String)
  | parseTrees (input : String)
  | parseValues (input : String)
  | fromTree (tree : Tree)

def Parsable.afterUse {V : Type} (parsable : Parsable V) : Use → Parsable V
  | .tokenize _ => parsable
  | .parse input => (parsable.parse input).parsable
  | .parseTrees input => (parsable.parseTrees input).parsable
  | .parseValues input => (parsable.parseValues input).parsable
  | .fromTree _ => parsable

def Parsable.afterUses {V : Type} (parsable : Parsable V) (uses : List Use) :
    Parsable V :=
  uses.foldl afterUse parsable

inductive Call where
  | closure (root : Symbol)
  /-- A derivation computes nothing before it is read. -/
  | derivation (root : Symbol) (isRead : Bool)
  | parsable (root : Symbol) (options : ParsingOptions)
  /-- A use of the parsable that was made as the one at an index. -/
  | use (index : Nat) (use : Use)

structure Session (V : Type) where
  workspace : Workspace V
  derivations : List (Symbol × Derivation V)
  parsables : List (Parsable V)

namespace Session

variable {V : Type}

def ofRegistry (registry : Registry V) : Session V :=
  ⟨.ofRegistry registry, [], []⟩

/-- The closure of a root, which is then known. -/
def closure (session : Session V) (root : Symbol) :
    Except Fault (List Symbol) × Session V :=
  let (closure, workspace) := session.workspace.closure root
  (closure, { session with workspace := workspace })

/-- The derivation of a root: the one that is kept, or else a new one, which
is kept from then on. -/
def derivation (session : Session V) (root : Symbol) :
    Except Fault (Derivation V) × Session V :=
  match session.derivations.lookup root with
  | some kept => (.ok kept, session)
  | none =>
      match session.workspace.derivation root with
      | (.error fault, workspace) =>
          (.error fault, { session with workspace := workspace })
      | (.ok derivation, workspace) =>
          (.ok derivation,
            { session with
              workspace := workspace
              derivations := session.derivations ++ [(root, derivation)] })

def parsable (session : Session V) (root : Symbol) (options : ParsingOptions) :
    Except Fault (Parsable V) × Session V :=
  let (derivation, session) := session.derivation root
  match derivation.bind (Parsable.ofDerivation? · options) with
  | .error fault => (.error fault, session)
  | .ok parsable =>
      (.ok parsable,
        { session with parsables := session.parsables ++ [parsable] })

/-- The session after a call, whether the call fails or not. -/
def afterCall (session : Session V) : Call → Session V
  | .closure root => (session.closure root).2
  | .derivation root true => (session.derivation root).2
  | .derivation _ false => session
  | .parsable root options => (session.parsable root options).2
  | .use index use =>
      { session with
        parsables := session.parsables.modify index (·.afterUse use) }

def afterCalls (session : Session V) (calls : List Call) : Session V :=
  calls.foldl afterCall session

end Session

end SemanticGrammar
