import SemanticGrammar.Parsable.Basic

/-!
# Workspaces

A workspace is a registry with the closures that have been computed over it.
A closure that is known is not computed again, and known closures show in the
order in which later ones discover their symbols.  A closure that fails is
not kept.
-/

namespace SemanticGrammar

/-- A registry with the closures computed so far. -/
structure Workspace (V : Type) where
  registry : Registry V
  known : KnownClosures

namespace Workspace

variable {V : Type}

def ofRegistry (registry : Registry V) : Workspace V :=
  ⟨registry, []⟩

/-- Keep a closure, unless the one of that root is known. -/
def keep (workspace : Workspace V) (root : Symbol) (closure : List Symbol) :
    Workspace V :=
  if (workspace.known.lookup root).isSome then workspace
  else { workspace with known := workspace.known ++ [(root, closure)] }

/-- The closure of a root, which is then known. -/
def closure (workspace : Workspace V) (root : Symbol) :
    Except Fault (List Symbol) × Workspace V :=
  match workspace.registry.closure workspace.known root with
  | .error fault => (.error fault, workspace)
  | .ok closure => (.ok closure, workspace.keep root closure)

/-- The derivation of a root, whose closure is then known. -/
def derivation (workspace : Workspace V) (root : Symbol) :
    Except Fault (Derivation V) × Workspace V :=
  let (closure, workspace) := workspace.closure root
  (closure.map fun symbols => ⟨workspace.registry, root, symbols⟩, workspace)

/-- A parsable for a root, whose closure is then known even if the parsable
cannot be made. -/
def parsable (workspace : Workspace V) (root : Symbol)
    (options : ParsingOptions) :
    Except Fault (Parsable V) × Workspace V :=
  let (derivation, workspace) := workspace.derivation root
  (derivation.bind fun derivation =>
      Parsable.ofDerivation? derivation options,
    workspace)

end Workspace

end SemanticGrammar
