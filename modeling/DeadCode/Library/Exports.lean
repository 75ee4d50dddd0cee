import DeadCode.Closure
import DeadCode.Symbol.Table

/-!
Chains of exports. A file passes on a name of another one if a chain of exports leads there and every
export on the way lets the name through.
-/
namespace DeadCode

/-- Exports with the files they lead to. -/
structure ExportGraph where
  edges : List (UriDirective × Path)
deriving DecidableEq, Repr

namespace ExportGraph

def empty : ExportGraph := ⟨[]⟩

def add (graph : ExportGraph) (directive : UriDirective) : ExportGraph :=
  match directive.resolved with
  | some target => ⟨graph.edges ++ [(directive, target)]⟩
  | none => graph

def edgeCount (graph : ExportGraph) : Nat := graph.edges.length

def ofTable (table : SymbolTable) : ExportGraph :=
  table.exports.foldl add empty

def next (graph : ExportGraph) (symbol : String) (file : Path) : List Path :=
  (graph.edges.filter fun (directive, _) =>
    directive.source.same file && directive.permits symbol).map (·.2)

/-- The files that a name comes from by way of exports. -/
def sources (graph : ExportGraph) (symbol : String) (start : Path) : List Path :=
  closure Path.components (graph.next symbol) (graph.edges.map (·.2.components))
    (graph.next symbol start)

/-- Whether a chain of exports that let a name through leads from one file to another. -/
def reaches (graph : ExportGraph) (symbol : String) (start target : Path) : Bool :=
  start.same target || (graph.sources symbol start).any (·.same target)

end ExportGraph
end DeadCode
