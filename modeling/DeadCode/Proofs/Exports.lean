import DeadCode.Library.Exports
import DeadCode.Proofs.Closure

/-!
Export graphs follow chains of exports exactly, whatever cycles the exports form.
-/
namespace DeadCode

/-- A finite chain of exports from one file to another, all of which let a symbol through. A file has
the empty chain to itself, however it is written. -/
inductive ExportChain (exports : List UriDirective) (symbol : String) : Path → Path → Prop where
  | here {start target : Path} (arrived : start.same target) : ExportChain exports symbol start target
  | through {start target next : Path} {directive : UriDirective} (stated : directive ∈ exports)
      (leaves : directive.source.same start) (leads : directive.resolved = some next)
      (permits : directive.permits symbol) (rest : ExportChain exports symbol next target) :
      ExportChain exports symbol start target

namespace ExportGraph

/-- The edges of a graph that was built from exports are those that lead to a file. -/
private theorem mem_edges_foldl {exports : List UriDirective} {graph : ExportGraph}
    {directive : UriDirective} {target : Path} :
    (directive, target) ∈ (exports.foldl add graph).edges ↔
      (directive, target) ∈ graph.edges ∨ directive ∈ exports ∧ directive.resolved = some target := by
  induction exports generalizing graph with
  | nil => simp
  | cons first rest ih =>
    rw [List.foldl_cons, ih, add]
    cases leads : first.resolved with
    | none => grind
    | some file => grind

private theorem mem_next {exports : List UriDirective} {symbol : String} {file target : Path} :
    target ∈ (exports.foldl add empty).next symbol file ↔
      ∃ directive ∈ exports, directive.source.same file ∧ directive.permits symbol ∧
        directive.resolved = some target := by
  simp only [next, List.mem_map, List.mem_filter, Prod.exists, mem_edges_foldl, empty, List.not_mem_nil,
    false_or, Bool.and_eq_true]
  grind

/-- What a file exports does not depend on how the file is written. -/
private theorem next_congr (graph : ExportGraph) (symbol : String) {a b : Path}
    (same : a.components = b.components) : graph.next symbol a = graph.next symbol b := by
  simp only [next, Path.same, same]

private theorem chain_of_steps {exports : List UriDirective} {symbol : String} {first last target : Path}
    (steps : Relation.ReflTransGen (fun a b => b ∈ (exports.foldl add empty).next symbol a) first last)
    (arrived : last.same target) : ExportChain exports symbol first target := by
  induction steps using Relation.ReflTransGen.head_induction_on with
  | refl => exact .here arrived
  | head step _ ih =>
    obtain ⟨directive, stated, leaves, permits, leads⟩ := mem_next.mp step
    exact .through stated leaves leads permits ih

private theorem steps_of_chain {exports : List UriDirective} {symbol : String} {start target : Path}
    (chain : ExportChain exports symbol start target) :
    ∃ last, Relation.ReflTransGen (fun a b => b ∈ (exports.foldl add empty).next symbol a) start last ∧
      last.same target := by
  induction chain with
  | @here start _ arrived => exact ⟨start, .refl, arrived⟩
  | through stated leaves leads permits _ ih =>
    obtain ⟨last, steps, arrived⟩ := ih
    exact ⟨last, .head (mem_next.mpr ⟨_, stated, leaves, permits, leads⟩) steps, arrived⟩

/-- The walk over the graph finds a file exactly if some chain of exports leads there. -/
theorem reaches_iff_chain {exports : List UriDirective} {symbol : String} {start target : Path} :
    (exports.foldl add empty).reaches symbol start target ↔ ExportChain exports symbol start target := by
  let graph := exports.foldl add empty
  have open_next (file : Path) : ∀ after ∈ graph.next symbol file,
      after.components ∈ graph.edges.map (·.2.components) := by
    intro after member
    obtain ⟨directive, stated, -, -, leads⟩ := mem_next.mp member
    exact List.mem_map.mpr ⟨(directive, after), mem_edges_foldl.mpr (.inr ⟨stated, leads⟩), rfl⟩
  rw [reaches, Bool.or_eq_true, List.any_eq_true]
  constructor
  · rintro (arrived | ⟨file, member, arrived⟩)
    · exact .here arrived
    · obtain ⟨first, step, steps⟩ := reach_of_mem_closure member
      exact chain_of_steps (.head step steps) arrived
  · intro chain
    obtain ⟨last, steps, arrived⟩ := steps_of_chain chain
    rcases Relation.ReflTransGen.cases_head steps with rfl | ⟨first, step, steps⟩
    · exact .inl arrived
    · obtain ⟨met, member, equal⟩ := exists_mem_closure
        (fun a b same => by rw [next_congr graph symbol same]) open_next step
        (open_next start first step) steps
      exact .inr ⟨met, member, Path.same_iff.mpr (equal.trans (Path.same_iff.mp arrived))⟩

end ExportGraph

/-- Chains depend on which exports there are, not on their order or number. -/
theorem ExportChain.mono {exports more : List UriDirective} {symbol : String} {start target : Path}
    (included : exports ⊆ more) (chain : ExportChain exports symbol start target) :
    ExportChain more symbol start target := by
  induction chain with
  | here arrived => exact .here arrived
  | through stated leaves leads permits _ ih => exact .through (included stated) leaves leads permits ih

end DeadCode
