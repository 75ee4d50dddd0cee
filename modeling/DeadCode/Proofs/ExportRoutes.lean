import DeadCode.Proofs.Exports
import Mathlib.Data.List.Chain

/-!
Routes through an export graph, written out as lists of exports. A name is passed on exactly along such a route,
whatever loops the exports form and however often a file is exported; no file is entered twice on the way.
-/
namespace DeadCode.ExportGraph

/-- A list of exports that lead from a file to another one: the first stands in the one file, each leads to where the
next one stands, and the last leads to the other file. All of them show the symbol, or show nothing in particular, and
none hides it. -/
structure IsRoute (exports : List UriDirective) (symbol : String) (start target : Path) (route : List UriDirective) :
    Prop where
  nonempty : route ≠ []
  stated : ∀ directive ∈ route, directive ∈ exports
  shown : ∀ directive ∈ route, directive.shown = [] ∨ symbol ∈ directive.shown
  unhidden : ∀ directive ∈ route, symbol ∉ directive.hidden
  leaves : ∀ directive ∈ route.head?, directive.source.same start
  linked : route.IsChain fun directive following =>
    ∃ file, directive.resolved = some file ∧ following.source.same file
  arrives : ∀ directive ∈ route.getLast?, ∃ file, directive.resolved = some file ∧ file.same target

variable {exports : List UriDirective} {symbol : String} {start target : Path}

private theorem permits_iff {directive : UriDirective} :
    directive.permits symbol ↔ (directive.shown = [] ∨ symbol ∈ directive.shown) ∧ symbol ∉ directive.hidden := by
  simp [UriDirective.permits]

private theorem isRoute_single {directive : UriDirective} {file : Path} (stated : directive ∈ exports)
    (leaves : directive.source.same start) (leads : directive.resolved = some file)
    (permits : directive.permits symbol) (arrived : file.same target) :
    IsRoute exports symbol start target [directive] where
  nonempty := List.cons_ne_nil _ _
  stated := List.forall_mem_singleton.mpr stated
  shown := List.forall_mem_singleton.mpr (permits_iff.mp permits).1
  unhidden := List.forall_mem_singleton.mpr (permits_iff.mp permits).2
  leaves := by simpa using leaves
  linked := .singleton directive
  arrives := by simpa using ⟨file, leads, arrived⟩

private theorem IsRoute.cons {directive : UriDirective} {file : Path} {route : List UriDirective}
    (rest : IsRoute exports symbol file target route) (stated : directive ∈ exports)
    (leaves : directive.source.same start) (leads : directive.resolved = some file)
    (permits : directive.permits symbol) : IsRoute exports symbol start target (directive :: route) where
  nonempty := List.cons_ne_nil _ _
  stated := List.forall_mem_cons.mpr ⟨stated, rest.stated⟩
  shown := List.forall_mem_cons.mpr ⟨(permits_iff.mp permits).1, rest.shown⟩
  unhidden := List.forall_mem_cons.mpr ⟨(permits_iff.mp permits).2, rest.unhidden⟩
  leaves := by simpa using leaves
  linked := List.isChain_cons.mpr ⟨fun following first => ⟨file, leads, rest.leaves following first⟩, rest.linked⟩
  arrives := by
    rw [List.getLast?_cons_of_ne_nil rest.nonempty]
    exact rest.arrives

private theorem exists_route (chain : ExportChain exports symbol start target) :
    start.same target ∨ ∃ route, IsRoute exports symbol start target route := by
  induction chain with
  | here arrived => exact .inl arrived
  | @through start target next directive stated leaves leads permits _ ih =>
    rcases ih with arrived | ⟨route, rest⟩
    · exact .inr ⟨[directive], isRoute_single stated leaves leads permits arrived⟩
    · exact .inr ⟨directive :: route, rest.cons stated leaves leads permits⟩

private theorem chain_of_route {route : List UriDirective} (isRoute : IsRoute exports symbol start target route) :
    ExportChain exports symbol start target := by
  induction route generalizing start with
  | nil => exact absurd rfl isRoute.nonempty
  | cons directive route ih =>
    obtain ⟨stated, statedRest⟩ := List.forall_mem_cons.mp isRoute.stated
    obtain ⟨shown, shownRest⟩ := List.forall_mem_cons.mp isRoute.shown
    obtain ⟨unhidden, unhiddenRest⟩ := List.forall_mem_cons.mp isRoute.unhidden
    have leaves := isRoute.leaves directive rfl
    have permits : directive.permits symbol := permits_iff.mpr ⟨shown, unhidden⟩
    cases route with
    | nil =>
      obtain ⟨file, leads, arrived⟩ := isRoute.arrives directive rfl
      exact .through stated leaves leads permits (.here arrived)
    | cons following route =>
      obtain ⟨⟨file, leads, follows⟩, linkedRest⟩ := List.isChain_cons_cons.mp isRoute.linked
      refine .through stated leaves leads permits (ih ⟨List.cons_ne_nil _ _, statedRest, shownRest, unhiddenRest, ?_,
        linkedRest, isRoute.arrives⟩)
      simpa using follows

private theorem edgeCount_foldl (graph : ExportGraph) :
    (exports.foldl add graph).edgeCount = graph.edgeCount + exports.countP (·.resolved.isSome) := by
  induction exports generalizing graph with
  | nil => rfl
  | cons first rest ih =>
    rw [List.foldl_cons, ih, List.countP_cons, add]
    cases first.resolved with
    | none => rfl
    | some file => simp [edgeCount]; omega

/-- A symbol is passed on from a file to another one if they are the same, or if there is a route of exports between
them that lets it through. The search enters no file twice, so loops do not hold it up. -/
theorem reaches_iff_exists_route (exports : List UriDirective) (symbol : String) (start target : Path) :
    let graph := exports.foldl add empty
    (graph.reaches symbol start target ↔
      start.same target ∨ ∃ route, IsRoute exports symbol start target route) ∧
    ((graph.sources symbol start).map Path.components).Nodup ∧
    graph.edgeCount = exports.countP (·.resolved.isSome) := by
  refine ⟨reaches_iff_chain.trans ⟨exists_route, ?_⟩, nodup_keys_closure _ _ _ _, ?_⟩
  · rintro (arrived | ⟨route, isRoute⟩)
    · exact .here arrived
    · exact chain_of_route isRoute
  · rw [edgeCount_foldl]
    exact Nat.zero_add _

end DeadCode.ExportGraph
