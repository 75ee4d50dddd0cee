import DeadCode.Library.Access
import DeadCode.Proofs.Exports
import DeadCode.Proofs.SortedMap
import Mathlib.Data.List.Basic

/-!
The access that is worked out for a symbol is the one that a declarative rule allows. The rule speaks
of imports and of finite chains of exports, not of a walk or of the order in which imports are tried.
-/
namespace DeadCode
open DeadCode.Text

/-- Files that are written alike belong to one library. -/
theorem LibraryIndex.libraryOf_same (index : LibraryIndex) {a b : Path} (same : a.same b) :
    (index.libraryOf a).same (index.libraryOf b) := by
  rw [libraryOf, libraryOf, SortedMap.get?_congr index.libraries (Path.compare_eq_iff_same.mpr same)]
  cases index.libraries.get? b with
  | none => exact same
  | some library => exact Path.same_refl _

/-- Being in the same library is having the same library file. -/
theorem LibraryIndex.sameLibrary_iff (index : LibraryIndex) {a b : Path} :
    index.sameLibrary a b ↔ (index.libraryOf a).same (index.libraryOf b) := by
  rw [sameLibrary, Bool.or_eq_true]
  exact ⟨fun h => h.elim index.libraryOf_same id, .inr⟩

def SymbolTable.libraryOf (table : SymbolTable) (file : Path) : Path :=
  (LibraryIndex.ofTable table).libraryOf file

/-- An import holds in a file if the file states it, or the library of which the file is a part. -/
inductive ImportedIn (table : SymbolTable) (user : Path) (directive : UriDirective) : Prop where
  | own {directives : FileDirectives} (found : table.directives.get? user = some directives)
      (stated : directive ∈ directives.imports)
  | shared {directives : FileDirectives} (isPart : ¬ (table.libraryOf user).same user)
      (found : table.directives.get? (table.libraryOf user) = some directives)
      (stated : directive ∈ directives.imports)

/-- The ways in which a directive reaches a file or its library: by path, by address, or by way of
exports that all let the symbol through. -/
inductive LeadsTo (table : SymbolTable) (layout : PackageLayout) (symbol : String) (definedIn : Path)
    (directive : UriDirective) : Prop where
  | byPath {file target : Path} (home : target = definedIn ∨ target = table.libraryOf definedIn)
      (resolved : directive.resolved = some file) (arrived : file.same target)
  | byAddress {target : Path} (home : target = definedIn ∨ target = table.libraryOf definedIn)
      (scheme : startsWith directive.uri.toList "package:")
      (address : layout.uriOf? target = some directive.uri)
  | byExports {start target : Path} (home : target = definedIn ∨ target = table.libraryOf definedIn)
      (resolved : directive.resolved = some start)
      (chain : ExportChain table.exports symbol start target)

structure Admitted (table : SymbolTable) (layout : PackageLayout) (symbol : String)
    (definedIn user : Path) (directive : UriDirective) : Prop where
  holds : ImportedIn table user directive
  permits : directive.permits symbol
  leads : LeadsTo table layout symbol definedIn directive

inductive AccessRule (table : SymbolTable) (layout : PackageLayout) (symbol : String)
    (definedIn user : Path) : Access → Prop where
  | sameLibrary (same : (table.libraryOf definedIn).same (table.libraryOf user)) :
      AccessRule table layout symbol definedIn user ⟨true, []⟩
  | kept (apart : ¬ (table.libraryOf definedIn).same (table.libraryOf user))
      (hidden : Visibility.isPrivate symbol) : AccessRule table layout symbol definedIn user ⟨false, []⟩
  | imported {access : Access} (apart : ¬ (table.libraryOf definedIn).same (table.libraryOf user))
      (exposed : ¬ Visibility.isPrivate symbol)
      (ascending : access.prefixes.Pairwise fun a b => compare a b = .lt)
      (prefixes : ∀ name, name ∈ access.prefixes ↔
        ∃ directive, Admitted table layout symbol definedIn user directive ∧ directive.asName = some name)
      (bare : access.bare ↔
        (∃ directive, Admitted table layout symbol definedIn user directive ∧ directive.asName = none) ∨
        (¬ ∃ directive, Admitted table layout symbol definedIn user directive) ∧
          (Visibility.isCore definedIn ∨ symbol ∈ builtinTypes)) :
      AccessRule table layout symbol definedIn user access

namespace Access

private theorem mem_addName {name other : String} {names : List String} :
    other ∈ addName name names ↔ other = name ∨ other ∈ names := by
  induction names with
  | nil => simp [addName]
  | cons first rest ih =>
    rw [addName]
    split
    case h_1 => simp
    case h_2 equal =>
      obtain rfl : name = first := Std.LawfulEqOrd.eq_of_compare equal
      simp
    case h_3 =>
      rw [List.mem_cons, ih, List.mem_cons]
      tauto

private theorem ascending_addName (name : String) {names : List String}
    (ascending : names.Pairwise fun a b => compare a b = .lt) :
    (addName name names).Pairwise fun a b => compare a b = .lt := by
  induction names with
  | nil => exact List.pairwise_singleton _ _
  | cons first rest ih =>
    obtain ⟨below, later⟩ := List.pairwise_cons.mp ascending
    rw [addName]
    split
    case h_1 less =>
      refine List.pairwise_cons.mpr ⟨fun other member => ?_, ascending⟩
      rcases List.mem_cons.mp member with rfl | member
      · exact less
      · exact Std.TransCmp.lt_trans less (below other member)
    case h_2 => exact ascending
    case h_3 greater =>
      refine List.pairwise_cons.mpr ⟨fun other member => ?_, ih later⟩
      rcases mem_addName.mp member with rfl | member
      · exact Std.OrientedCmp.lt_of_gt greater
      · exact below other member

private theorem mem_prefixes_foldl {imports : List UriDirective} {access : Access} {name : String} :
    name ∈ (imports.foldl through access).prefixes ↔
      name ∈ access.prefixes ∨ ∃ directive ∈ imports, directive.asName = some name := by
  induction imports generalizing access with
  | nil => simp
  | cons first rest ih =>
    rw [List.foldl_cons, ih]
    cases given : first.asName with
    | none => simp [through, given]
    | some other => simp [through, given, mem_addName, or_assoc, or_left_comm, eq_comm]

private theorem bare_foldl {imports : List UriDirective} {access : Access} :
    (imports.foldl through access).bare ↔
      access.bare ∨ ∃ directive ∈ imports, directive.asName = none := by
  induction imports generalizing access with
  | nil => simp
  | cons first rest ih =>
    rw [List.foldl_cons, ih]
    cases given : first.asName <;> simp [through, given]

private theorem ascending_foldl (imports : List UriDirective) {access : Access}
    (ascending : access.prefixes.Pairwise fun a b => compare a b = .lt) :
    (imports.foldl through access).prefixes.Pairwise fun a b => compare a b = .lt := by
  induction imports generalizing access with
  | nil => exact ascending
  | cons first rest ih =>
    refine ih ?_
    cases given : first.asName with
    | none => simpa [through, given] using ascending
    | some name => simpa [through, given] using ascending_addName name ascending

/-- Imports give access as soon as there is one of them. -/
private theorem isVisible_foldl {imports : List UriDirective} :
    (imports.foldl through denied).isVisible ↔ imports ≠ [] := by
  constructor
  · rintro visible rfl
    simp [isVisible, denied] at visible
  · intro some_import
    obtain ⟨first, rest, rfl⟩ := List.exists_cons_of_ne_nil some_import
    rw [isVisible, Bool.or_eq_true]
    cases given : first.asName with
    | none => exact .inl (bare_foldl.mpr (.inr ⟨first, List.mem_cons_self, given⟩))
    | some name =>
      have listed : name ∈ ((first :: rest).foldl through denied).prefixes :=
        mem_prefixes_foldl.mpr (.inr ⟨first, List.mem_cons_self, given⟩)
      exact .inr (by simpa using List.ne_nil_of_mem listed)

/-- Access is known by its names and by whether the bare name is allowed. -/
private theorem eq_of_mem_iff {a b : Access} (bare : a.bare ↔ b.bare)
    (prefixes : ∀ name, name ∈ a.prefixes ↔ name ∈ b.prefixes)
    (first : a.prefixes.Pairwise fun x y => compare x y = .lt)
    (second : b.prefixes.Pairwise fun x y => compare x y = .lt) : a = b := by
  have nodup {names : List String} (ascending : names.Pairwise fun x y => compare x y = .lt) : names.Nodup :=
    ascending.imp fun less equal => by simp [equal] at less
  have same : a.prefixes = b.prefixes := by
    refine List.Perm.eq_of_pairwise (fun x y _ _ less more => ?_) first second
      ((List.perm_ext_iff_of_nodup (nodup first) (nodup second)).mpr prefixes)
    exact absurd more (by simp [Std.OrientedCmp.gt_of_lt less])
  have bare : a.bare = b.bare := Bool.eq_iff_iff.mpr bare
  cases a
  cases b
  simp_all

end Access

namespace Visibility
variable {table : SymbolTable} {layout : PackageLayout} {symbol : String} {definedIn user : Path}

private theorem mem_importsIn {file : Path} {directive : UriDirective} :
    directive ∈ importsIn table file ↔
      ∃ directives, table.directives.get? file = some directives ∧ directive ∈ directives.imports := by
  rw [importsIn]
  cases table.directives.get? file <;> simp

private theorem mem_importsOf {directive : UriDirective} :
    directive ∈ (ofTable table layout).importsOf user ↔ ImportedIn table user directive := by
  change directive ∈ importsIn table user ++
    (if (table.libraryOf user).same user then [] else importsIn table (table.libraryOf user)) ↔ _
  rw [List.mem_append, mem_importsIn]
  constructor
  · rintro (⟨directives, found, stated⟩ | member)
    · exact .own found stated
    · split at member
      · cases member
      · rename_i isPart
        obtain ⟨directives, found, stated⟩ := mem_importsIn.mp member
        exact .shared isPart found stated
  · rintro (⟨found, stated⟩ | ⟨isPart, found, stated⟩)
    · exact .inl ⟨_, found, stated⟩
    · rw [if_neg isPart]
      exact .inr (mem_importsIn.mpr ⟨_, found, stated⟩)

theorem targets_iff {directive : UriDirective} {file : Path} :
    (ofTable table layout).targets directive file ↔
      (∃ path, directive.resolved = some path ∧ path.same file) ∨
        startsWith directive.uri.toList "package:" ∧ layout.uriOf? file = some directive.uri := by
  rw [targets, Bool.or_eq_true, Option.any_eq_true, Bool.and_eq_true, beq_iff_eq]
  rfl

theorem leadsTo_iff {directive : UriDirective} :
    (ofTable table layout).leadsTo symbol definedIn directive ↔
      LeadsTo table layout symbol definedIn directive := by
  have reaches (start target : Path) : (ofTable table layout).exports.reaches symbol start target ↔
      ExportChain table.exports symbol start target := ExportGraph.reaches_iff_chain
  have library : (ofTable table layout).libraries.libraryOf definedIn = table.libraryOf definedIn := rfl
  simp only [leadsTo, Bool.or_eq_true, Option.any_eq_true, targets_iff, reaches, library]
  constructor
  · rintro (((⟨path, resolved, arrived⟩ | ⟨scheme, address⟩) | (⟨path, resolved, arrived⟩ |
      ⟨scheme, address⟩)) | ⟨start, resolved, (chain | chain)⟩)
    · exact .byPath (.inl rfl) resolved arrived
    · exact .byAddress (.inl rfl) scheme address
    · exact .byPath (.inr rfl) resolved arrived
    · exact .byAddress (.inr rfl) scheme address
    · exact .byExports (.inr rfl) resolved chain
    · exact .byExports (.inl rfl) resolved chain
  · rintro (⟨rfl | rfl, resolved, arrived⟩ | ⟨rfl | rfl, scheme, address⟩ | ⟨rfl | rfl, resolved, chain⟩)
    · exact .inl (.inl (.inl ⟨_, resolved, arrived⟩))
    · exact .inl (.inr (.inl ⟨_, resolved, arrived⟩))
    · exact .inl (.inl (.inr ⟨scheme, address⟩))
    · exact .inl (.inr (.inr ⟨scheme, address⟩))
    · exact .inr ⟨_, resolved, .inr chain⟩
    · exact .inr ⟨_, resolved, .inl chain⟩

private theorem mem_admitted {directive : UriDirective} :
    directive ∈ ((ofTable table layout).importsOf user).filter (fun directive =>
      directive.permits symbol && (ofTable table layout).leadsTo symbol definedIn directive) ↔
      Admitted table layout symbol definedIn user directive := by
  rw [List.mem_filter, mem_importsOf, Bool.and_eq_true, leadsTo_iff]
  exact ⟨fun ⟨holds, permits, leads⟩ => ⟨holds, permits, leads⟩, fun h => ⟨h.holds, h.permits, h.leads⟩⟩

private theorem resolve_rule :
    AccessRule table layout symbol definedIn user ((ofTable table layout).resolve symbol definedIn user) := by
  simp only [resolve]
  split
  case isTrue same => exact .sameLibrary ((LibraryIndex.sameLibrary_iff _).mp same)
  case isFalse apart =>
    rw [LibraryIndex.sameLibrary_iff] at apart
    split
    case isTrue hidden => exact .kept apart hidden
    case isFalse exposed =>
      generalize list : ((ofTable table layout).importsOf user).filter (fun directive =>
        directive.permits symbol && (ofTable table layout).leadsTo symbol definedIn directive) = imports
      have admitted (directive : UriDirective) : directive ∈ imports ↔
          Admitted table layout symbol definedIn user directive := list ▸ mem_admitted
      split
      case isTrue visible =>
        obtain ⟨first, member⟩ := List.exists_mem_of_ne_nil imports (Access.isVisible_foldl.mp visible)
        refine .imported apart exposed (Access.ascending_foldl imports .nil) (fun name => ?_) ?_
        · simp [Access.mem_prefixes_foldl, Access.denied, admitted]
        · have inhabited : ∃ directive, Admitted table layout symbol definedIn user directive :=
            ⟨first, (admitted first).mp member⟩
          simp [Access.bare_foldl, Access.denied, admitted, inhabited]
      case isFalse idle =>
        have none_left : imports = [] := by simpa [Access.isVisible_foldl] using idle
        have none_admitted (directive : UriDirective) :
            ¬ Admitted table layout symbol definedIn user directive := by
          simp [← admitted, none_left]
        have fallback (bare : Bool) (known : bare ↔ isCore definedIn ∨ symbol ∈ builtinTypes) :
            AccessRule table layout symbol definedIn user ⟨bare, []⟩ := by
          refine .imported apart exposed .nil (fun name => ?_) ?_
          · simp [none_admitted]
          · simp [none_admitted, known]
        split
        case isTrue known => exact fallback true (by simpa using known)
        case isFalse unknown => exact fallback false (by simpa using unknown)

end Visibility

namespace AccessRule
variable {table : SymbolTable} {layout : PackageLayout} {symbol : String} {definedIn user : Path}
  {a b : Access}

/-- The rule leaves no choice. -/
private theorem unique (first : AccessRule table layout symbol definedIn user a)
    (second : AccessRule table layout symbol definedIn user b) : a = b := by
  cases first with
  | sameLibrary same =>
    cases second with
    | sameLibrary _ => rfl
    | kept apart _ => exact absurd same apart
    | imported apart _ _ _ _ => exact absurd same apart
  | kept apart hidden =>
    cases second with
    | sameLibrary same => exact absurd same apart
    | kept _ _ => rfl
    | imported _ exposed _ _ _ => exact absurd hidden exposed
  | imported apart exposed ascending prefixes bare =>
    cases second with
    | sameLibrary same => exact absurd same apart
    | kept _ hidden => exact absurd hidden exposed
    | imported _ _ ascending' prefixes' bare' =>
      exact Access.eq_of_mem_iff (bare.trans bare'.symm) (fun name => (prefixes name).trans (prefixes' name).symm)
        ascending ascending'

/-- The cases in which the rule gives any access at all. -/
private theorem isVisible_iff (rule : AccessRule table layout symbol definedIn user a) :
    a.isVisible ↔ (table.libraryOf definedIn).same (table.libraryOf user) ∨
      ¬ Visibility.isPrivate symbol ∧
        ((∃ directive, Admitted table layout symbol definedIn user directive) ∨
          Visibility.isCore definedIn ∨ symbol ∈ builtinTypes) := by
  cases rule with
  | sameLibrary same => simp [Access.isVisible, same]
  | kept apart hidden => simp [Access.isVisible, apart, hidden]
  | imported apart exposed ascending prefixes bare =>
    have shown : a.isVisible ↔ a.bare ∨ ∃ name, name ∈ a.prefixes := by
      rw [Access.isVisible, Bool.or_eq_true, Bool.not_eq_true', List.isEmpty_eq_false_iff_exists_mem]
    have by_import {directive : UriDirective}
        (admitted : Admitted table layout symbol definedIn user directive) : a.isVisible := by
      cases given : directive.asName with
      | none => exact shown.mpr (.inl (bare.mpr (.inl ⟨directive, admitted, given⟩)))
      | some name => exact shown.mpr (.inr ⟨name, (prefixes name).mpr ⟨directive, admitted, given⟩⟩)
    constructor
    · intro visible
      refine .inr ⟨exposed, ?_⟩
      rcases shown.mp visible with free | ⟨name, member⟩
      · rcases bare.mp free with ⟨directive, admitted, -⟩ | ⟨-, known⟩
        · exact .inl ⟨directive, admitted⟩
        · exact .inr known
      · obtain ⟨directive, admitted, -⟩ := (prefixes name).mp member
        exact .inl ⟨directive, admitted⟩
    · rintro (same | ⟨-, (⟨directive, admitted⟩ | known)⟩)
      · exact absurd same apart
      · exact by_import admitted
      · by_cases inhabited : ∃ directive, Admitted table layout symbol definedIn user directive
        · obtain ⟨directive, admitted⟩ := inhabited
          exact by_import admitted
        · exact shown.mpr (.inl (bare.mpr (.inr ⟨inhabited, known⟩)))

end AccessRule

/-- Resolution gives exactly the access that the rule allows. Hence a symbol is accessible from files of
its library, and, unless it is private, wherever an import leads to it or it is known everywhere. -/
theorem resolve_eq_iff_accessRule (table : SymbolTable) (layout : PackageLayout) (symbol : String)
    (definedIn user : Path) :
    (∀ access, (Visibility.ofTable table layout).resolve symbol definedIn user = access ↔
      AccessRule table layout symbol definedIn user access) ∧
    ((Visibility.ofTable table layout).isAccessible symbol definedIn user ↔
      (table.libraryOf definedIn).same (table.libraryOf user) ∨
        ¬ Visibility.isPrivate symbol ∧
          ((∃ directive, Admitted table layout symbol definedIn user directive) ∨
            Visibility.isCore definedIn ∨ symbol ∈ builtinTypes)) := by
  constructor
  · intro access
    constructor
    · rintro rfl
      exact Visibility.resolve_rule
    · exact Visibility.resolve_rule.unique
  · exact Visibility.resolve_rule.isVisible_iff

end DeadCode
