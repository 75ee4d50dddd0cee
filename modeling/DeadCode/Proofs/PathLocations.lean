import DeadCode.Proofs.Spelling
import DeadCode.Tree.Basic
import Mathlib.Data.List.DropRight

/-!
Where paths lead. A normal form is its own normal form, and a path may be brought into it before another one is joined
to it. It leads where the path leads if that path goes up at most one level above the directory it is read from: two
dots take back two dots before them, so of several levels one is left if their number is odd, and none otherwise.
-/
namespace DeadCode

namespace Path

/-- The location that a path denotes when it is read from a directory. -/
def leadsFrom (path : Path) (directory : List String) : List String :=
  path.components.foldl Component.leadFrom directory

/-- How many levels components go up above where they are read from. -/
def climbOf : List Component → Nat
  | [] => 0
  | .root :: _ => 0
  | .current :: rest => climbOf rest
  | .parent :: rest => climbOf rest + 1
  | .name _ :: rest => climbOf rest - 1

def climb (path : Path) : Nat := climbOf path.components

theorem dropLast?_concat (parts : List Component) {part : Component} (below : part ≠ .root) :
    dropLast? (parts ++ [part]) = some parts := by
  unfold dropLast?
  split
  case h_1 none => simp at none
  case h_2 rooted => simp [List.append_eq_singleton_iff, below] at rooted
  case h_3 => rw [List.dropLast_concat]

end Path

/-! ### Ways -/

/-- A number of levels up from a directory, and then down by names. -/
structure Way where
  up : Nat
  down : List String
deriving DecidableEq, Repr

namespace Way
open DeadCode.Path

def stay : Way := ⟨0, []⟩

def add (way : Way) : Component → Way
  | .name text => ⟨way.up, way.down ++ [text]⟩
  | .parent => if way.down.isEmpty then ⟨way.up + 1, []⟩ else ⟨way.up, way.down.dropLast⟩
  | _ => way

def leadsFrom (way : Way) (directory : List String) : List String := directory.rdrop way.up ++ way.down

/-- What is left in a normal form of a number of levels up. -/
def risen (levels : Nat) : List Component := List.replicate (levels % 2) .parent

/-- The normal form of a way, with what is in front of it. -/
def folded (way : Way) (base : List Component) : List Component := base ++ risen way.up ++ way.down.map .name

theorem add_parent_concat (up : Nat) (front : List String) (last : String) :
    (Way.mk up (front ++ [last])).add .parent = ⟨up, front⟩ := by
  simp [add]

theorem leadFrom_leadsFrom (way : Way) (directory : List String) {part : Component} (step : part.IsStep) :
    Component.leadFrom (way.leadsFrom directory) part = (way.add part).leadsFrom directory := by
  obtain ⟨up, down⟩ := way
  cases part with
  | root => cases step
  | current => cases step
  | name text => exact List.append_assoc _ _ _
  | parent =>
    -- the directory itself is left only once no name is there to take back
    rcases List.eq_nil_or_concat' down with rfl | ⟨front, last, rfl⟩
    · show (directory.rdrop up ++ []).dropLast = directory.rdrop (up + 1) ++ []
      rw [List.append_nil, List.append_nil, List.rdrop, List.rdrop, List.dropLast_eq_take, List.take_take,
        List.length_take]
      congr 1
      omega
    · rw [add_parent_concat]
      show (directory.rdrop up ++ (front ++ [last])).dropLast = directory.rdrop up ++ front
      rw [← List.append_assoc, List.dropLast_concat]

section
variable {base : List Component} (bottom : dropLast? base = none)
include bottom

/-- One level more takes back the one before it. -/
private theorem fold_risen (levels : Nat) : fold (base ++ risen levels) .parent = base ++ risen (levels + 1) := by
  rcases Nat.mod_two_eq_zero_or_one levels with even | odd
  · have next : (levels + 1) % 2 = 1 := by omega
    rw [risen, risen, even, next, List.replicate_zero, List.append_nil, fold, bottom]
    rfl
  · have next : (levels + 1) % 2 = 0 := by omega
    rw [risen, risen, odd, next, List.replicate_one, fold, dropLast?_concat base Component.noConfusion,
      List.replicate_zero, List.append_nil]
    rfl

theorem fold_folded (way : Way) {part : Component} (step : part.IsStep) :
    fold (way.folded base) part = (way.add part).folded base := by
  obtain ⟨up, down⟩ := way
  cases part with
  | root => cases step
  | current => cases step
  | name text =>
    show base ++ risen up ++ down.map .name ++ [.name text] = base ++ risen up ++ (down ++ [text]).map .name
    rw [List.map_append, ← List.append_assoc]
    rfl
  | parent =>
    rcases List.eq_nil_or_concat' down with rfl | ⟨front, last, rfl⟩
    · show fold (base ++ risen up ++ []) .parent = base ++ risen (up + 1) ++ []
      rw [List.append_nil, List.append_nil, fold_risen bottom]
    · have ends : (Way.mk up (front ++ [last])).folded base = (Way.mk up front).folded base ++ [.name last] := by
        simp [folded]
      rw [add_parent_concat, ends, fold, dropLast?_concat _ Component.noConfusion]
      rfl

end

section
variable {steps : List Component} (allSteps : ∀ part ∈ steps, part.IsStep) (way : Way)
include allSteps

/-- What follows a way step by step follows it to its end. -/
private theorem foldl_follows {σ : Type} {view : Way → σ} {read : σ → Component → σ}
    (follows : ∀ (way : Way) {part : Component}, part.IsStep → read (view way) part = view (way.add part)) :
    steps.foldl read (view way) = view (steps.foldl add way) := by
  induction steps generalizing way with
  | nil => rfl
  | cons part rest ih =>
    obtain ⟨first, others⟩ := List.forall_mem_cons.mp allSteps
    rw [List.foldl_cons, follows way first, ih others, List.foldl_cons]

theorem foldl_fold_folded {base : List Component} (bottom : dropLast? base = none) :
    steps.foldl fold (way.folded base) = (steps.foldl add way).folded base :=
  foldl_follows allSteps way (fold_folded bottom)

theorem foldl_leadFrom (directory : List String) :
    steps.foldl Component.leadFrom (way.leadsFrom directory) = (steps.foldl add way).leadsFrom directory :=
  foldl_follows allSteps way (fun way => leadFrom_leadsFrom way directory)

/-- Names on the way down are taken back before it goes further up. -/
theorem up_foldl_add : (steps.foldl add way).up = way.up + (climbOf steps - way.down.length) := by
  induction steps generalizing way with
  | nil => rw [climbOf, Nat.zero_sub]; rfl
  | cons part rest ih =>
    obtain ⟨first, others⟩ := List.forall_mem_cons.mp allSteps
    obtain ⟨up, down⟩ := way
    rw [List.foldl_cons, ih others]
    cases part with
    | root => cases first
    | current => cases first
    | name text =>
      show up + (climbOf rest - (down ++ [text]).length) = up + (climbOf rest - 1 - down.length)
      rw [List.length_append, List.length_singleton]
      omega
    | parent =>
      show _ = up + (climbOf rest + 1 - down.length)
      rcases List.eq_nil_or_concat' down with rfl | ⟨front, last, rfl⟩
      · show up + 1 + (climbOf rest - 0) = up + (climbOf rest + 1 - 0)
        omega
      · rw [add_parent_concat, List.length_append, List.length_singleton]
        show up + (climbOf rest - front.length) = _
        omega

end

/-- From a directory that is deep enough one sees how many levels a way goes up. -/
theorem leadsFrom_mod_two_iff (way : Way) {directory : List String} (deep : way.up ≤ directory.length) :
    (Way.mk (way.up % 2) way.down).leadsFrom directory = way.leadsFrom directory ↔ way.up ≤ 1 := by
  obtain ⟨up, down⟩ := way
  show directory.rdrop (up % 2) ++ down = directory.rdrop up ++ down ↔ up ≤ 1
  rw [List.append_left_inj]
  constructor
  · intro same
    have deep : up ≤ directory.length := deep
    have lengths := congrArg List.length same
    rw [List.rdrop, List.rdrop, List.length_take, List.length_take] at lengths
    omega
  · intro few
    rw [Nat.mod_eq_of_lt (Nat.lt_succ_of_le few)]

theorem foldl_add_names (way : Way) (names : List String) :
    (names.map .name).foldl add way = ⟨way.up, way.down ++ names⟩ := by
  induction names generalizing way with
  | nil => rw [List.append_nil]; rfl
  | cons name rest ih =>
    rw [List.map_cons, List.foldl_cons, ih]
    exact congrArg (Way.mk way.up) (List.append_assoc _ _ _)

theorem foldl_add_risen (levels : Nat) : (risen levels).foldl add stay = ⟨levels % 2, []⟩ := by
  rcases Nat.mod_two_eq_zero_or_one levels with even | odd
  · rw [risen, even]
    rfl
  · rw [risen, odd]
    rfl

end Way

/-! ### Paths -/

namespace Path
open DeadCode.Way

def way (path : Path) : Way := path.components.foldl add stay

/-- What the normal form of a path begins with. -/
def base (path : Path) : List Component := if path.isAbsolute then [.root] else []

section
variable (path : Path)

/-- A path is read as what it begins with and its steps, wherever dots make no difference. -/
private theorem exists_steps :
    ∃ steps, (∀ part ∈ steps, part.IsStep) ∧ path.climb = (if path.isAbsolute then 0 else climbOf steps) ∧
      ∀ {σ : Type} (read : σ → Component → σ) (start : σ), (∀ state, read state .current = state) →
        path.components.foldl read start = steps.foldl read (path.base.foldl read start) := by
  cases absolute : path.isAbsolute with
  | true =>
    obtain ⟨steps, allSteps, rooted⟩ := exists_steps_of_isAbsolute absolute
    refine ⟨steps, allSteps, ?_, fun read start _ => ?_⟩
    · rw [climb, rooted, climbOf]
      rfl
    · rw [rooted, base, absolute]
      rfl
  | false =>
    obtain ⟨steps, allSteps, shape | shape | shape⟩ := components_cases path
    · refine ⟨steps, allSteps, congrArg climbOf shape, fun read start _ => ?_⟩
      rw [shape, base, absolute]
      rfl
    · exact absurd (isAbsolute_of_components shape) (by simp [absolute])
    · refine ⟨steps, allSteps, ?_, fun read start idle => ?_⟩
      · rw [climb, shape, climbOf]
        rfl
      · rw [shape, List.foldl_cons, idle, base, absolute]
        rfl

private theorem foldl_add_base : path.base.foldl add stay = stay := by
  unfold base
  split <;> rfl

theorem foldl_fold_components : path.components.foldl fold [] = path.way.folded path.base := by
  have bottom : dropLast? path.base = none ∧ path.base.foldl fold [] = stay.folded path.base := by
    unfold base
    split <;> exact ⟨rfl, rfl⟩
  obtain ⟨steps, allSteps, -, reads⟩ := exists_steps path
  rw [way, reads fold [] fun _ => rfl, reads add stay fun _ => rfl, foldl_add_base, bottom.2]
  exact foldl_fold_folded allSteps stay bottom.1

theorem leadsFrom_eq (directory : List String) :
    path.leadsFrom directory = path.way.leadsFrom (if path.isAbsolute then [] else directory) := by
  have starts : path.base.foldl Component.leadFrom directory =
      stay.leadsFrom (if path.isAbsolute then [] else directory) := by
    unfold base
    split <;> simp [Way.leadsFrom, stay, Component.leadFrom]
  obtain ⟨steps, allSteps, -, reads⟩ := exists_steps path
  rw [leadsFrom, way, reads _ directory fun _ => rfl, reads add stay fun _ => rfl, foldl_add_base, starts]
  exact foldl_leadFrom allSteps stay _

theorem climb_eq : path.climb = if path.isAbsolute then 0 else path.way.up := by
  obtain ⟨steps, allSteps, climbs, reads⟩ := exists_steps path
  rw [climbs, way, reads add stay fun _ => rfl, foldl_add_base, up_foldl_add allSteps]
  simp [stay]

theorem isAbsolute_normalize : path.normalize.isAbsolute = path.isAbsolute := by
  have parts := (components_normalize path).trans (foldl_fold_components path)
  cases absolute : path.isAbsolute with
  | true =>
    rw [folded, base, if_pos absolute] at parts
    exact isAbsolute_of_components parts
  | false =>
    rw [← Bool.not_eq_true]
    intro rooted
    obtain ⟨steps, -, first⟩ := exists_steps_of_isAbsolute rooted
    have root : Component.root ∈ path.normalize.components := first ▸ List.mem_cons_self
    simp [parts, folded, base, absolute, risen, List.mem_replicate] at root

/-- A normal form goes down by the same names, but up by one level or none. -/
theorem way_normalize : path.normalize.way = ⟨path.way.up % 2, path.way.down⟩ := by
  rw [way, components_normalize, foldl_fold_components, folded, List.foldl_append, List.foldl_append,
    foldl_add_base, foldl_add_risen, foldl_add_names]
  rfl

theorem foldl_fold_normalize : path.normalize.components.foldl fold [] = path.components.foldl fold [] := by
  rw [foldl_fold_components, foldl_fold_components path, way_normalize, base, isAbsolute_normalize, ← base, folded,
    folded, risen, Nat.mod_mod]
  rfl

end

private theorem foldl_fold_filter (done parts : List Component) :
    (parts.filter (· != .current)).foldl fold done = parts.foldl fold done := by
  induction parts generalizing done with
  | nil => rfl
  | cons part rest ih => cases part <;> exact ih _

/-- A relative path goes on from the normal form of the one that it is joined to. -/
theorem foldl_fold_join (path : Path) {other : Path} (relative : other.isAbsolute = false) :
    (path.join other).components.foldl fold [] = other.components.foldl fold (path.components.foldl fold []) := by
  by_cases empty : path.text = ""
  · obtain rfl : path = ⟨""⟩ := congrArg Path.mk empty
    have alone : (Path.mk "").join other = other := by
      rw [join, relative]
      exact congrArg Path.mk String.empty_append
    have none : (Path.mk "").components = [] := by decide
    rw [alone, none]
    rfl
  · rw [components_join_of_relative empty relative, List.foldl_append, foldl_fold_filter]

/-- Read from a directory that is deep enough, a normal form leads where its path leads exactly if the path goes up by
no more than one level above it. A normal form is its own normal form, and a path may be brought into it before another
one is joined to it. -/
theorem leadsFrom_normalize_iff (path : Path) :
    (∀ directory : List String, path.climb ≤ directory.length →
      (path.normalize.leadsFrom directory = path.leadsFrom directory ↔ path.climb ≤ 1)) ∧
      path.normalize.normalize = path.normalize ∧
      ∀ other : Path, (path.join other).normalize = (path.normalize.join other).normalize := by
  refine ⟨fun directory deep => ?_, ?_, fun other => ?_⟩
  · rw [leadsFrom_eq, leadsFrom_eq path, isAbsolute_normalize, way_normalize]
    rw [climb_eq] at deep ⊢
    generalize path.isAbsolute = absolute at deep ⊢
    cases absolute with
    | true => simp [Way.leadsFrom]
    | false => exact Way.leadsFrom_mod_two_iff path.way deep
  · rw [normalize, foldl_fold_normalize]
    rfl
  · cases relative : other.isAbsolute with
    | true => rw [join, join, if_pos relative, if_pos relative]
    | false =>
      rw [normalize, foldl_fold_join path relative, normalize, foldl_fold_join _ relative, foldl_fold_normalize]

/-- One level up, and down again. -/
theorem leadsFrom_normalize_iff_sibling :
    let path : Path := ⟨"./../lib//src/../a.dart"⟩
    path.climb ≤ ["app", "test"].length ∧
      path.normalize.leadsFrom ["app", "test"] = path.leadsFrom ["app", "test"] := by
  have deep : (Path.mk "./../lib//src/../a.dart").climb ≤ ["app", "test"].length := by decide
  exact ⟨deep, ((leadsFrom_normalize_iff _).1 _ deep).mpr (by decide)⟩

/-- Two levels up. -/
theorem normalize_loses_two_levels :
    let path : Path := ⟨"../../a"⟩
    path.normalize = ⟨"a"⟩ ∧ path.climb ≤ ["app", "lib"].length ∧
      path.leadsFrom ["app", "lib"] = ["a"] ∧ path.normalize.leadsFrom ["app", "lib"] = ["app", "lib", "a"] := by
  decide

end Path

end DeadCode
