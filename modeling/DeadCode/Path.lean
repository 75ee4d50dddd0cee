/-!
File paths. A path keeps the text it was built from, but two paths are compared by their
components: repeated slashes, a trailing slash and inner `.` segments make no difference.
-/
namespace DeadCode

inductive Component where
  | root
  | current
  | parent
  | name (text : String)
deriving DecidableEq, Repr

namespace Component

def text : Component → String
  | root => "/"
  | current => "."
  | parent => ".."
  | name text => text

private def rank : Component → Nat
  | root => 0
  | current => 1
  | parent => 2
  | name _ => 3

/-- The root comes before `.`, `..` and names; names are ordered as texts. -/
instance : Ord Component := ⟨compareLex (compareOn rank) (compareOn text)⟩

instance : Std.TransOrd Component :=
  inferInstanceAs (Std.TransCmp (compareLex (compareOn rank) (compareOn text)))

instance : Std.LawfulEqOrd Component where
  eq_of_compare {a b} h := by
    obtain ⟨sameRank, sameText⟩ := compareLex_eq_eq.mp h
    have rank_eq : a.rank = b.rank := Std.LawfulEqOrd.eq_of_compare sameRank
    have text_eq : a.text = b.text := Std.LawfulEqOrd.eq_of_compare sameText
    cases a <;> cases b <;> simp_all [rank, text]

end Component

/-- A path as it was written. -/
structure Path where
  text : String
deriving DecidableEq, Repr

namespace Path

/-- The pieces of a text between slashes; there is always at least one. -/
def segments : List Char → List (List Char)
  | [] => [[]]
  | '/' :: rest => [] :: segments rest
  | c :: rest =>
    match segments rest with
    | first :: others => (c :: first) :: others
    | [] => [[c]]

/-- A segment that does not count as a step: an empty one, or a dot. -/
def isIdle (segment : List Char) : Bool :=
  segment.isEmpty || segment == ['.']

def stepOf (segment : List Char) : Component :=
  if segment == ['.', '.'] then .parent else .name (String.ofList segment)

def steps (pieces : List (List Char)) : List Component :=
  (pieces.filter (!isIdle ·)).map stepOf

def isAbsolute (path : Path) : Bool :=
  path.text.toList.head? == some '/'

/-- The components of a path. A dot counts only at the start of a relative path. -/
def components (path : Path) : List Component :=
  let pieces := segments path.text.toList
  if path.isAbsolute then .root :: steps pieces
  else if pieces.head? == some ['.'] then .current :: steps pieces
  else steps pieces

/-- Whether a path ends in a slash, or in a dot after one. -/
def endsIdle (path : Path) : Bool :=
  (segments path.text.toList).getLast?.any isIdle

instance : Ord Path := ⟨compareOn components⟩

instance : Std.TransOrd Path := inferInstanceAs (Std.TransCmp (compareOn components))

/-- The same components, however they are written. -/
def same (a b : Path) : Bool :=
  a.components == b.components

theorem same_iff {a b : Path} : a.same b ↔ a.components = b.components := beq_iff_eq

theorem same_refl (path : Path) : path.same path := same_iff.mpr rfl

theorem same_symm {a b : Path} (same : a.same b) : b.same a := same_iff.mpr (same_iff.mp same).symm

theorem same_trans {a b c : Path} (one : a.same b) (two : b.same c) : a.same c :=
  same_iff.mpr ((same_iff.mp one).trans (same_iff.mp two))

theorem compare_eq_iff_same {a b : Path} : compare a b = .eq ↔ a.same b :=
  (Std.LawfulEqOrd.compare_eq_iff_eq (α := List Component)).trans same_iff.symm

def separated : List Component → String
  | [] => ""
  | [last] => last.text
  | first :: rest => first.text ++ "/" ++ separated rest

/-- The path with exactly these components, written without idle segments. -/
def ofComponents : List Component → Path
  | .root :: rest => ⟨"/" ++ separated rest⟩
  | parts => ⟨separated parts⟩

/-- The path that another path denotes when read from this one. -/
def join (base other : Path) : Path :=
  if other.isAbsolute then other
  else if base.text.isEmpty || base.text.toList.getLast? == some '/' then ⟨base.text ++ other.text⟩
  else ⟨base.text ++ "/" ++ other.text⟩

/-- Drops the last component; the root and the empty path have none to drop. -/
def dropLast? : List Component → Option (List Component)
  | [] => none
  | [.root] => none
  | parts => some parts.dropLast

def parent? (path : Path) : Option Path :=
  (dropLast? path.components).map ofComponents

def fileName? (path : Path) : Option String :=
  match path.components.getLast? with
  | some (.name text) => some text
  | _ => none

/-- The part of the file name after its last dot, unless that dot begins the name. -/
def extension? (path : Path) : Option String := do
  let reversed := (← path.fileName?).toList.reverse
  let stem := (reversed.dropWhile (· != '.')).drop 1
  if stem.isEmpty then none else some (String.ofList (reversed.takeWhile (· != '.')).reverse)

/-- Whether a path lies at or below another one. -/
def startsWith (path base : Path) : Bool :=
  base.components.isPrefixOf path.components

/-- Drops raw segments until a number of steps is gone, and the idle ones after them. -/
private def dropSteps : Nat → List (List Char) → List (List Char)
  | _, [] => []
  | n, piece :: rest =>
    if isIdle piece then dropSteps n rest
    else match n with
      | 0 => piece :: rest
      | n + 1 => dropSteps n rest

private def dropIdleEnd (pieces : List (List Char)) : List (List Char) :=
  (pieces.reverse.dropWhile isIdle).reverse

/-- What is left of a path below a base, as it was written. -/
def stripBase? (path base : Path) : Option Path :=
  if path.startsWith base then
    let parts := base.components
    if parts.isEmpty then some path
    else
      let steps := (parts.filter fun part => part != .root && part != .current).length
      let left := dropIdleEnd (dropSteps steps (segments path.text.toList))
      some ⟨String.ofList (['/'].intercalate left)⟩
  else none

/-- One step of the lexical normal form: a dot is dropped, two dots take back the step before them
if there is one. -/
def fold (done : List Component) : Component → List Component
  | .current => done
  | .parent => (dropLast? done).getD (done ++ [.parent])
  | part => done ++ [part]

/-- The lexical normal form of a path, found without looking at any file. -/
def normalize (path : Path) : Path :=
  ofComponents (path.components.foldl fold [])

end Path
end DeadCode
