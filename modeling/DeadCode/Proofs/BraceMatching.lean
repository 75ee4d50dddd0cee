import DeadCode.Source.Scope
import Mathlib.Algebra.Ring.Int.Defs
import Mathlib.Algebra.Ring.Nat
import Mathlib.Data.List.Induction
import Mathlib.Data.List.Infix
import Mathlib.Data.List.TakeWhile

/-!
A scope follows the braces of a file by absolute matching. It keeps depths that are relative to each
declaration and puts them together again when declarations are left. Here one balance is kept for the whole
file, and each declaration remembers the balance before its line; both come to the same after every line, as long
as every depth fits into the 32 bits that a scope has for it.
-/
namespace DeadCode.Source

structure Declared where
  name : String
  kind : Kind
  commentedOut : Bool
deriving DecidableEq, Repr

def Enclosing.declared (entry : Enclosing) : Declared := ⟨entry.name, entry.kind, entry.commentedOut⟩

/-- A line as a scope sees it: the declaration on it, if there is one, and its braces. A declaration has the
brace of its body on its line. -/
inductive ScopeLine where
  | declares (declared : Declared) (opens closes : Fin (2 ^ 31)) (opened : 0 < opens.val)
  | passes (opens closes : Fin (2 ^ 31)) (endsStatement : Bool)
deriving DecidableEq, Repr

namespace ScopeLine

def change : ScopeLine → Int
  | declares _ opens closes _ => opens.val - closes.val
  | passes opens closes _ => opens.val - closes.val

end ScopeLine

namespace Scope

def past (scope : Scope) : ScopeLine → Scope
  | .declares ⟨name, kind, commentedOut⟩ opens closes _ => scope.enter name kind commentedOut opens.val closes.val
  | .passes opens closes endsStatement => scope.passLine opens.val closes.val endsStatement

def pastAll (scope : Scope) (lines : List ScopeLine) : Scope := lines.foldl past scope

end Scope

structure OpenBody where
  declared : Declared
  base : Int
deriving DecidableEq, Repr

structure BraceCount where
  balance : Int
  /-- The innermost body first. -/
  bodies : List OpenBody
deriving DecidableEq, Repr

namespace BraceCount

def start : BraceCount := ⟨0, []⟩

/-- Closes the bodies down to whose base the balance has come. Outside of all of them it is zero. -/
def closed (count : BraceCount) : BraceCount :=
  let left := count.bodies.dropWhile fun body => count.balance ≤ body.base
  ⟨if left.isEmpty then 0 else count.balance, left⟩

/-- Outside of all bodies braces do not count. -/
def past (count : BraceCount) (line : ScopeLine) : BraceCount :=
  match line with
  | .declares declared .. =>
    closed ⟨count.balance + line.change, ⟨declared, count.balance⟩ :: count.bodies⟩
  | .passes .. =>
    if count.bodies.isEmpty then count else closed ⟨count.balance + line.change, count.bodies⟩

def pastAll (count : BraceCount) (lines : List ScopeLine) : BraceCount := lines.foldl past count

theorem pastAll_append (count : BraceCount) (lines others : List ScopeLine) :
    count.pastAll (lines ++ others) = (count.pastAll lines).pastAll others :=
  List.foldl_append

/-! ### Balances -/

def baseOf : List OpenBody → Int
  | [] => 0
  | body :: _ => body.base

@[simp] theorem baseOf_nil : baseOf [] = 0 := rfl

@[simp] theorem baseOf_cons (body : OpenBody) (outer : List OpenBody) : baseOf (body :: outer) = body.base := rfl

structure IsMatched (count : BraceCount) : Prop where
  nonneg : ∀ body ∈ count.bodies, 0 ≤ body.base
  above : count.bodies ≠ [] → baseOf count.bodies < count.balance
  zero : count.bodies = [] → count.balance = 0

theorem isMatched_start : start.IsMatched := ⟨nofun, fun some => absurd rfl some, fun _ => rfl⟩

theorem IsMatched.balance_nonneg {count : BraceCount} (matched : count.IsMatched) : 0 ≤ count.balance := by
  cases bodies : count.bodies with
  | nil => exact Int.le_of_eq (matched.zero bodies).symm
  | cons body outer =>
    have above := matched.above (by simp [bodies])
    have nonneg := matched.nonneg body (by simp [bodies])
    rw [bodies, baseOf_cons] at above
    omega

theorem IsMatched.eq_start {count : BraceCount} (matched : count.IsMatched) (none : count.bodies = []) :
    count = start := by
  obtain ⟨balance, bodies⟩ := count
  obtain rfl : bodies = [] := none
  exact congrArg (BraceCount.mk · []) (matched.zero rfl)

theorem isMatched_closed {count : BraceCount} (nonneg : ∀ body ∈ count.bodies, 0 ≤ body.base) :
    count.closed.IsMatched := by
  obtain ⟨balance, bodies⟩ := count
  have left := fun body (member : body ∈ bodies.dropWhile fun body => balance ≤ body.base) =>
    nonneg body ((List.dropWhile_sublist _).subset member)
  refine ⟨left, ?_, fun none => by simp [closed, show bodies.dropWhile _ = [] from none]⟩
  intro some
  have stops := List.head_dropWhile_not (fun body : OpenBody => decide (balance ≤ body.base)) some
  simp only [closed] at some ⊢
  cases rest : bodies.dropWhile fun body => balance ≤ body.base with
  | nil => exact absurd rest some
  | cons body outer =>
    simp only [rest, List.head_cons, decide_eq_false_iff_not] at stops
    simpa using stops

theorem IsMatched.past {count : BraceCount} (matched : count.IsMatched) (line : ScopeLine) :
    (count.past line).IsMatched := by
  cases line with
  | declares declared opens closes opened =>
    exact isMatched_closed (List.forall_mem_cons.mpr ⟨matched.balance_nonneg, matched.nonneg⟩)
  | passes opens closes endsStatement =>
    rw [BraceCount.past]
    split
    · exact matched
    · exact isMatched_closed matched.nonneg

theorem IsMatched.pastAll {count : BraceCount} (matched : count.IsMatched) (lines : List ScopeLine) :
    (count.pastAll lines).IsMatched := by
  induction lines generalizing count with
  | nil => exact matched
  | cons line rest ih => exact ih (matched.past line)

/-! ### The scope of a count -/

/-- Bodies with their depths instead of balances: how far each is inside of the one around it. -/
def enclosings : List OpenBody → List Enclosing
  | [] => []
  | ⟨⟨name, kind, commentedOut⟩, base⟩ :: outer =>
    ⟨name, kind, commentedOut, base - baseOf outer⟩ :: enclosings outer

def scope (count : BraceCount) : Scope :=
  ⟨enclosings count.bodies, count.balance - baseOf count.bodies, none⟩

def depth (count : BraceCount) : Int := count.bodies.head?.elim 0 (count.balance - ·.base)

theorem map_declared_enclosings (bodies : List OpenBody) :
    (enclosings bodies).map (·.declared) = bodies.map (·.declared) := by
  induction bodies with
  | nil => rfl
  | cons body outer ih => exact congrArg (_ :: ·) ih

theorem enclosings_suffix {inner outer : List OpenBody} (within : inner <:+ outer) :
    enclosings inner <:+ enclosings outer := by
  obtain ⟨before, rfl⟩ := within
  induction before with
  | nil => exact List.suffix_refl _
  | cons body before ih => exact ih.trans (List.suffix_cons _ _)

theorem IsMatched.depth_scope {count : BraceCount} (matched : count.IsMatched) : count.scope.depth = count.depth := by
  obtain ⟨balance, bodies⟩ := count
  cases bodies with
  | nil => exact (Int.sub_zero balance).trans (matched.zero rfl)
  | cons => rfl

theorem IsMatched.depth_nonneg {count : BraceCount} (matched : count.IsMatched) : 0 ≤ count.depth := by
  obtain ⟨balance, bodies⟩ := count
  cases bodies with
  | nil => exact Int.le_refl 0
  | cons => exact Int.le_of_lt (Int.sub_pos_of_lt (matched.above (List.cons_ne_nil _ _)))

theorem isEmpty_enclosings (bodies : List OpenBody) : (enclosings bodies).isEmpty = bodies.isEmpty := by
  cases bodies <;> rfl

/-- A scope can remember all depths that are left for later. -/
def Fits (count : BraceCount) : Prop :=
  ∀ entry ∈ enclosings count.bodies, 0 ≤ entry.outerDepth ∧ entry.outerDepth < 2 ^ 31

theorem Fits.closed {count : BraceCount} (fits : count.Fits) : count.closed.Fits := fun entry member =>
  fits entry ((enclosings_suffix (List.dropWhile_suffix _)).subset member)

theorem closed_of_lt {balance : Int} {body : OpenBody} (inside : body.base < balance) (outer : List OpenBody) :
    closed ⟨balance, body :: outer⟩ = ⟨balance, body :: outer⟩ := by
  have stays : ¬ balance ≤ body.base := by omega
  simp [closed, stays]

/-- Leaving bodies adds up the depths to what the balance says. -/
theorem leaveClosed_enclosings {balance : Int} {bodies : List OpenBody} (some : bodies ≠ [])
    (fits : Fits ⟨balance, bodies⟩) (least : -2 ^ 31 ≤ balance - baseOf bodies) :
    Scope.leaveClosed (enclosings bodies) (balance - baseOf bodies) =
      (enclosings (closed ⟨balance, bodies⟩).bodies,
        (closed ⟨balance, bodies⟩).balance - baseOf (closed ⟨balance, bodies⟩).bodies) := by
  induction bodies with
  | nil => exact absurd rfl some
  | cons body outer ih =>
    rw [baseOf_cons] at least
    obtain ⟨⟨nonneg, most⟩, fitsOuter⟩ := List.forall_mem_cons.mp fits
    have nonneg : 0 ≤ body.base - baseOf outer := nonneg
    have most : body.base - baseOf outer < 2 ^ 31 := most
    by_cases down : balance ≤ body.base
    · have done : balance - body.base ≤ 0 := by omega
      have drop : closed ⟨balance, body :: outer⟩ = closed ⟨balance, outer⟩ := by simp [closed, down]
      cases outer with
      | nil => simp [enclosings, Scope.leaveClosed, done, closed, down]
      | cons next others =>
        -- what is left is no greater than the depth outside, so nothing goes round
        have regained : wrap32 (balance - body.base + (body.base - baseOf (next :: others))) =
            balance - baseOf (next :: others) := by
          rw [wrap32_eq_self (by omega) (by omega)]
          omega
        rw [drop, ← ih (List.cons_ne_nil _ _) fitsOuter (by omega), ← regained]
        simp only [enclosings, baseOf_cons, Scope.leaveClosed, done, if_true, List.isEmpty_cons, Bool.false_eq_true,
          if_false]
    · have inside : ¬ balance - body.base ≤ 0 := by omega
      rw [closed_of_lt (Int.lt_of_not_ge down)]
      simp only [enclosings, baseOf_cons, Scope.leaveClosed, inside, if_false]

theorem settle_scope {count : BraceCount} (some : count.bodies ≠ []) (fits : count.Fits)
    (least : -2 ^ 31 ≤ count.balance - baseOf count.bodies) : count.scope.settle = count.closed.scope := by
  simp only [scope, Scope.settle, leaveClosed_enclosings some fits least]

private theorem outerDepth_scope {count : BraceCount} (matched : count.IsMatched) :
    (if count.scope.entries.isEmpty then 0 else count.scope.depth) = count.balance - baseOf count.bodies := by
  obtain ⟨balance, bodies⟩ := count
  cases bodies with
  | nil => exact (matched.zero rfl).symm.trans (Int.sub_zero balance).symm
  | cons => rfl

section
variable {count : BraceCount} (matched : count.IsMatched) (fits : count.Fits) (shallow : count.depth < 2 ^ 31)
include matched fits shallow

/-- A body is entered from a depth that fits. -/
private theorem fits_enter (declared : Declared) (balance : Int) :
    Fits ⟨balance, ⟨declared, count.balance⟩ :: count.bodies⟩ := by
  have outer : count.balance - baseOf count.bodies = count.depth := matched.depth_scope
  refine List.forall_mem_cons.mpr ⟨?_, fits⟩
  show 0 ≤ count.balance - baseOf count.bodies ∧ count.balance - baseOf count.bodies < 2 ^ 31
  rw [outer]
  exact ⟨matched.depth_nonneg, shallow⟩

theorem Fits.past (line : ScopeLine) : (count.past line).Fits := by
  cases line with
  | declares declared opens closes opened => exact (fits_enter matched fits shallow declared _).closed
  | passes opens closes endsStatement =>
    rw [BraceCount.past]
    split
    · exact fits
    · have moved : Fits ⟨count.balance + (opens.val - closes.val), count.bodies⟩ := fits
      exact moved.closed

/-- What one line does to the scope is what it does to the count. -/
theorem scope_past (line : ScopeLine) (below : (count.past line).depth < 2 ^ 31) :
    (count.past line).scope = count.scope.past line := by
  cases line with
  | declares declared opens closes opened =>
    have opens_pos : (opens.val : Int) > 0 := by omega
    have inner : count.balance + (opens.val - closes.val) - count.balance = (opens.val : Int) - closes.val := by omega
    have least : -2 ^ 31 ≤ count.balance + (opens.val - closes.val) - count.balance := by omega
    have kept : wrap32 (opens.val - closes.val) = opens.val - closes.val := wrap32_eq_self (by omega) (by omega)
    have next : count.past (.declares declared opens closes opened) =
        closed ⟨count.balance + (opens.val - closes.val), ⟨declared, count.balance⟩ :: count.bodies⟩ := rfl
    rw [next, ← settle_scope (List.cons_ne_nil _ _) (fits_enter matched fits shallow declared _) least]
    simp only [Scope.past, Scope.enter, outerDepth_scope matched, opens_pos, if_true, kept]
    simp only [scope, enclosings, baseOf_cons, inner]
  | passes opens closes endsStatement =>
    obtain ⟨balance, bodies⟩ := count
    cases bodies with
    | nil => rfl
    | cons body others =>
      have inside : body.base < balance := matched.above (List.cons_ne_nil _ _)
      have moved : balance + (opens.val - closes.val) - body.base =
          balance - body.base + ((opens.val : Int) - closes.val) := by omega
      have least : -2 ^ 31 ≤ balance + (opens.val - closes.val) - body.base := by omega
      have next : past ⟨balance, body :: others⟩ (.passes opens closes endsStatement) =
          closed ⟨balance + (opens.val - closes.val), body :: others⟩ := rfl
      have kept : wrap32 (balance - body.base + (opens.val - closes.val)) =
          balance - body.base + (opens.val - closes.val) := by
        refine wrap32_eq_self (by omega) ?_
        -- a body that stays open is as deep afterwards as the line says
        by_cases stays : body.base < balance + (opens.val - closes.val)
        · rw [next, closed_of_lt stays] at below
          have below : balance + (opens.val - closes.val) - body.base < 2 ^ 31 := below
          omega
        · omega
      have fitsToo : Fits ⟨balance + (opens.val - closes.val), body :: others⟩ := fits
      rw [next, ← settle_scope (List.cons_ne_nil _ _) fitsToo least]
      simp only [Scope.past, Scope.passLine, scope, isEmpty_enclosings, List.isEmpty_cons, Bool.false_eq_true,
        if_false, baseOf_cons, moved, kept]

end

/-- No depth leaves the range of a scope, at any line. -/
def StaysBelow (count : BraceCount) (lines : List ScopeLine) : Prop :=
  ∀ before, before <+: lines → (count.pastAll before).depth < 2 ^ 31

theorem StaysBelow.of_append {count : BraceCount} (lines : List ScopeLine) {others : List ScopeLine}
    (below : count.StaysBelow (lines ++ others)) : (count.pastAll lines).StaysBelow others := by
  intro before first
  rw [← pastAll_append]
  exact below _ ((List.prefix_append_right_inj lines).mpr first)

theorem StaysBelow.of_prefix {count : BraceCount} {lines others : List ScopeLine} (below : count.StaysBelow others)
    (first : lines <+: others) : count.StaysBelow lines :=
  fun before starts => below before (starts.trans first)

theorem scope_pastAll {count : BraceCount} (matched : count.IsMatched) (fits : count.Fits) {lines : List ScopeLine}
    (below : count.StaysBelow lines) :
    (count.pastAll lines).scope = count.scope.pastAll lines ∧ (count.pastAll lines).Fits := by
  induction lines generalizing count with
  | nil => exact ⟨rfl, fits⟩
  | cons line rest ih =>
    have shallow : count.depth < 2 ^ 31 := below [] List.nil_prefix
    have next : (count.past line).depth < 2 ^ 31 := below [line] (List.prefix_append [line] rest)
    have onward : (count.past line).StaysBelow rest := below.of_append [line]
    obtain ⟨same, fitsToo⟩ := ih (matched.past line) (fits.past matched shallow line) onward
    refine ⟨?_, fitsToo⟩
    show ((count.past line).pastAll rest).scope = (count.scope.past line).pastAll rest
    rw [same, scope_past matched fits shallow line next]

/-! ### Back at an earlier balance -/

/-- The bodies of one count are open in another one, below others that were opened at its balance or above. -/
def Within (outer count : BraceCount) : Prop :=
  ∃ inner, count.bodies = inner ++ outer.bodies ∧ ∀ body ∈ inner, outer.balance ≤ body.base

section
variable {outer count : BraceCount}

theorem Within.refl (count : BraceCount) : count.Within count := ⟨[], rfl, nofun⟩

theorem Within.enter (within : outer.Within count) (above : outer.balance ≤ count.balance) (declared : Declared)
    (balance : Int) : outer.Within ⟨balance, ⟨declared, count.balance⟩ :: count.bodies⟩ := by
  obtain ⟨inner, split, bases⟩ := within
  exact ⟨⟨declared, count.balance⟩ :: inner, congrArg (_ :: ·) split, List.forall_mem_cons.mpr ⟨above, bases⟩⟩

/-- Bodies are left alone as long as the balance does not fall below the one they were left at. -/
private theorem dropWhile_bodies (matched : outer.IsMatched) {balance : Int} (above : outer.balance ≤ balance) :
    outer.bodies.dropWhile (fun body => balance ≤ body.base) = outer.bodies := by
  cases bodies : outer.bodies with
  | nil => rfl
  | cons body others =>
    have base := matched.above (by simp [bodies])
    rw [bodies, baseOf_cons] at base
    exact List.dropWhile_cons_of_neg (by simp; omega)

theorem Within.closed (matched : outer.IsMatched) (within : outer.Within count)
    (above : outer.balance ≤ count.balance) : outer.Within count.closed := by
  obtain ⟨inner, split, bases⟩ := within
  refine ⟨inner.dropWhile fun body => count.balance ≤ body.base, ?_, fun body member => ?_⟩
  · rw [BraceCount.closed, split, List.dropWhile_append, dropWhile_bodies matched above]
    split
    case isTrue none => rw [List.isEmpty_iff.mp none, List.nil_append]
    case isFalse => rfl
  · exact bases body ((List.dropWhile_sublist _).subset member)

/-- At the balance at which bodies were left, those opened since are closed and no others. -/
theorem Within.closed_eq (matched : outer.IsMatched) (within : outer.Within count)
    (back : count.balance = outer.balance) : count.closed = outer := by
  obtain ⟨inner, split, bases⟩ := within
  have dropped : inner.dropWhile (fun body => outer.balance ≤ body.base) = [] :=
    List.dropWhile_eq_nil_iff.mpr fun body member => decide_eq_true (bases body member)
  have left : count.bodies.dropWhile (fun body => outer.balance ≤ body.base) = outer.bodies := by
    rw [split, List.dropWhile_append, dropped, List.isEmpty_nil, if_pos rfl, dropWhile_bodies matched (Int.le_refl _)]
  obtain ⟨balance, bodies⟩ := outer
  simp only [BraceCount.closed, back, left, mk.injEq, and_true]
  split
  case isTrue none => exact (matched.zero (List.isEmpty_iff.mp none)).symm
  case isFalse => rfl

private theorem lt_balance_of_closed {balance : Int} (nonneg : 0 ≤ balance) (above : balance < count.closed.balance) :
    balance < count.balance := by
  simp only [BraceCount.closed] at above
  split at above
  · omega
  · exact above

theorem Within.past (matched : outer.IsMatched) (within : outer.Within count) (above : outer.balance ≤ count.balance)
    (line : ScopeLine) (still : outer.balance < (count.past line).balance) : outer.Within (count.past line) := by
  have nonneg := matched.balance_nonneg
  cases line with
  | declares declared opens closes opened =>
    exact (within.enter above declared _).closed matched (Int.le_of_lt (lt_balance_of_closed nonneg still))
  | passes opens closes endsStatement =>
    rw [BraceCount.past] at still ⊢
    split at still
    case isTrue none => rwa [if_pos none]
    case isFalse some =>
      rw [if_neg some]
      have unclosed : outer.Within ⟨count.balance + (opens - closes), count.bodies⟩ := within
      exact unclosed.closed matched (Int.le_of_lt (lt_balance_of_closed nonneg still))

theorem Within.pastAll (matched : outer.IsMatched) {lines : List ScopeLine}
    (above : ∀ before, before <+: lines → before ≠ [] → outer.balance < (outer.pastAll before).balance) :
    outer.Within (outer.pastAll lines) := by
  -- the last line is looked at, so that what was above before it is still known
  induction lines using List.reverseRecOn with
  | nil => exact .refl outer
  | append_singleton lines line ih =>
    have within := ih fun before first => above before (first.trans (List.prefix_append _ _))
    have before : outer.balance ≤ (outer.pastAll lines).balance := by
      cases lines with
      | nil => exact Int.le_refl _
      | cons first rest => exact Int.le_of_lt (above _ (List.prefix_append _ _) (List.cons_ne_nil _ _))
    have still := above _ (List.prefix_refl _) (List.append_ne_nil_of_right_ne_nil _ (List.cons_ne_nil _ _))
    rw [pastAll_append] at still ⊢
    exact within.past matched before line still

end

/-- Once the balance is back at what it was, after it has been above that at the end of all lines before, the
bodies are back at what they were. -/
theorem pastAll_of_back {count : BraceCount} (matched : count.IsMatched) {lines : List ScopeLine} {last : ScopeLine}
    (above : ∀ before, before <+: lines → before ≠ [] → count.balance < (count.pastAll before).balance)
    (back : (count.pastAll lines).balance + last.change = count.balance) :
    count.pastAll (lines ++ [last]) = count := by
  have within := Within.pastAll matched above
  have balance : count.balance ≤ (count.pastAll lines).balance := by
    cases lines with
    | nil => exact Int.le_refl _
    | cons first rest => exact Int.le_of_lt (above _ (List.prefix_refl _) (List.cons_ne_nil _ _))
  rw [pastAll_append]
  cases last with
  | declares declared opens closes opened => exact (within.enter balance declared _).closed_eq matched back
  | passes opens closes endsStatement =>
    show (count.pastAll lines).past (.passes opens closes endsStatement) = count
    rw [past]
    split
    case isTrue none =>
      obtain ⟨inner, split, -⟩ := within
      have outside : count.bodies = [] := (List.append_eq_nil_iff.mp (split.symm.trans (List.isEmpty_iff.mp none))).2
      rw [(matched.pastAll lines).eq_start (List.isEmpty_iff.mp none), matched.eq_start outside]
    case isFalse =>
      have unclosed : count.Within ⟨(count.pastAll lines).balance + (opens - closes), (count.pastAll lines).bodies⟩ :=
        within
      exact unclosed.closed_eq matched back

end BraceCount

/-! ### The depth of a scope -/

namespace Scope

private theorem leaveClosed_lt {entries : List Enclosing} {depth : Int} (below : depth < 2 ^ 31) :
    (leaveClosed entries depth).2 < 2 ^ 31 := by
  induction entries generalizing depth with
  | nil =>
    rw [leaveClosed]
    split
    · decide
    · exact below
  | cons entry outer ih =>
    rw [leaveClosed]
    split
    · split
      · decide
      · exact ih (wrap32_lt _)
    · exact below

structure IsBounded (scope : Scope) : Prop where
  free : scope.waiting = none
  below : scope.depth < 2 ^ 31

private theorem isBounded_settle (entries : List Enclosing) {depth : Int} (below : depth < 2 ^ 31) :
    (settle ⟨entries, depth, none⟩).IsBounded :=
  ⟨rfl, leaveClosed_lt below⟩

theorem IsBounded.past {scope : Scope} (bounded : scope.IsBounded) (line : ScopeLine) : (scope.past line).IsBounded := by
  cases line with
  | declares declared opens closes opened =>
    have opened : (opens.val : Int) > 0 := by omega
    simp only [Scope.past, enter, opened, if_true]
    exact isBounded_settle _ (wrap32_lt _)
  | passes opens closes endsStatement =>
    simp only [Scope.past, passLine, bounded.free]
    split
    · exact bounded
    · exact isBounded_settle _ (wrap32_lt _)

theorem IsBounded.pastAll {scope : Scope} (bounded : scope.IsBounded) (lines : List ScopeLine) :
    (scope.pastAll lines).IsBounded := by
  induction lines generalizing scope with
  | nil => exact bounded
  | cons line rest ih => exact ih (bounded.past line)

/-- A scope as absolute brace matching has it. -/
structure Follows (scope : Scope) (count : BraceCount) : Prop where
  declared : scope.entries.map (·.declared) = count.bodies.map (·.declared)
  depth : scope.depth = count.depth
  inside : scope.entries ≠ [] → 1 ≤ scope.depth

end Scope

theorem BraceCount.IsMatched.follows {count : BraceCount} (matched : count.IsMatched) : count.scope.Follows count := by
  refine ⟨map_declared_enclosings count.bodies, matched.depth_scope, fun some => ?_⟩
  have inside : count.bodies ≠ [] := fun none => some (congrArg enclosings none)
  exact Int.sub_pos_of_lt (matched.above inside)

/-- The first lines of a class, and a part of it in which two more bodies are open at the end. -/
def outerLines : List ScopeLine :=
  [.declares ⟨"Outer", .plainClass, false⟩ 1 0 (by decide), .passes 2 1 false]

def innerLines : List ScopeLine :=
  [.declares ⟨"Inner", .plainClass, false⟩ 1 0 (by decide), .declares ⟨"Deep", .mixin, true⟩ 2 1 (by decide),
    .passes 1 0 true]

end DeadCode.Source
