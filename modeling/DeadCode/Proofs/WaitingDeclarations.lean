import DeadCode.Source.Scope

/-!
Declarations that wait for their brace. If the brace comes in time, the scope is the one that a brace on the
line of the declaration gives. If the declaration is dropped, the scope is the one before it, and the lines that
follow act on that scope.
-/
namespace DeadCode.Source.Scope

inductive Reachable : Scope → Prop
  | outside : Reachable outside
  | enter {scope : Scope} (reachable : Reachable scope) (name : String) (kind : Kind) (commentedOut : Bool)
      (opens closes : Nat) : Reachable (scope.enter name kind commentedOut opens closes)
  | passLine {scope : Scope} (reachable : Reachable scope) (opens closes : Nat) (endsStatement : Bool) :
      Reachable (scope.passLine opens closes endsStatement)
  | abandon {scope : Scope} (reachable : Reachable scope) : Reachable scope.abandon

/-! ### The depth outside -/

def entryOf (scope : Scope) (name : String) (kind : Kind) (commentedOut : Bool) : Enclosing :=
  ⟨name, kind, commentedOut, if scope.entries.isEmpty then 0 else scope.depth⟩

structure IsGrounded (scope : Scope) : Prop where
  outermost : ∀ inner entry, scope.entries = inner ++ [entry] → entry.outerDepth = 0
  zero : scope.entries = [] → scope.depth = 0

private theorem suffix_leaveClosed (entries : List Enclosing) (depth : Int) :
    (leaveClosed entries depth).1 <:+ entries := by
  induction entries generalizing depth with
  | nil => exact List.suffix_refl _
  | cons entry outer ih =>
    rw [leaveClosed]
    split
    · split
      · exact List.nil_suffix
      · exact (ih _).trans (List.suffix_cons entry outer)
    · exact List.suffix_refl _

private theorem zero_of_leaveClosed {entries : List Enclosing} (inside : entries ≠ []) {depth : Int}
    (left : (leaveClosed entries depth).1 = []) : (leaveClosed entries depth).2 = 0 := by
  induction entries generalizing depth with
  | nil => exact absurd rfl inside
  | cons entry outer ih =>
    rw [leaveClosed] at left ⊢
    split at left
    case isTrue down =>
      rw [if_pos down]
      split at left
      case isTrue last => rw [if_pos last]
      case isFalse more =>
        rw [if_neg more]
        exact ih (fun none => more (List.isEmpty_iff.mpr none)) left
    case isFalse => cases left

/-- Leaving bodies that are closed takes entries from the inside only. -/
private theorem isGrounded_settle {scope : Scope} (inside : scope.entries ≠ [])
    (outermost : ∀ inner entry, scope.entries = inner ++ [entry] → entry.outerDepth = 0) :
    scope.settle.IsGrounded := by
  unfold settle
  split
  · exact ⟨outermost, fun none => absurd none inside⟩
  · refine ⟨fun inner entry left => ?_, zero_of_leaveClosed inside⟩
    obtain ⟨before, split⟩ := suffix_leaveClosed scope.entries scope.depth
    apply outermost (before ++ inner) entry
    rw [← split, show (leaveClosed scope.entries scope.depth).1 = inner ++ [entry] from left, List.append_assoc]

theorem isGrounded_outside : outside.IsGrounded := by
  refine ⟨fun inner entry none => ?_, fun _ => rfl⟩
  exact absurd none.symm (List.append_ne_nil_of_right_ne_nil inner (List.cons_ne_nil entry []))

namespace IsGrounded
variable {scope : Scope} (grounded : scope.IsGrounded)
include grounded

theorem enter (name : String) (kind : Kind) (commentedOut : Bool) (opens closes : Int) :
    (scope.enter name kind commentedOut opens closes).IsGrounded := by
  have outermost : ∀ inner entry, scope.entryOf name kind commentedOut :: scope.entries = inner ++ [entry] →
      entry.outerDepth = 0 := by
    intro inner entry split
    cases inner with
    | nil =>
      obtain ⟨rfl, none⟩ := List.cons_eq_cons.mp split
      simp [entryOf, none]
    | cons first inner => exact grounded.outermost inner entry (List.cons_eq_cons.mp split).2
  unfold Scope.enter
  dsimp only
  split
  · exact isGrounded_settle (List.cons_ne_nil _ _) outermost
  · exact isGrounded_settle (List.cons_ne_nil _ _) outermost

theorem abandon : scope.abandon.IsGrounded := by
  unfold Scope.abandon
  split
  · exact grounded
  case h_2 => exact ⟨grounded.outermost, grounded.zero⟩
  case h_3 entry outer _ entries =>
    refine ⟨fun inner last split => ?_, fun none => ?_⟩
    · apply grounded.outermost (entry :: inner) last
      rw [entries, show outer = inner ++ [last] from split, List.cons_append]
    · apply grounded.outermost [] entry
      rw [entries, show outer = [] from none, List.nil_append]

theorem passLine (opens closes : Int) (endsStatement : Bool) :
    (scope.passLine opens closes endsStatement).IsGrounded := by
  unfold Scope.passLine
  split
  · exact grounded
  case isFalse some =>
    have inside : scope.entries ≠ [] := fun none => some (List.isEmpty_iff.mpr none)
    split
    · exact isGrounded_settle inside grounded.outermost
    split
    · exact isGrounded_settle inside grounded.outermost
    split
    · exact grounded.abandon
    · exact ⟨grounded.outermost, fun none => absurd none inside⟩

end IsGrounded

theorem Reachable.isGrounded {scope : Scope} (reachable : scope.Reachable) : scope.IsGrounded := by
  induction reachable with
  | outside => exact isGrounded_outside
  | enter _ name kind commentedOut opens closes ih => exact ih.enter name kind commentedOut opens closes
  | passLine _ opens closes endsStatement ih => exact ih.passLine opens closes endsStatement
  | abandon _ ih => exact ih.abandon

/-! ### Waiting -/

structure UnopenedLine where
  closes : Nat
  endsStatement : Bool
deriving DecidableEq, Repr

def passUnopened (scope : Scope) (line : UnopenedLine) : Scope :=
  scope.passLine 0 line.closes line.endsStatement

def passAllUnopened (scope : Scope) (lines : List UnopenedLine) : Scope :=
  lines.foldl passUnopened scope

theorem passAllUnopened_append (scope : Scope) (lines others : List UnopenedLine) :
    scope.passAllUnopened (lines ++ others) = (scope.passAllUnopened lines).passAllUnopened others :=
  List.foldl_append

def awaiting (entry : Enclosing) (outer : List Enclosing) (depth : Int) (waited : Nat) : Scope :=
  ⟨entry :: outer, depth, some waited⟩

section
variable (entry : Enclosing) (outer : List Enclosing) (depth : Int) (waited : Nat)

theorem abandon_awaiting : (awaiting entry outer depth waited).abandon = ⟨outer, entry.outerDepth, none⟩ := rfl

theorem passUnopened_awaiting (line : UnopenedLine) :
    (awaiting entry outer depth waited).passUnopened line =
      if line.endsStatement ∨ patience ≤ waited + 1 then ⟨outer, entry.outerDepth, none⟩
      else awaiting entry outer depth (waited + 1) := by
  have unopened : ¬ (0 : Int) > 0 := by decide
  simp only [passUnopened, passLine, awaiting, List.isEmpty_cons, Bool.false_eq_true, if_false, unopened,
    Bool.or_eq_true, decide_eq_true_eq, ge_iff_le]
  rfl

/-- The first brace is the one that the declaration waits for. -/
theorem passLine_awaiting {opens : Int} (opened : 0 < opens) (closes : Int) (endsStatement : Bool) :
    (awaiting entry outer depth waited).passLine opens closes endsStatement =
      settle ⟨entry :: outer, wrap32 (depth + (opens - 1 - closes)), none⟩ := by
  simp only [passLine, awaiting, List.isEmpty_cons, Bool.false_eq_true, if_false, gt_iff_lt, opened, if_true]

variable {waited}

theorem passAllUnopened_awaiting {lines : List UnopenedLine} (going : ∀ line ∈ lines, line.endsStatement = false)
    (patient : waited + lines.length < patience) :
    (awaiting entry outer depth waited).passAllUnopened lines =
      awaiting entry outer depth (waited + lines.length) := by
  induction lines generalizing waited with
  | nil => rfl
  | cons line rest ih =>
    obtain ⟨first, others⟩ := List.forall_mem_cons.mp going
    rw [List.length_cons] at patient
    have stays : ¬ (line.endsStatement ∨ patience ≤ waited + 1) := by
      simp only [first, Bool.false_eq_true, false_or]
      omega
    have step : (awaiting entry outer depth waited).passUnopened line = awaiting entry outer depth (waited + 1) := by
      rw [passUnopened_awaiting, if_neg stays]
    calc (awaiting entry outer depth waited).passAllUnopened (line :: rest)
        = (awaiting entry outer depth (waited + 1)).passAllUnopened rest := congrArg (·.passAllUnopened rest) step
      _ = awaiting entry outer depth (waited + 1 + rest.length) := ih others (by omega)
      _ = awaiting entry outer depth (waited + (line :: rest).length) := by
        rw [List.length_cons, Nat.add_right_comm, Nat.add_assoc]

end

theorem enter_unopened (scope : Scope) (name : String) (kind : Kind) (commentedOut : Bool) (closes : Int) :
    scope.enter name kind commentedOut 0 closes =
      awaiting (scope.entryOf name kind commentedOut) scope.entries (wrap32 (1 - closes)) 0 := rfl

theorem enter_opened (scope : Scope) (name : String) (kind : Kind) (commentedOut : Bool) {opens : Int}
    (opened : 0 < opens) (closes : Int) :
    scope.enter name kind commentedOut opens closes =
      settle ⟨scope.entryOf name kind commentedOut :: scope.entries, wrap32 (opens - closes), none⟩ := by
  simp only [enter, entryOf, gt_iff_lt, opened, if_true]

/-- The depth that is remembered is the one to go back to. -/
theorem IsGrounded.restored {scope : Scope} (grounded : scope.IsGrounded) (free : scope.waiting = none)
    (name : String) (kind : Kind) (commentedOut : Bool) :
    (⟨scope.entries, (scope.entryOf name kind commentedOut).outerDepth, none⟩ : Scope) = scope := by
  obtain ⟨entries, depth, waiting⟩ := scope
  obtain rfl : waiting = none := free
  cases entries with
  | nil => exact congrArg (Scope.mk [] · none) (grounded.zero rfl).symm
  | cons => rfl

/-- A declaration without a brace on its line, which at most two lines follow that open no brace and end no
statement. A brace after these lines gives the scope that it gives on the line of the declaration. A line without
a brace after them that ends a statement, and any third line without a brace, drops the declaration: the scope is
the one before it, and what comes later acts on that scope. -/
theorem opens_late_or_leaves_no_trace {scope : Scope} (reachable : scope.Reachable)
    (free : scope.waiting = none) (name : String) (kind : Kind) (commentedOut : Bool) (closes : Nat) :
    let header := scope.enter name kind commentedOut 0 closes
    (∀ waits : List UnopenedLine, waits.length ≤ 2 → (∀ line ∈ waits, line.endsStatement = false) →
      (∀ (opens later : Nat) (endsStatement : Bool), 1 ≤ opens →
        (header.passAllUnopened waits).passLine opens later endsStatement =
          scope.enter name kind commentedOut opens (closes + later)) ∧
      ∀ (last : UnopenedLine) (after : List UnopenedLine), last.endsStatement ∨ waits.length = 2 →
        header.passAllUnopened (waits ++ last :: after) = scope.passAllUnopened after) ∧
    header.abandon = scope := by
  intro header
  have start : header = awaiting (scope.entryOf name kind commentedOut) scope.entries (wrap32 (1 - closes)) 0 :=
    enter_unopened scope name kind commentedOut closes
  have restored := reachable.isGrounded.restored free name kind commentedOut
  refine ⟨fun waits short going => ?_, ?_⟩
  · have patient : 0 + waits.length < patience := Nat.lt_of_le_of_lt (by omega) (Nat.lt_succ_self 2)
    have waiting :=
      passAllUnopened_awaiting (scope.entryOf name kind commentedOut) scope.entries (wrap32 (1 - closes)) going patient
    rw [← start] at waiting
    refine ⟨fun opens later endsStatement opened => ?_, fun last after drops => ?_⟩
    · have positive : (0 : Int) < opens := by omega
      have balance : wrap32 (wrap32 (1 - closes) + (opens - 1 - later)) = wrap32 (opens - (closes + later)) := by
        rw [wrap32_wrap32_add]
        exact congrArg wrap32 (by omega)
      rw [waiting, passLine_awaiting _ _ _ _ positive, balance, enter_opened _ _ _ _ positive]
    · have dropped : last.endsStatement ∨ patience ≤ 0 + waits.length + 1 :=
        drops.imp_right fun full => by rw [full]; decide
      calc header.passAllUnopened (waits ++ last :: after)
          = ((header.passAllUnopened waits).passUnopened last).passAllUnopened after :=
            passAllUnopened_append header waits (last :: after)
        _ = scope.passAllUnopened after := by rw [waiting, passUnopened_awaiting, if_pos dropped, restored]
  · rw [start, abandon_awaiting, restored]

/-- A class in a class at depth two, whose brace comes two lines later or not at all. -/
theorem opens_late_or_leaves_no_trace_nested :
    let outer := (outside.enter "Outer" .plainClass false 1 0).passLine 1 0 false
    let header := outer.enter "Inner" .plainClass true 0 1
    outer.Reachable ∧ outer.waiting = none ∧ outer.depth = 2 ∧
      (header.passAllUnopened [⟨1, false⟩]).passLine 3 0 true = outer.enter "Inner" .plainClass true 3 1 ∧
      header.passAllUnopened [⟨1, false⟩, ⟨0, false⟩, ⟨2, false⟩] = outer := by
  intro outer header
  have reachable : outer.Reachable := (Reachable.outside.enter "Outer" .plainClass false 1 0).passLine 1 0 false
  obtain ⟨traceless, -⟩ := opens_late_or_leaves_no_trace reachable rfl "Inner" .plainClass true 1
  refine ⟨reachable, rfl, rfl, ?_, ?_⟩
  · exact (traceless [⟨1, false⟩] (by decide) (by decide)).1 3 0 true (by decide)
  · exact (traceless [⟨1, false⟩, ⟨0, false⟩] (by decide) (by decide)).2 ⟨2, false⟩ [] (.inr rfl)

/-- Of three lines without a brace the second drops the declaration, so the third one closes the body around it. -/
theorem body_closed_by_third_line :
    let outer := outside.enter "A" .plainClass false 1 0
    let header := outer.enter "B" .plainClass false 0 0
    outer.Reachable ∧ outer.waiting = none ∧
      header.passAllUnopened [⟨0, false⟩, ⟨0, true⟩, ⟨1, false⟩] = outside ∧ outer ≠ outside :=
  ⟨Reachable.outside.enter "A" .plainClass false 1 0, by decide⟩

end DeadCode.Source.Scope
