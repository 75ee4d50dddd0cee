import DeadCode.Source.FileScan
import Mathlib.Data.List.Nodup

/-!
The scan of a file as a sequence of visits to its lines. What holds at the start and is kept by every step
holds at every visit, and an entity is recorded exactly when a visit adds it.
-/
namespace DeadCode.Source
open DeadCode.Text

structure Visit where
  before : ScanState
  /-- The lines above, nearest first. -/
  above : List SourceLine
  line : SourceLine
  below : List SourceLine
  after : ScanState
deriving DecidableEq, Repr

def visitsFrom (withFunctions : Bool) (file : Path) : ScanState → List SourceLine → List SourceLine → List Visit
  | _, _, [] => []
  | state, above, line :: below =>
    let after := state.step withFunctions file above line below
    ⟨state, above, line, below, after⟩ :: visitsFrom withFunctions file after (line :: above) below

def visits (withFunctions : Bool) (file : Path) (contents : List Char) : List Visit :=
  visitsFrom withFunctions file .initial [] (sourceLines (lines contents))

def Visit.Adds {α : Type} (visit : Visit) (entries : FileScan → List α) (entry : α) : Prop :=
  entries visit.after.found = entry :: entries visit.before.found

/-! ### Scopes -/

namespace Scope

private theorem mem_of_mem_leaveClosed {entry : Enclosing} {entries : List Enclosing} {depth : Int}
    (member : entry ∈ (leaveClosed entries depth).1) : entry ∈ entries := by
  fun_induction leaveClosed entries depth with
  | case1 => cases member
  | case2 => cases member
  | case3 depth first outer _ _ ih => exact List.mem_cons_of_mem _ (ih member)
  | case4 => exact member

private theorem mem_of_mem_settle {scope : Scope} {entry : Enclosing} (member : entry ∈ scope.settle.entries) :
    entry ∈ scope.entries := by
  unfold settle at member
  split at member
  · exact member
  · exact mem_of_mem_leaveClosed member

theorem mem_of_mem_abandon {scope : Scope} {entry : Enclosing} (member : entry ∈ scope.abandon.entries) :
    entry ∈ scope.entries := by
  unfold abandon at member
  split at member
  · exact member
  · exact member
  case h_3 first outer _ entries =>
    rw [entries]
    exact List.mem_cons_of_mem _ member

theorem mem_of_mem_passLine {scope : Scope} {opens closes : Int} {ends : Bool} {entry : Enclosing}
    (member : entry ∈ (scope.passLine opens closes ends).entries) : entry ∈ scope.entries := by
  unfold passLine at member
  split at member
  · exact member
  split at member
  · exact (mem_of_mem_settle member :)
  split at member
  · exact (mem_of_mem_settle member :)
  split at member
  · exact mem_of_mem_abandon member
  · exact member

theorem mem_enter_cases {scope : Scope} {name : String} {kind : Kind} {commentedOut : Bool} {opens closes : Int}
    {entry : Enclosing} (member : entry ∈ (scope.enter name kind commentedOut opens closes).entries) :
    entry.name = name ∧ entry.commentedOut = commentedOut ∨ entry ∈ scope.entries := by
  unfold enter at member
  dsimp only at member
  have entered : ∀ outerDepth, entry ∈ ⟨name, kind, commentedOut, outerDepth⟩ :: scope.entries →
      entry.name = name ∧ entry.commentedOut = commentedOut ∨ entry ∈ scope.entries := by
    intro outerDepth member
    rcases List.mem_cons.mp member with rfl | member
    · exact .inl ⟨rfl, rfl⟩
    · exact .inr member
  split at member
  · exact entered _ (mem_of_mem_settle member)
  · exact entered _ (mem_of_mem_settle member)

end Scope

section
variable {withFunctions : Bool} {file : Path} {contents : List Char} {visit : Visit}

/-! ### Runs -/

theorem visitsFrom_eq {state : ScanState} {above rest : List SourceLine}
    (member : visit ∈ visitsFrom withFunctions file state above rest) :
    visit.above.reverse ++ visit.line :: visit.below = above.reverse ++ rest ∧
      visit.after = visit.before.step withFunctions file visit.above visit.line visit.below := by
  induction rest generalizing state above with
  | nil => cases member
  | cons line below ih =>
    rcases List.mem_cons.mp member with rfl | member
    · exact ⟨rfl, rfl⟩
    · obtain ⟨split, after⟩ := ih member
      exact ⟨by rw [split, List.reverse_cons, List.append_assoc]; rfl, after⟩

theorem Visit.split (member : visit ∈ visits withFunctions file contents) :
    visit.above.reverse ++ visit.line :: visit.below = sourceLines (lines contents) :=
  (visitsFrom_eq member).1

theorem Visit.after_eq (member : visit ∈ visits withFunctions file contents) :
    visit.after = visit.before.step withFunctions file visit.above visit.line visit.below :=
  (visitsFrom_eq member).2

private theorem holds_along {holds : ScanState → List SourceLine → Prop} {all : List SourceLine}
    (steps : ∀ state above line below, above.reverse ++ line :: below = all → holds state above →
      holds (state.step withFunctions file above line below) (line :: above))
    {state : ScanState} {above rest : List SourceLine} (split : above.reverse ++ rest = all)
    (start : holds state above) :
    (∀ visit ∈ visitsFrom withFunctions file state above rest, holds visit.before visit.above) ∧
      holds (scanLines withFunctions file state above rest) all.reverse := by
  induction rest generalizing state above with
  | nil =>
    rw [List.append_nil] at split
    exact ⟨nofun, by rw [← split, List.reverse_reverse]; exact start⟩
  | cons line below ih =>
    have next := steps state above line below split start
    obtain ⟨later, last⟩ := ih (by rw [← split, List.reverse_cons, List.append_assoc]; rfl) next
    exact ⟨List.forall_mem_cons.mpr ⟨start, later⟩, last⟩

/-- What every step keeps holds at every visit and at the end. -/
theorem holds_of_steps (holds : ScanState → List SourceLine → Prop) (start : holds .initial [])
    (steps : ∀ state above line below, above.reverse ++ line :: below = sourceLines (lines contents) →
      holds state above → holds (state.step withFunctions file above line below) (line :: above)) :
    (∀ visit ∈ visits withFunctions file contents, holds visit.before visit.above) ∧
      holds (scanLines withFunctions file .initial [] (sourceLines (lines contents)))
        (sourceLines (lines contents)).reverse :=
  holds_along steps rfl start

section
variable {α : Type} {entries : FileScan → List α}
  (grows : ∀ state above line below, entries (ScanState.step state withFunctions file above line below).found =
    entries state.found ∨
    ∃ entry, entries (ScanState.step state withFunctions file above line below).found = entry :: entries state.found)
include grows

private theorem mem_scanLines_iff {state : ScanState} {above rest : List SourceLine} {entry : α} :
    entry ∈ entries (scanLines withFunctions file state above rest).found ↔
      entry ∈ entries state.found ∨
        ∃ visit ∈ visitsFrom withFunctions file state above rest, visit.Adds entries entry := by
  induction rest generalizing state above with
  | nil => simp [scanLines, visitsFrom]
  | cons line below ih =>
    rw [scanLines, ih, visitsFrom]
    simp only [List.mem_cons, exists_eq_or_imp, ← or_assoc]
    refine or_congr_left ?_
    rcases grows state above line below with same | ⟨added, grown⟩
    · simp [Visit.Adds, same]
    · simp [Visit.Adds, grown, or_comm, eq_comm]

private theorem mem_scanLines_of_mem_before {state : ScanState} {above rest : List SourceLine} {entry : α}
    (member : visit ∈ visitsFrom withFunctions file state above rest) (known : entry ∈ entries visit.before.found) :
    entry ∈ entries (scanLines withFunctions file state above rest).found := by
  induction rest generalizing state above with
  | nil => cases member
  | cons line below ih =>
    rcases List.mem_cons.mp member with rfl | member
    · exact (mem_scanLines_iff grows).mpr (.inl known)
    · exact ih member

end

/-! ### Steps -/

section
variable {state : ScanState} {above below : List SourceLine} {line : SourceLine}

theorem step_of_declaration {decl : Declaration} {fromCode : Bool}
    (found : lineDeclaration? state.widgets line = some (decl, fromCode)) :
    state.step withFunctions file above line below = state.declare file above line decl fromCode := by
  rw [ScanState.step, found]

theorem step_of_none (none : lineDeclaration? state.widgets line = none) :
    state.step withFunctions file above line below = state.pass withFunctions file above line below := by
  rw [ScanState.step, none]

theorem classes_pass : (state.pass withFunctions file above line below).found.classes = state.found.classes := by
  simp only [ScanState.pass]
  split
  · unfold FileScan.define
    dsimp only
    split <;> rfl
  · rfl

/-- What the visit to a line may add to what was found: a class or a function with its site, or sites alone. -/
inductive FileScan.Grows (number : Nat) (found : FileScan) : FileScan → Prop where
  | declared (entity : ClassEntity) (here : entity.line = number) :
      Grows number found ⟨entity :: found.classes, found.functions, (number, entity.offset) :: found.sites⟩
  | defined (entity : FunctionEntity) (here : entity.line = number) {sites : List (Nat × Nat)}
      (stands : (number, entity.offset) ∈ sites) :
      Grows number found ⟨found.classes, entity :: found.functions, sites ++ found.sites⟩
  | passed (sites : List (Nat × Nat)) : Grows number found ⟨found.classes, found.functions, sites ++ found.sites⟩

/-- A definition leaves sites on its line, and a function with one of them unless it is a live override. -/
theorem define_cases (found : FileScan) (scope : Scope) (file : Path) (above : List SourceLine) (line : SourceLine)
    (definition : Definition) :
    ∃ sites : List (Nat × Nat), (line.number, line.base + definition.offset) ∈ sites ∧
      (∀ site ∈ sites, site.1 = line.number) ∧
      (found.define scope file above line definition = ⟨found.classes, found.functions, sites ++ found.sites⟩ ∨
        ∃ entity : FunctionEntity, entity.line = line.number ∧ entity.offset = line.base + definition.offset ∧
          found.define scope file above line definition =
            ⟨found.classes, entity :: found.functions, sites ++ found.sites⟩) := by
  let offset := line.base + definition.offset
  obtain ⟨sites, stands, here, added⟩ : ∃ sites : List (Nat × Nat), (line.number, offset) ∈ sites ∧
      (∀ site ∈ sites, site.1 = line.number) ∧
      (if definition.name.toList.contains '.' then
        (line.number, offset + byteLength (definition.name.toList.takeWhile (· != '.')) + 1) ::
          (line.number, offset) :: found.sites
      else (line.number, offset) :: found.sites) = sites ++ found.sites := by
    split
    · exact ⟨[_, _], List.mem_cons_of_mem _ List.mem_cons_self, by simp, rfl⟩
    · exact ⟨[_], List.mem_cons_self, by simp, rfl⟩
  refine ⟨sites, stands, here, ?_⟩
  unfold FileScan.define
  dsimp only
  rw [added]
  split
  · exact .inl rfl
  · exact .inr ⟨_, rfl, rfl, rfl⟩

private theorem grows_define (found : FileScan) (scope : Scope) (file : Path) (above : List SourceLine)
    (line : SourceLine) (definition : Definition) :
    found.Grows line.number (found.define scope file above line definition) := by
  obtain ⟨sites, stands, -, alone | ⟨entity, here, offset, added⟩⟩ :=
    define_cases found scope file above line definition
  · rw [alone]
    exact .passed sites
  · rw [added]
    exact .defined entity here (offset ▸ stands)

theorem grows_step (withFunctions : Bool) (file : Path) (state : ScanState) (above : List SourceLine)
    (line : SourceLine) (below : List SourceLine) :
    state.found.Grows line.number (state.step withFunctions file above line below).found := by
  cases found : lineDeclaration? state.widgets line with
  | some pair =>
    rw [step_of_declaration found]
    exact .declared _ rfl
  | none =>
    rw [step_of_none found]
    simp only [ScanState.pass]
    split
    · exact grows_define state.found _ file above line _
    · exact .passed []

end

private theorem classes_grow (withFunctions : Bool) (file : Path) (state : ScanState) (above : List SourceLine)
    (line : SourceLine) (below : List SourceLine) :
    (state.step withFunctions file above line below).found.classes = state.found.classes ∨
      ∃ entity, (state.step withFunctions file above line below).found.classes = entity :: state.found.classes := by
  have grows := grows_step withFunctions file state above line below
  generalize (state.step withFunctions file above line below).found = after at grows ⊢
  cases grows with
  | declared entity _ => exact .inr ⟨entity, rfl⟩
  | defined | passed => exact .inl rfl

private theorem functions_grow (withFunctions : Bool) (file : Path) (state : ScanState) (above : List SourceLine)
    (line : SourceLine) (below : List SourceLine) :
    (state.step withFunctions file above line below).found.functions = state.found.functions ∨
      ∃ entity, (state.step withFunctions file above line below).found.functions =
        entity :: state.found.functions := by
  have grows := grows_step withFunctions file state above line below
  generalize (state.step withFunctions file above line below).found = after at grows ⊢
  cases grows with
  | defined entity _ _ => exact .inr ⟨entity, rfl⟩
  | declared | passed => exact .inl rfl

theorem mem_classes_iff {entity : ClassEntity} :
    entity ∈ (scan withFunctions file contents).classes ↔
      ∃ visit ∈ visits withFunctions file contents, visit.Adds (·.classes) entity := by
  rw [scan, List.mem_reverse, mem_scanLines_iff (classes_grow withFunctions file)]
  exact or_iff_right (List.not_mem_nil)

theorem mem_functions_iff {entity : FunctionEntity} :
    entity ∈ (scan withFunctions file contents).functions ↔
      ∃ visit ∈ visits withFunctions file contents, visit.Adds (·.functions) entity := by
  rw [scan, List.mem_reverse, mem_scanLines_iff (functions_grow withFunctions file)]
  exact or_iff_right (List.not_mem_nil)

/-! ### What a visit adds -/

/-- A class is recorded for the declaration on its line. -/
theorem Visit.exists_declaration {entity : ClassEntity} (member : visit ∈ visits withFunctions file contents)
    (adds : visit.Adds (·.classes) entity) :
    ∃ decl fromCode, lineDeclaration? visit.before.widgets visit.line = some (decl, fromCode) ∧
      entity.name = decl.name ∧ entity.file = file ∧ entity.line = visit.line.number ∧ entity.offset = decl.offset ∧
      entity.commentedOut = (visit.before.scope.abandon.commentedOut ||
        !fromCode && (visit.line.commented || visit.line.clean.isCommentAt decl.offset)) := by
  rw [Visit.Adds, visit.after_eq member] at adds
  cases found : lineDeclaration? visit.before.widgets visit.line with
  | none =>
    rw [step_of_none found, classes_pass] at adds
    exact absurd adds.symm (List.cons_ne_self _ _)
  | some pair =>
    rw [step_of_declaration found] at adds
    obtain ⟨rfl, -⟩ := List.cons.inj adds
    refine ⟨pair.1, pair.2, rfl, rfl, rfl, rfl, rfl, ?_⟩
    cases pair.2 <;> simp [Bool.or_comm]

theorem Visit.exists_adds {decl : Declaration} {fromCode : Bool}
    (member : visit ∈ visits withFunctions file contents)
    (found : lineDeclaration? visit.before.widgets visit.line = some (decl, fromCode)) :
    ∃ entity, visit.Adds (·.classes) entity := by
  unfold Visit.Adds
  rw [visit.after_eq member, step_of_declaration found]
  exact ⟨_, rfl⟩

/-- A function is recorded for the definition on its line. -/
theorem Visit.exists_definition {entity : FunctionEntity} (member : visit ∈ visits withFunctions file contents)
    (adds : visit.Adds (·.functions) entity) :
    ∃ context above below definition,
      (context.enclosing = visit.before.scope.enclosing? ∧ context.known = visit.before.known) ∧
      definitionAt? context above visit.line.text below = some definition ∧
      entity.name = definition.name ∧ entity.owner = visit.before.scope.enclosing?.getD "" ∧ entity.file = file ∧
      entity.line = visit.line.number ∧ entity.offset = visit.line.base + definition.offset ∧
      entity.isConstructor = definition.isConstructor ∧
      entity.commentedOut =
        (visit.line.commented || visit.line.clean.isCommentAt entity.offset || visit.before.scope.commentedOut) := by
  rw [Visit.Adds, visit.after_eq member] at adds
  cases found : lineDeclaration? visit.before.widgets visit.line with
  | some pair =>
    rw [step_of_declaration found] at adds
    exact absurd adds.symm (List.cons_ne_self _ _)
  | none =>
    rw [step_of_none found] at adds
    simp only [ScanState.pass] at adds
    split at adds
    case h_2 => exact absurd adds.symm (List.cons_ne_self _ _)
    case h_1 definition defined =>
      split at defined
      case isFalse => cases defined
      unfold FileScan.define at adds
      dsimp only at adds
      split at adds
      · exact absurd adds.symm (List.cons_ne_self _ _)
      · obtain ⟨rfl, -⟩ := List.cons.inj adds
        exact ⟨_, _, _, definition, ⟨rfl, rfl⟩, defined, rfl, rfl, rfl, rfl, rfl, rfl, rfl⟩

/-! ### Lines -/

/-- The line of a file with a number, as it is and with its comments and literals blanked. -/
def LineAt (contents : List Char) (number : Nat) (raw : List Char) (clean : SanitizedLine) : Prop :=
  ∃ index, number = index + 1 ∧ (lines contents)[index]? = some raw ∧
    (sanitize (lines contents))[index]? = some clean

theorem number_ofClean (number : Nat) (raw : List Char) (clean : SanitizedLine) :
    (SourceLine.ofClean number raw clean).number = number := by
  unfold SourceLine.ofClean
  dsimp only
  split <;> rfl

private theorem fields_ofClean (number : Nat) (raw : List Char) (clean : SanitizedLine) :
    (SourceLine.ofClean number raw clean).raw = raw ∧ (SourceLine.ofClean number raw clean).clean = clean := by
  unfold SourceLine.ofClean
  dsimp only
  split <;> exact ⟨rfl, rfl⟩

theorem map_number_sourceLines (raw : List (List Char)) :
    (sourceLines raw).map (·.number) = List.range' 1 (raw.zip (sanitize raw)).length := by
  rw [sourceLines, List.map_map, ← List.zipIdx_map_snd]
  exact List.map_congr_left fun _ _ => number_ofClean _ _ _

theorem pairwise_number_sourceLines (raw : List (List Char)) :
    (sourceLines raw).Pairwise (·.number < ·.number) := by
  rw [← List.pairwise_map, map_number_sourceLines]
  exact List.pairwise_lt_range'

theorem of_mem_sourceLines {line : SourceLine} (member : line ∈ sourceLines (lines contents)) :
    LineAt contents line.number line.raw line.clean ∧ line = .ofClean line.number line.raw line.clean := by
  obtain ⟨⟨⟨raw, clean⟩, number⟩, inLines, rfl⟩ := List.mem_map.mp member
  obtain ⟨positive, here⟩ := List.mk_mem_zipIdx_iff_le_and_getElem?_sub.mp inLines
  obtain ⟨rawHere, cleanHere⟩ := List.getElem?_zip_eq_some.mp here
  obtain ⟨sameRaw, sameClean⟩ := fields_ofClean number raw clean
  rw [number_ofClean, sameRaw, sameClean]
  exact ⟨⟨number - 1, (Nat.sub_add_cancel positive).symm, rawHere, cleanHere⟩, rfl⟩

private theorem map_line_visitsFrom (state : ScanState) (above rest : List SourceLine) :
    (visitsFrom withFunctions file state above rest).map (·.line) = rest := by
  induction rest generalizing state above with
  | nil => rfl
  | cons line below ih => exact congrArg (line :: ·) (ih _ _)

theorem map_line_visits : (visits withFunctions file contents).map (·.line) = sourceLines (lines contents) :=
  map_line_visitsFrom _ _ _

theorem Visit.line_mem (member : visit ∈ visits withFunctions file contents) :
    visit.line ∈ sourceLines (lines contents) :=
  map_line_visits ▸ List.mem_map_of_mem member

/-- The lines are numbered in ascending order. -/
theorem number_lt_of_split {above below : List SourceLine} {line other : SourceLine}
    (split : above.reverse ++ line :: below = sourceLines (lines contents)) (inAbove : other ∈ above) :
    other.number < line.number := by
  have ordered := pairwise_number_sourceLines (lines contents)
  rw [← split] at ordered
  exact (List.pairwise_append.mp ordered).2.2 other (List.mem_reverse.mpr inAbove) line List.mem_cons_self

/-- A line is visited once. -/
theorem Visit.eq_of_number_eq {other : Visit} (member : visit ∈ visits withFunctions file contents)
    (memberOther : other ∈ visits withFunctions file contents) (same : visit.line.number = other.line.number) :
    visit = other := by
  have numbers : ((visits withFunctions file contents).map (·.line.number)).Nodup := by
    have split : (visits withFunctions file contents).map (·.line.number) =
        ((visits withFunctions file contents).map (·.line)).map (·.number) := by rw [List.map_map]; rfl
    rw [split, map_line_visits, map_number_sourceLines]
    exact List.nodup_range'
  exact List.inj_on_of_nodup_map numbers member memberOther same

/-! ### One entity on a line -/

structure FileScan.OnePerLine (found : FileScan) : Prop where
  classes : found.classes.Pairwise (·.line < ·.line)
  functions : found.functions.Pairwise (·.line < ·.line)
  apart : ∀ declared ∈ found.classes, ∀ defined ∈ found.functions, declared.line ≠ defined.line
  classSites : ∀ entity ∈ found.classes, (entity.line, entity.offset) ∈ found.sites
  functionSites : ∀ entity ∈ found.functions, (entity.line, entity.offset) ∈ found.sites

def FileScan.reverse (found : FileScan) : FileScan :=
  ⟨found.classes.reverse, found.functions.reverse, found.sites.reverse⟩

def FileScan.RecordedOn (found : FileScan) (above : List SourceLine) : Prop :=
  (∀ entity ∈ found.classes, ∃ line ∈ above, entity.line = line.number) ∧
    ∀ entity ∈ found.functions, ∃ line ∈ above, entity.line = line.number

section
variable {found after : FileScan} {above : List SourceLine} {line : SourceLine}

private theorem FileScan.RecordedOn.grows (recorded : found.RecordedOn above) (grows : found.Grows line.number after) :
    after.RecordedOn (line :: above) := by
  have kept {number : Nat} (known : ∃ other ∈ above, number = other.number) :
      ∃ other ∈ line :: above, number = other.number :=
    known.imp fun _ here => ⟨List.mem_cons_of_mem _ here.1, here.2⟩
  have classes := fun entity known => kept (recorded.1 entity known)
  have functions := fun entity known => kept (recorded.2 entity known)
  cases grows with
  | declared entity here =>
    exact ⟨List.forall_mem_cons.mpr ⟨⟨line, List.mem_cons_self, here⟩, classes⟩, functions⟩
  | defined entity here _ =>
    exact ⟨classes, List.forall_mem_cons.mpr ⟨⟨line, List.mem_cons_self, here⟩, functions⟩⟩
  | passed => exact ⟨classes, functions⟩

/-- A new entity stands below all others. -/
private theorem FileScan.OnePerLine.grows (one : found.reverse.OnePerLine) (recorded : found.RecordedOn above)
    (further : ∀ other ∈ above, other.number < line.number) (grows : found.Grows line.number after) :
    after.reverse.OnePerLine := by
  have before {number : Nat} (known : ∃ other ∈ above, number = other.number) : number < line.number := by
    obtain ⟨other, inAbove, rfl⟩ := known
    exact further other inAbove
  have classesBefore := fun entity known => before (recorded.1 entity known)
  have functionsBefore := fun entity known => before (recorded.2 entity known)
  obtain ⟨classes, functions, apart, declaredAt, definedAt⟩ := one
  simp only [FileScan.reverse, List.pairwise_reverse, List.mem_reverse] at classes functions apart declaredAt definedAt
  constructor <;> simp only [FileScan.reverse, List.pairwise_reverse, List.mem_reverse]
  case classes =>
    cases grows with
    | declared entity here => exact classes.cons fun other known => here ▸ classesBefore other known
    | defined | passed => exact classes
  case functions =>
    cases grows with
    | defined entity here _ => exact functions.cons fun other known => here ▸ functionsBefore other known
    | declared | passed => exact functions
  case apart =>
    cases grows with
    | declared entity here =>
      refine List.forall_mem_cons.mpr ⟨fun other known => ?_, apart⟩
      exact Nat.ne_of_gt (here ▸ functionsBefore other known)
    | defined entity here _ =>
      refine fun other known => List.forall_mem_cons.mpr ⟨?_, apart other known⟩
      exact Nat.ne_of_lt (here ▸ classesBefore other known)
    | passed => exact apart
  case classSites =>
    cases grows with
    | declared entity here =>
      refine List.forall_mem_cons.mpr ⟨here ▸ List.mem_cons_self, fun other known => ?_⟩
      exact List.mem_cons_of_mem _ (declaredAt other known)
    | defined | passed => exact fun other known => List.mem_append_right _ (declaredAt other known)
  case functionSites =>
    cases grows with
    | declared => exact fun other known => List.mem_cons_of_mem _ (definedAt other known)
    | defined entity here stands =>
      refine List.forall_mem_cons.mpr ⟨List.mem_append_left _ (here ▸ stands), fun other known => ?_⟩
      exact List.mem_append_right _ (definedAt other known)
    | passed => exact fun other known => List.mem_append_right _ (definedAt other known)

end

/-- The recorded entities stand on lines above, one on each. -/
def RecordedAbove (state : ScanState) (above : List SourceLine) : Prop :=
  state.found.RecordedOn above ∧ state.found.reverse.OnePerLine

private theorem recordedAbove_along :
    (∀ visit ∈ visits withFunctions file contents, RecordedAbove visit.before visit.above) ∧
      RecordedAbove (scanLines withFunctions file .initial [] (sourceLines (lines contents)))
        (sourceLines (lines contents)).reverse := by
  have start : RecordedAbove .initial [] := by
    refine ⟨⟨?_, ?_⟩, ⟨.nil, .nil, ?_, ?_, ?_⟩⟩ <;> exact fun _ member => absurd member List.not_mem_nil
  apply holds_of_steps RecordedAbove start
  intro state above line below split ⟨recorded, one⟩
  have grows := grows_step withFunctions file state above line below
  exact ⟨recorded.grows grows, one.grows recorded (fun _ inAbove => number_lt_of_split split inAbove) grows⟩

theorem onePerLine_scan (withFunctions : Bool) (file : Path) (contents : List Char) :
    (scan withFunctions file contents).OnePerLine :=
  recordedAbove_along.2.2

/-! ### The classes of a line -/

private theorem filter_eq_singleton {entities : List ClassEntity} {entity : ClassEntity}
    (ordered : entities.Pairwise (·.line < ·.line)) (member : entity ∈ entities) :
    entities.filter (·.line == entity.line) = [entity] := by
  induction entities with
  | nil => cases member
  | cons first others ih =>
    obtain ⟨before, ordered⟩ := List.pairwise_cons.mp ordered
    rcases List.mem_cons.mp member with rfl | member
    · rw [List.filter_cons_of_pos (by simp), List.filter_eq_nil_iff.mpr]
      intro other inOthers
      have := before other inOthers
      simp only [beq_iff_eq]
      omega
    · have := before entity member
      rw [List.filter_cons_of_neg (by simp only [beq_iff_eq]; omega)]
      exact ih ordered member

/-- The classes recorded for a line are what its visit adds. -/
theorem Visit.filter_classes_of_adds {entity : ClassEntity} (member : visit ∈ visits withFunctions file contents)
    (adds : visit.Adds (·.classes) entity) :
    (scan withFunctions file contents).classes.filter (·.line == visit.line.number) = [entity] := by
  obtain ⟨_, _, _, _, _, number, _⟩ := visit.exists_declaration member adds
  rw [← number]
  exact filter_eq_singleton (onePerLine_scan _ _ _).classes (mem_classes_iff.mpr ⟨visit, member, adds⟩)

theorem Visit.filter_classes_of_none (member : visit ∈ visits withFunctions file contents)
    (none : lineDeclaration? visit.before.widgets visit.line = none) :
    (scan withFunctions file contents).classes.filter (·.line == visit.line.number) = [] := by
  rw [List.filter_eq_nil_iff]
  intro entity inClasses same
  obtain ⟨other, memberOther, adds⟩ := mem_classes_iff.mp inClasses
  obtain ⟨_, _, found, _, _, number, _⟩ := other.exists_declaration memberOther adds
  have here : visit = other := visit.eq_of_number_eq member memberOther (by rw [← number, ← eq_of_beq same])
  rw [← here, none] at found
  cases found

/-! ### Enclosing declarations -/

/-- Every declaration around a point was recorded. -/
def EnclosedByRecorded (state : ScanState) : Prop :=
  ∀ entry ∈ state.scope.entries, ∃ entity ∈ state.found.classes,
    entity.name = entry.name ∧ entity.commentedOut = entry.commentedOut

private theorem EnclosedByRecorded.step {state : ScanState} {above below : List SourceLine} {line : SourceLine}
    (enclosed : EnclosedByRecorded state) :
    EnclosedByRecorded (state.step withFunctions file above line below) := by
  cases found : lineDeclaration? state.widgets line with
  | none =>
    rw [step_of_none found]
    intro entry around
    rw [classes_pass]
    exact enclosed entry (Scope.mem_of_mem_passLine around)
  | some pair =>
    rw [step_of_declaration found]
    have outer (entry : Enclosing) (around : entry ∈ state.scope.abandon.entries) :
        ∃ entity ∈ (state.declare file above line pair.1 pair.2).found.classes,
          entity.name = entry.name ∧ entity.commentedOut = entry.commentedOut := by
      obtain ⟨entity, member, same⟩ := enclosed entry (Scope.mem_of_mem_abandon around)
      exact ⟨entity, List.mem_cons_of_mem _ member, same⟩
    intro entry around
    simp only [ScanState.declare] at around
    split at around
    · exact outer entry (Scope.mem_of_mem_passLine around)
    · rcases Scope.mem_enter_cases around with ⟨name, commentedOut⟩ | around
      · exact ⟨_, List.mem_cons_self, name.symm, commentedOut.symm⟩
      · exact outer entry around

/-- The declarations around a line were recorded on lines above it. -/
theorem Visit.exists_class_of_mem_entries (member : visit ∈ visits withFunctions file contents) {entry : Enclosing}
    (around : entry ∈ visit.before.scope.entries) :
    ∃ entity ∈ (scan withFunctions file contents).classes, entity.line < visit.line.number ∧
      entity.name = entry.name ∧ entity.commentedOut = entry.commentedOut := by
  have enclosed : EnclosedByRecorded visit.before :=
    (holds_of_steps (fun state _ => EnclosedByRecorded state) nofun fun _ _ _ _ _ enclosed => enclosed.step).1 visit
      member
  obtain ⟨entity, known, same⟩ := enclosed entry around
  obtain ⟨line, inAbove, number⟩ := (recordedAbove_along.1 visit member).1.1 entity known
  refine ⟨entity, ?_, number ▸ number_lt_of_split (visit.split member) inAbove, same⟩
  rw [scan, List.mem_reverse]
  exact mem_scanLines_of_mem_before (classes_grow withFunctions file) member known

/-! ### Classes above a line -/

private theorem scanLines_eq_of_mem {state : ScanState} {above rest : List SourceLine}
    (member : visit ∈ visitsFrom withFunctions file state above rest) :
    scanLines withFunctions file state above rest =
      scanLines withFunctions file visit.before visit.above (visit.line :: visit.below) := by
  induction rest generalizing state above with
  | nil => cases member
  | cons line below ih =>
    rcases List.mem_cons.mp member with rfl | member
    · rfl
    · exact ih member

private theorem Visit.line_of_adds {state : ScanState} {above rest : List SourceLine} {entity : ClassEntity}
    (member : visit ∈ visitsFrom withFunctions file state above rest) (adds : visit.Adds (·.classes) entity) :
    entity.line = visit.line.number := by
  have grows := grows_step withFunctions file visit.before visit.above visit.line visit.below
  rw [← (visitsFrom_eq member).2] at grows
  rw [Visit.Adds] at adds
  generalize visit.after.found = after at grows adds
  cases grows with
  | declared other here => exact (List.cons.inj adds).1 ▸ here
  | defined | passed => exact absurd adds.symm (List.cons_ne_self _ _)

/-- A class on a line above is recorded when a line is visited. -/
theorem Visit.mem_classes_before {entity : ClassEntity} (member : visit ∈ visits withFunctions file contents)
    (recorded : entity ∈ (scan withFunctions file contents).classes) (above : entity.line < visit.line.number) :
    entity ∈ visit.before.found.classes := by
  rw [scan, List.mem_reverse, scanLines_eq_of_mem member, mem_scanLines_iff (classes_grow withFunctions file)] at recorded
  rcases recorded with known | ⟨later, inLater, adds⟩
  · exact known
  have ordered := pairwise_number_sourceLines (lines contents)
  rw [← visit.split member] at ordered
  obtain ⟨further, -⟩ := List.pairwise_cons.mp (List.pairwise_append.mp ordered).2.1
  have inRest := List.mem_map_of_mem (f := (·.line)) inLater
  rw [map_line_visitsFrom] at inRest
  rw [later.line_of_adds inLater adds] at above
  rcases List.mem_cons.mp inRest with here | inBelow
  · rw [here] at above
    exact absurd above (Nat.lt_irrefl _)
  · exact absurd above (Nat.lt_asymm (further later.line inBelow))

/-- The names of recorded classes are known. -/
theorem Visit.name_mem_known {entity : ClassEntity} (member : visit ∈ visits withFunctions file contents)
    (recorded : entity ∈ visit.before.found.classes) : entity.name ∈ visit.before.known := by
  have steps : ∀ visit ∈ visits withFunctions file contents,
      ∀ entity ∈ visit.before.found.classes, entity.name ∈ visit.before.known := by
    refine (holds_of_steps (fun state _ => ∀ entity ∈ state.found.classes, entity.name ∈ state.known) ?_ ?_).1
    · exact fun _ member => absurd member List.not_mem_nil
    intro state above line below _ known
    cases found : lineDeclaration? state.widgets line with
    | none =>
      rw [step_of_none found, classes_pass]
      exact known
    | some pair =>
      rw [step_of_declaration found]
      exact List.forall_mem_cons.mpr ⟨List.mem_cons_self, fun other here => List.mem_cons_of_mem _ (known other here)⟩
  exact steps visit member entity recorded

end
end DeadCode.Source
