import DeadCode.Proofs.Visits

/-!
Looking for classes alone. Nothing that is known of functions is read when a class is looked for, so the scan without
functions is the scan with them, less what they leave: their entries, and sites on lines without a class.
-/
namespace DeadCode.Source
open DeadCode.Text

/-! ### Leaving the functions out -/

def FileScan.classesAlone (found : FileScan) : FileScan :=
  ⟨found.classes, [], found.classes.map fun entity => (entity.line, entity.offset)⟩

def ScanState.classesAlone (state : ScanState) : ScanState := { state with found := state.found.classesAlone }

section
variable (withFunctions : Bool) (file : Path) (state : ScanState) (above below : List SourceLine) (line : SourceLine)

private theorem classesAlone_pass :
    (state.pass withFunctions file above line below).classesAlone =
      state.classesAlone.pass false file above line below := by
  have kept : (state.pass withFunctions file above line below).found.classesAlone = state.found.classesAlone := by
    rw [FileScan.classesAlone, classes_pass]
    rfl
  rw [ScanState.classesAlone, kept]
  rfl

/-- A step takes from the state only what is left without the functions. -/
theorem classesAlone_step :
    (state.step withFunctions file above line below).classesAlone =
      state.classesAlone.step false file above line below := by
  have widgets : state.classesAlone.widgets = state.widgets := rfl
  cases found : lineDeclaration? state.widgets line with
  | some pair =>
    rw [step_of_declaration found, step_of_declaration (widgets ▸ found)]
    rfl
  | none =>
    rw [step_of_none found, step_of_none (widgets ▸ found)]
    exact classesAlone_pass withFunctions file state above below line

end

theorem classesAlone_scanLines (withFunctions : Bool) (file : Path) (state : ScanState) (above rest : List SourceLine) :
    (scanLines withFunctions file state above rest).classesAlone =
      scanLines false file state.classesAlone above rest := by
  induction rest generalizing state above with
  | nil => rfl
  | cons line below ih => rw [scanLines, ih, classesAlone_step, scanLines]

/-- The scan without functions is what the other one leaves of classes. -/
theorem scan_false (file : Path) (contents : List Char) :
    scan false file contents = (scan true file contents).classesAlone := by
  have alone := classesAlone_scanLines true file .initial [] (sourceLines (lines contents))
  have start : ScanState.initial.classesAlone = .initial := rfl
  rw [start] at alone
  rw [scan, ← alone, scan]
  simp only [ScanState.classesAlone, FileScan.classesAlone, List.reverse_nil, List.map_reverse]

/-! ### Sites on the line of a class -/

/-- Whatever is declared on the line of a class is that class. -/
def FileScan.OnlyClassSites (found : FileScan) : Prop :=
  ∀ entity ∈ found.classes, ∀ site ∈ found.sites, site.1 = entity.line → site = (entity.line, entity.offset)

structure FileScan.StandsOn (found : FileScan) (above : List SourceLine) : Prop where
  classes : ∀ entity ∈ found.classes, ∃ line ∈ above, entity.line = line.number
  sites : ∀ site ∈ found.sites, ∃ line ∈ above, site.1 = line.number

inductive FileScan.AddsSites (number : Nat) (found after : FileScan) : Prop where
  | declared (entity : ClassEntity) (here : entity.line = number) (classes : after.classes = entity :: found.classes)
      (sites : after.sites = (number, entity.offset) :: found.sites)
  | passed (new : List (Nat × Nat)) (here : ∀ site ∈ new, site.1 = number) (classes : after.classes = found.classes)
      (sites : after.sites = new ++ found.sites)

section
variable {found after : FileScan} {above : List SourceLine} {line : SourceLine}

private theorem addsSites_define (found : FileScan) (scope : Scope) (file : Path) (above : List SourceLine)
    (line : SourceLine) (definition : Definition) :
    found.AddsSites line.number (found.define scope file above line definition) := by
  obtain ⟨sites, -, here, alone | ⟨entity, -, -, added⟩⟩ := define_cases found scope file above line definition
  · exact .passed sites here (by rw [alone]) (by rw [alone])
  · exact .passed sites here (by rw [added]) (by rw [added])

theorem addsSites_step (withFunctions : Bool) (file : Path) (state : ScanState) (above : List SourceLine)
    (line : SourceLine) (below : List SourceLine) :
    state.found.AddsSites line.number (state.step withFunctions file above line below).found := by
  cases found : lineDeclaration? state.widgets line with
  | some pair =>
    rw [step_of_declaration found]
    exact .declared _ rfl rfl rfl
  | none =>
    rw [step_of_none found]
    simp only [ScanState.pass]
    split
    · exact addsSites_define state.found _ file above line _
    · exact .passed [] (List.forall_mem_nil _) rfl rfl

private theorem FileScan.StandsOn.adds (stands : found.StandsOn above) (adds : found.AddsSites line.number after) :
    after.StandsOn (line :: above) := by
  have kept {number : Nat} (known : ∃ other ∈ above, number = other.number) :
      ∃ other ∈ line :: above, number = other.number :=
    known.imp fun _ here => ⟨List.mem_cons_of_mem _ here.1, here.2⟩
  have onLine {number : Nat} (here : number = line.number) : ∃ other ∈ line :: above, number = other.number :=
    ⟨line, List.mem_cons_self, here⟩
  have oldClasses := fun entity known => kept (stands.classes entity known)
  have oldSites := fun site known => kept (stands.sites site known)
  cases adds with
  | declared entity here classes sites =>
    constructor
    · rw [classes]
      exact List.forall_mem_cons.mpr ⟨onLine here, oldClasses⟩
    · rw [sites]
      exact List.forall_mem_cons.mpr ⟨onLine rfl, oldSites⟩
  | passed new here classes sites =>
    constructor
    · rw [classes]
      exact oldClasses
    · rw [sites]
      exact List.forall_mem_append.mpr ⟨fun site member => onLine (here site member), oldSites⟩

/-- A line further down is neither that of a known class nor that of a known site. -/
private theorem FileScan.OnlyClassSites.adds (only : found.OnlyClassSites) (stands : found.StandsOn above)
    (further : ∀ other ∈ above, other.number < line.number) (adds : found.AddsSites line.number after) :
    after.OnlyClassSites := by
  have before {number : Nat} (known : ∃ other ∈ above, number = other.number) : number < line.number := by
    obtain ⟨other, inAbove, rfl⟩ := known
    exact further other inAbove
  intro entity inClasses site inSites same
  cases adds with
  | declared new here classes sites =>
    rw [classes] at inClasses
    rw [sites] at inSites
    rcases List.mem_cons.mp inClasses with rfl | inClasses <;> rcases List.mem_cons.mp inSites with rfl | inSites
    · rw [here]
    · have := before (stands.sites site inSites)
      omega
    · have := before (stands.classes entity inClasses)
      omega
    · exact only entity inClasses site inSites same
  | passed new here classes sites =>
    rw [classes] at inClasses
    rw [sites] at inSites
    rcases List.mem_append.mp inSites with inNew | inSites
    · have := before (stands.classes entity inClasses)
      have := here site inNew
      omega
    · exact only entity inClasses site inSites same

end

theorem onlyClassSites_scan (withFunctions : Bool) (file : Path) (contents : List Char) :
    (scan withFunctions file contents).OnlyClassSites := by
  have along : (scanLines withFunctions file .initial [] (sourceLines (lines contents))).found.OnlyClassSites := by
    refine (holds_of_steps (fun state above => state.found.StandsOn above ∧ state.found.OnlyClassSites) ?_ ?_).2.2
    · exact ⟨⟨List.forall_mem_nil _, List.forall_mem_nil _⟩, List.forall_mem_nil _⟩
    · intro state above line below split ⟨stands, only⟩
      have adds := addsSites_step withFunctions file state above line below
      exact ⟨stands.adds adds, only.adds stands (fun _ => number_lt_of_split split) adds⟩
  intro entity inClasses site inSites
  rw [scan, List.mem_reverse] at inClasses inSites
  exact along entity inClasses site inSites

/-- Without functions the same classes are found and no function; the sites are among those found with functions, and
the others stand on lines without a class. -/
theorem scan_without_functions (file : Path) (contents : List Char) :
    (scan false file contents).classes = (scan true file contents).classes ∧
      (scan false file contents).functions = [] ∧
      (scan false file contents).sites ⊆ (scan true file contents).sites ∧
      ∀ site ∈ (scan true file contents).sites, site ∉ (scan false file contents).sites →
        ∀ entity ∈ (scan true file contents).classes, entity.line ≠ site.1 := by
  rw [scan_false]
  refine ⟨rfl, rfl, fun site member => ?_, fun site member absent entity inClasses same => absent ?_⟩
  · obtain ⟨entity, inClasses, rfl⟩ := List.mem_map.mp member
    exact (onePerLine_scan true file contents).classSites entity inClasses
  · rw [onlyClassSites_scan true file contents entity inClasses site member same.symm]
    exact List.mem_map_of_mem inClasses

end DeadCode.Source
