import DeadCode.Proofs.Uses

/-!
A class that is used in its own file is seen to be used. Of the occurrences of its name on a line that have the shape of
a use, one may be left out after a declaration with an initializer; so at least half of them are counted.
-/
namespace DeadCode.Usage
open DeadCode.Text DeadCode.Text.Pattern DeadCode.Source

def Occurrence.isClassUse (name : String) (occurrence : Occurrence) : Bool :=
  String.ofList occurrence.name == name && (ClassShape.of? occurrence).isSome

/-- The occurrences of a name on a line that have the shape of a use as a class, apart from definitions. -/
def classUses (name : String) (sites : List (Nat × Nat)) (code : List Char) (line : Nat) : List (Nat × Occurrence) :=
  (freeNames sites code line).filter (·.2.isClassUse name)

def Mention.isOfClass (name : String) (mention : Mention) : Bool := mention.role = .type && mention.name == name

/-! ### Along a line -/

section
variable (names : Names) (line : Nat) (withFunctions : Bool) {name : String}

private theorem countP_asFunction (name : String) (occurrence : Occurrence) :
    (if withFunctions then functionUse names line (String.ofList occurrence.name) occurrence else []).countP
      (·.isOfClass name) = 0 := by
  unfold functionUse
  split
  · split <;> rfl
  · rfl

/-- What an occurrence adds to the uses of a line. Of the name that is looked at, an occurrence with the shape of a use
is counted or was paid for by an earlier one, which put the name among those whose next occurrence is left out. -/
private theorem exists_step (known : name ∈ names.classes) (consumed : List String) (occurrence : Occurrence) :
    ∃ found left, (∀ rest, mentionsFrom names line withFunctions consumed (occurrence :: rest) =
        found ++ mentionsFrom names line withFunctions left rest) ∧
      found.countP (·.isOfClass name) ≤ [occurrence].countP (·.isClassUse name) ∧
      [occurrence].countP (·.isClassUse name) + left.count name ≤
        2 * found.countP (·.isOfClass name) + consumed.count name := by
  let word := String.ofList occurrence.name
  let asFunction := if withFunctions then functionUse names line word occurrence else []
  have silent : asFunction.countP (·.isOfClass name) = 0 :=
    countP_asFunction names line withFunctions name occurrence
  by_cases listed : names.classes.contains word
  case neg =>
    have other : word ≠ name := fun same => listed (List.contains_iff_mem.mpr (same ▸ known))
    refine ⟨asFunction, consumed, fun rest => by rw [mentionsFrom, if_neg listed], ?_⟩
    simp [silent, Occurrence.isClassUse, other, word]
  by_cases skipped : consumed.contains word
  · refine ⟨[], consumed.erase word, fun rest => ?_, Nat.zero_le _, ?_⟩
    · rw [mentionsFrom, if_pos listed, if_pos skipped, List.nil_append]
    · by_cases same : word = name
      · have paid : 0 < consumed.count name := List.count_pos_iff.mpr (same ▸ List.contains_iff_mem.mp skipped)
        have one : [occurrence].countP (·.isClassUse name) ≤ 1 := List.countP_le_length
        rw [same, List.count_erase_self]
        omega
      · rw [List.count_erase_of_ne (Ne.symm same)]
        simp [Occurrence.isClassUse, word, same]
  cases classified : ClassShape.of? occurrence with
  | none =>
    refine ⟨asFunction, consumed, fun rest => ?_, ?_⟩
    · rw [mentionsFrom, if_pos listed, if_neg skipped, classified]
    · simp [silent, Occurrence.isClassUse, classified]
  | some shape =>
    refine ⟨⟨.type, word, line, occurrence⟩ :: asFunction,
      if shape = .declarationWithInitializer then word :: consumed else consumed, fun rest => ?_, ?_⟩
    · rw [mentionsFrom, if_pos listed, if_neg skipped, classified]
      rfl
    · let own := if word = name then 1 else 0
      have shaped : [occurrence].countP (·.isClassUse name) = own := by
        by_cases same : word = name <;> simp [Occurrence.isClassUse, classified, word, own, same]
      have counted : (⟨.type, word, line, occurrence⟩ :: asFunction).countP (·.isOfClass name) = own := by
        rw [List.countP_cons, silent]
        by_cases same : word = name <;> simp [Mention.isOfClass, own, same]
      have left : (if shape = .declarationWithInitializer then word :: consumed else consumed).count name ≤
          consumed.count name + own := by
        split
        · by_cases same : word = name <;> simp [own, same]
        · exact Nat.le_add_right _ _
      omega

/-- At least half of the occurrences with the shape of a use are counted, apart from those that were paid for. -/
private theorem countP_mentionsFrom (known : name ∈ names.classes) (consumed : List String)
    (occurrences : List Occurrence) :
    (mentionsFrom names line withFunctions consumed occurrences).countP (·.isOfClass name) ≤
        occurrences.countP (·.isClassUse name) ∧
      occurrences.countP (·.isClassUse name) ≤
        2 * (mentionsFrom names line withFunctions consumed occurrences).countP (·.isOfClass name) +
          consumed.count name := by
  induction occurrences generalizing consumed with
  | nil => exact ⟨Nat.le_refl _, Nat.zero_le _⟩
  | cons occurrence rest ih =>
    obtain ⟨found, left, step, most, paid⟩ := exists_step names line withFunctions known consumed occurrence
    obtain ⟨mostRest, paidRest⟩ := ih left
    rw [step, List.countP_append, ← List.singleton_append, List.countP_append]
    omega

end

/-! ### On a line -/

private theorem freeNames_of_blank {code : List Char} (blank : isBlankText code) (sites : List (Nat × Nat))
    (line : Nat) : freeNames sites code line = [] := by
  have none : name.findAll code = [] := by
    refine List.eq_nil_iff_forall_not_mem.mpr fun found member => ?_
    obtain ⟨before, word, after, rfl, -, -, c, others, rfl, starts, -⟩ := exists_split_of_mem_findAll_name member
    have isBlank : isBlank c := List.all_eq_true.mp blank c (by simp)
    exact absurd isBlank (isBlank_of_isNameStart starts ▸ Bool.false_ne_true)
  rw [freeNames, namesIn, none]
  rfl

/-- What is counted on a line that is no directive is at least half of what could be counted. -/
private theorem countP_mentionsOfLine {names : Names} {name : String} (known : name ∈ names.classes)
    (sites : List (Nat × Nat)) {code : List Char} (plain : isDirectiveLine code = false) (line : Nat) :
    (mentionsOfLine names sites code line).countP (·.isOfClass name) ≤ (classUses name sites code line).length ∧
      (classUses name sites code line).length ≤
        2 * (mentionsOfLine names sites code line).countP (·.isOfClass name) := by
  rw [mentionsOfLine, plain, Bool.or_false, classUses, ← List.countP_eq_length_filter]
  split
  case isTrue blank => simp [freeNames_of_blank blank]
  case isFalse =>
    rw [filterMap_eq_freeNames]
    have bounds := countP_mentionsFrom names line (!isDeclarationLine code) known []
      ((freeNames sites code line).map (·.2))
    rwa [List.countP_map] at bounds

theorem mentionsOfLine_directive {code : List Char} (directive : isDirectiveLine code) (names : Names)
    (sites : List (Nat × Nat)) (line : Nat) : mentionsOfLine names sites code line = [] := by
  rw [mentionsOfLine, directive, Bool.or_true, if_pos rfl]

/-! ### In a file -/

/-- The uses of a class in its own file are internal, except on the line of its declaration. -/
theorem internal_countIn_ofClass {entity : ClassEntity} {file : Path} (own : entity.file.same file) (key : SymbolKey)
    (visibility : Visibility) (found : List Mention) :
    ((Target.ofClass key entity).countIn visibility file found).internal =
      found.countP fun mention => mention.isOfClass entity.name && mention.line != entity.line := by
  have isOwn : (Target.ofClass key entity).file.same file := own
  rw [countIn_eq, if_pos isOwn, Target.uses, List.countP_filterMap]
  refine (Nat.zero_add _).trans (congrArg (List.countP · found) (funext fun mention => ?_))
  show (((if mention.isOfClass entity.name then _ else none : Option (Nat × Option String)).map _).getD false) = _
  cases mention.isOfClass entity.name <;> rfl

abbrev numberedLines (contents : List Char) : List (SanitizedLine × Nat) := (sanitize (lines contents)).zipIdx 1

def Counter.internalOn (counter : Counter) (entry : SymbolKey × ClassEntity) (file : Path) (contents : List Char)
    (line : SanitizedLine × Nat) : Nat :=
  ((Target.ofClass entry.1 entry.2).countIn counter.visibility file
    (mentionsOfLine counter.names (scan true file contents).sites line.1.code line.2)).internal

structure CountedByLine (counter : Counter) (entry : SymbolKey × ClassEntity) (file : Path) (contents : List Char)
    (counts after : ExactCounts) : Prop where
  /-- What its lines add, one by one. -/
  sum : after.internal =
    counts.internal + ((numberedLines contents).map (counter.internalOn entry file contents)).foldr (· + ·) 0
  /-- Directives and the line of the declaration add nothing. -/
  aside : ∀ line ∈ numberedLines contents, isDirectiveLine line.1.code ∨ line.2 = entry.2.line →
    counter.internalOn entry file contents line = 0
  /-- Any other line adds at least half of its occurrences of the name that have the shape of a use, and no more than
  there are. -/
  half : ∀ line ∈ numberedLines contents, isDirectiveLine line.1.code = false → line.2 ≠ entry.2.line →
    let shaped := (classUses entry.2.name (scan true file contents).sites line.1.code line.2).length
    counter.internalOn entry file contents line ≤ shaped ∧ shaped ≤ 2 * counter.internalOn entry file contents line
  /-- So nothing is added exactly if there are none. -/
  unused : after.internal = counts.internal ↔
    ∀ line ∈ numberedLines contents, isDirectiveLine line.1.code = false → line.2 ≠ entry.2.line →
      classUses entry.2.name (scan true file contents).sites line.1.code line.2 = []

section
variable {counter : Counter} {entry : SymbolKey × ClassEntity} {file : Path} (own : entry.2.file.same file)
include own

theorem Counter.internalOn_eq (contents : List Char) (line : SanitizedLine × Nat) :
    counter.internalOn entry file contents line = if line.2 = entry.2.line then 0 else
      (mentionsOfLine counter.names (scan true file contents).sites line.1.code line.2).countP
        (·.isOfClass entry.2.name) := by
  rw [internalOn, internal_countIn_ofClass own]
  split
  case isTrue declared =>
    refine List.countP_eq_zero.mpr fun mention member => ?_
    simp [(of_mem_mentionsOfLine member).2.1, declared]
  case isFalse apart =>
    refine List.countP_congr fun mention member => ?_
    simp [(of_mem_mentionsOfLine member).2.1, apart]

theorem Counter.internal_countIn_mentions (contents : List Char) :
    ((Target.ofClass entry.1 entry.2).countIn counter.visibility file
      (mentions counter.names (scan true file contents).sites (sanitize (lines contents)))).internal =
      ((numberedLines contents).map (counter.internalOn entry file contents)).foldr (· + ·) 0 := by
  have lineByLine (numbered : List (SanitizedLine × Nat)) :
      (numbered.flatMap fun line =>
        mentionsOfLine counter.names (scan true file contents).sites line.1.code line.2).countP
          (fun mention => mention.isOfClass entry.2.name && mention.line != entry.2.line) =
        (numbered.map (counter.internalOn entry file contents)).foldr (· + ·) 0 := by
    induction numbered with
    | nil => rfl
    | cons line rest ih =>
      rw [List.flatMap_cons, List.countP_append, ih, List.map_cons, List.foldr_cons, internalOn,
        internal_countIn_ofClass own]
  rw [internal_countIn_ofClass own]
  exact lineByLine (numberedLines contents)

end

private theorem foldr_add_eq_zero_iff {α : Type} (f : α → Nat) (items : List α) :
    (items.map f).foldr (· + ·) 0 = 0 ↔ ∀ item ∈ items, f item = 0 := by
  induction items with
  | nil => simp
  | cons item rest ih => rw [List.map_cons, List.foldr_cons, Nat.add_eq_zero_iff, ih, List.forall_mem_cons]

/-- A key that no function has belongs to at most one of the symbols that are counted. -/
private theorem single_ofTable {table : SymbolTable} {key : SymbolKey} (alone : table.functions.contains key = false) :
    (Target.ofTable table).Pairwise fun a b => compare key a.key = .eq → compare key b.key ≠ .eq := by
  have apart {a b : Target} (different : compare a.key b.key ≠ .eq) (here : compare key a.key = .eq) :
      compare key b.key ≠ .eq := fun there =>
    different (Std.TransCmp.eq_trans (Std.OrientedCmp.eq_symm here) there)
  rw [Target.ofTable, List.pairwise_append]
  refine ⟨(compare_key_ne_of_ordered _ _ fun _ => rfl).imp apart, (compare_key_ne_of_ordered _ _ fun _ => rfl).imp apart,
    fun cls _ fn isFunction _ same => ?_⟩
  obtain ⟨other, kept, rfl⟩ := List.mem_map.mp isFunction
  have sameKey : compare key other.1 = .eq := same
  have present := SortedMap.contains_of_mem (List.mem_filter.mp kept).1
  rw [← SortedMap.contains_congr _ sameKey, alone] at present
  cases present

section
variable {table : SymbolTable} {entry : SymbolKey × ClassEntity} (inTable : entry ∈ table.classes.entries)
  (live : entry.2.commentedOut = false) (named : entry.2.isAnonymous = false)
include inTable live named

private theorem ofClass_mem_ofTable : Target.ofClass entry.1 entry.2 ∈ Target.ofTable table := by
  refine List.mem_append_left _ (List.mem_map.mpr ⟨entry, List.mem_filter.mpr ⟨inTable, ?_⟩, rfl⟩)
  simp [live, named]

private theorem name_mem_names (layout : PackageLayout) :
    entry.2.name ∈ (Counter.ofVisibility (.ofTable table layout)).names.classes :=
  List.mem_map.mpr ⟨_, List.mem_filter.mpr ⟨ofClass_mem_ofTable inTable live named, rfl⟩, rfl⟩

end

/-- Counting a variable of a class and its initializer once never hides the class: on each line of its file at least
half of the occurrences that have the shape of a use are counted. -/
theorem countFile_countedByLine (table : SymbolTable) (layout : PackageLayout) {entry : SymbolKey × ClassEntity}
    (inTable : entry ∈ table.classes.entries) (live : entry.2.commentedOut = false)
    (named : entry.2.isAnonymous = false) (alone : table.functions.contains entry.1 = false)
    (counts : SortedMap SymbolKey ExactCounts) {file : Path} (own : entry.2.file.same file) (contents : List Char) :
    let counter := Counter.ofVisibility (.ofTable table layout)
    CountedByLine counter entry file contents (countsOf counts entry.1)
      (countsOf (counter.countFile counts file contents) entry.1) := by
  intro counter
  have known : entry.2.name ∈ counter.names.classes := name_mem_names inTable live named layout
  have added : (countsOf (counter.countFile counts file contents) entry.1).internal =
      (countsOf counts entry.1).internal +
        ((numberedLines contents).map (counter.internalOn entry file contents)).foldr (· + ·) 0 := by
    have merged : countsOf (counter.countFile counts file contents) entry.1 = _ :=
      countsOf_foldl_addCounts_of_single _ (ofClass_mem_ofTable inTable live named) (single_ofTable alone) counts
    rw [merged, ExactCounts.internal_merge, ← Counter.internal_countIn_mentions own]
    rfl
  have aside (line : SanitizedLine × Nat) (quiet : isDirectiveLine line.1.code ∨ line.2 = entry.2.line) :
      counter.internalOn entry file contents line = 0 := by
    rw [Counter.internalOn_eq own]
    rcases quiet with directive | declared
    · rw [mentionsOfLine_directive directive, List.countP_nil, ite_self]
    · rw [if_pos declared]
  have half (line : SanitizedLine × Nat) (plain : isDirectiveLine line.1.code = false) (apart : line.2 ≠ entry.2.line) :
      let shaped := (classUses entry.2.name (scan true file contents).sites line.1.code line.2).length
      counter.internalOn entry file contents line ≤ shaped ∧
        shaped ≤ 2 * counter.internalOn entry file contents line := by
    rw [Counter.internalOn_eq own, if_neg apart]
    exact countP_mentionsOfLine known _ plain line.2
  refine ⟨added, fun line _ => aside line, fun line _ => half line, ?_⟩
  rw [added, Nat.add_eq_left, foldr_add_eq_zero_iff]
  refine forall₂_congr fun line _ => ?_
  constructor
  · intro none plain apart
    have bounds := half line plain apart
    exact List.length_eq_zero_iff.mp (by omega)
  · intro none
    by_cases quiet : isDirectiveLine line.1.code ∨ line.2 = entry.2.line
    · exact aside line quiet
    · rw [not_or, Bool.not_eq_true] at quiet
      have bounds := half line quiet.1 quiet.2
      rw [none quiet.1 quiet.2] at bounds
      exact Nat.le_zero.mp bounds.1

def fooOn (line : Nat) : ClassEntity := ⟨"Foo", ⟨"a.dart"⟩, .plainClass, line, 6, false, false, .none⟩

def fooTable (line : Nat) : SymbolTable := SymbolTable.empty.insertClass (fooOn line)

/-- A variable with an initializer below the class. -/
theorem countFile_countedByLine_initialized :
    let contents := "class Foo \x7b\x7d\nFoo foo = Foo();".toList
    let counter := Counter.ofVisibility (.ofTable (fooTable 1) (.libSegment ⟨.empty⟩))
    let key := (fooOn 1).key
    (key, fooOn 1) ∈ (fooTable 1).classes.entries ∧
      CountedByLine counter (key, fooOn 1) ⟨"a.dart"⟩ contents .none
        (countsOf (counter.countFile .empty ⟨"a.dart"⟩ contents) key) :=
  ⟨List.mem_singleton_self _, countFile_countedByLine (fooTable 1) _ (List.mem_singleton_self _) rfl (by decide) rfl
    .empty (Path.same_refl _) _⟩

/-- What an import hides has the shape of a use, but is none: nothing is counted. -/
theorem classUses_of_directive :
    let contents := "import 'b.dart' hide A, Foo;\nclass Foo \x7b\x7d".toList
    let counter := Counter.ofVisibility (.ofTable (fooTable 2) (.libSegment ⟨.empty⟩))
    let key := (fooOn 2).key
    (countsOf (counter.countFile .empty ⟨"a.dart"⟩ contents) key).internal = 0 ∧
      ∃ line ∈ numberedLines contents, line.2 ≠ (fooOn 2).line ∧
        classUses "Foo" (scan true ⟨"a.dart"⟩ contents).sites line.1.code line.2 ≠ [] := by
  decide +kernel

end DeadCode.Usage
