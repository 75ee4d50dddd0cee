import DeadCode.Proofs.Matching
import DeadCode.Proofs.ExactCounts
import DeadCode.Proofs.Visible
import Mathlib.Data.List.Nodup
import Mathlib.Data.List.Pairwise

/-!
No use is counted twice, and none that is not there. Whatever a file adds to the counts of a symbol can
be matched with as many different places of the file; at each of them the name of the symbol stands as
code, outside of directives and definitions.
-/
namespace DeadCode.Usage
open DeadCode.Text DeadCode.Text.Pattern DeadCode.Source

/-! ### Names in a line -/

/-- A name stands at a position of a blanked line, all of it and not as the end of a longer one. -/
def NamedAt (word : String) (code : List Char) (column : Nat) : Prop :=
  ∃ found ∈ name.findAll code, found.start = column ∧
    slice code column found.finish.offset = word.toList ∧ (takeBytes column code).getLast?.any isNameChar = false

private theorem pairwise_namesIn (code : List Char) : (namesIn code).Pairwise (·.1 < ·.1) :=
  .filter _ (List.pairwise_map.mpr (pairwise_start_findAll name code))

private theorem namedAt_of_mem_namesIn {code : List Char} {start : Nat} {occurrence : Occurrence}
    (member : (start, occurrence) ∈ namesIn code) :
    NamedAt (String.ofList occurrence.name) code start ∧ byteLength occurrence.before = start := by
  obtain ⟨inAll, apart⟩ := List.mem_filter.mp member
  obtain ⟨found, inFound, same⟩ := List.mem_map.mp inAll
  obtain ⟨rfl, rfl⟩ := Prod.mk.inj same
  refine ⟨⟨found, inFound, rfl, String.toList_ofList.symm, (Bool.not_eq_true' _).mp apart⟩, ?_⟩
  obtain ⟨before, word, after, rfl, start, -⟩ := exists_split_of_mem_findAll_name inFound
  rw [start]
  exact congrArg byteLength (takeBytes_append before (word ++ after))

/-- A name that a blanked line shows stands as code in the line itself. -/
private theorem NamedAt.standsAsCode {word : String} {line : List (Char × Mark)} {column : Nat}
    (named : NamedAt word (codeOf line) column) : StandsAsCode word line column := by
  obtain ⟨found, inFound, rfl, spelled, -⟩ := named
  obtain ⟨before, text, after, split, start, finish, isName⟩ := exists_split_of_mem_findAll_name inFound
  have written : word.toList = text := by
    rw [← spelled, start, finish, split, slice, dropBytes_append, Nat.add_sub_cancel_left, takeBytes_append]
  rw [start]
  rw [← written] at split isName
  exact standsAsCode_of_codeOf_eq isName.ne_nil isName.blank_notMem split

/-! ### Mentions -/

def Mention.position (mention : Mention) : Nat × Nat := (mention.line, byteLength mention.occurrence.before)

def Occurrence.mention (role : Role) (line : Nat) (occurrence : Occurrence) : Mention :=
  ⟨role, String.ofList occurrence.name, line, occurrence⟩

private theorem functionUse_sublist (names : Names) (line : Nat) (withFunctions : Bool)
    (occurrence : Occurrence) :
    (if withFunctions then functionUse names line (String.ofList occurrence.name) occurrence else []).Sublist
      [occurrence.mention .function line] := by
  unfold functionUse
  split
  · split
    · exact .refl _
    · exact List.nil_sublist _
  · exact List.nil_sublist _

/-- Used as a function, or as a type and a function, an occurrence is mentioned once in each role. -/
private theorem filter_uses_sublist {occurrence : Occurrence} {line : Nat} {asFunction : List Mention}
    (once : asFunction.Sublist [occurrence.mention .function line]) (role : Role) :
    (asFunction.filter (·.role = role)).Sublist [occurrence.mention role line] ∧
      ((occurrence.mention .type line :: asFunction).filter (·.role = role)).Sublist
        [occurrence.mention role line] := by
  have filtered := once.filter fun mention => decide (mention.role = role)
  cases role with
  | type => exact ⟨filtered.trans (List.nil_sublist _), filtered.cons_cons _⟩
  | function => exact ⟨filtered, filtered⟩

/-- In each role an occurrence is mentioned at most once. -/
private theorem filter_mentionsFrom_sublist (names : Names) (line : Nat) (withFunctions : Bool) (role : Role)
    (consumed : List String) (occurrences : List Occurrence) :
    ((mentionsFrom names line withFunctions consumed occurrences).filter (·.role = role)).Sublist
      (occurrences.map (·.mention role line)) := by
  induction occurrences generalizing consumed with
  | nil => exact .refl _
  | cons occurrence rest ih =>
    have uses := filter_uses_sublist (functionUse_sublist names line withFunctions occurrence) role
    rw [mentionsFrom]
    split
    · split
      · exact (ih _).cons _
      · split
        · rw [List.filter_append]
          exact uses.1.append (ih _)
        · rw [← List.cons_append, List.filter_append]
          exact uses.2.append (ih _)
    · rw [List.filter_append]
      exact uses.1.append (ih _)

def freeNames (sites : List (Nat × Nat)) (code : List Char) (line : Nat) : List (Nat × Occurrence) :=
  (namesIn code).filter fun use => !sites.contains (line, use.1)

theorem filterMap_eq_freeNames (sites : List (Nat × Nat)) (code : List Char) (line : Nat) :
    ((namesIn code).filterMap fun (start, occurrence) =>
      if sites.contains (line, start) then none else some occurrence) = (freeNames sites code line).map (·.2) := by
  unfold freeNames
  induction namesIn code with
  | nil => rfl
  | cons use rest ih => by_cases site : (line, use.1) ∈ sites <;> simp_all

private theorem filter_mentionsOfLine_sublist (names : Names) (sites : List (Nat × Nat)) (code : List Char)
    (line : Nat) (role : Role) :
    ((mentionsOfLine names sites code line).filter (·.role = role)).Sublist
      ((freeNames sites code line).map (·.2.mention role line)) := by
  rw [mentionsOfLine]
  split
  · exact List.nil_sublist _
  · rw [filterMap_eq_freeNames]
    have once := filter_mentionsFrom_sublist names line (!isDeclarationLine code) role []
      ((freeNames sites code line).map (·.2))
    rwa [List.map_map] at once

private theorem map_position_freeNames (sites : List (Nat × Nat)) (code : List Char) (line : Nat) (role : Role) :
    ((freeNames sites code line).map (·.2.mention role line)).map (·.position) =
      (freeNames sites code line).map fun use => (line, use.1) := by
  rw [List.map_map]
  refine List.map_congr_left fun use member => congrArg (line, ·) ?_
  exact (namedAt_of_mem_namesIn (List.mem_filter.mp member).1).2

private theorem nodup_position_mentionsOfLine (names : Names) (sites : List (Nat × Nat)) (code : List Char)
    (line : Nat) (role : Role) :
    (((mentionsOfLine names sites code line).filter (·.role = role)).map (·.position)).Nodup := by
  refine ((filter_mentionsOfLine_sublist names sites code line role).map _).nodup ?_
  rw [map_position_freeNames]
  refine List.pairwise_map.mpr (((pairwise_namesIn code).filter _).imp fun less same => ?_)
  exact absurd (Prod.mk.inj same).2 (Nat.ne_of_lt less)

theorem of_mem_mentionsOfLine {names : Names} {sites : List (Nat × Nat)} {code : List Char}
    {line : Nat} {mention : Mention} (member : mention ∈ mentionsOfLine names sites code line) :
    isDirectiveLine code = false ∧ mention.line = line ∧ mention.position ∉ sites ∧
      NamedAt mention.name code mention.position.2 := by
  have plain : isDirectiveLine code = false := by
    rw [mentionsOfLine] at member
    split at member
    · cases member
    · simp_all
  have kept : mention ∈ (mentionsOfLine names sites code line).filter (·.role = mention.role) :=
    List.mem_filter.mpr ⟨member, decide_eq_true rfl⟩
  obtain ⟨use, free, same⟩ := List.mem_map.mp ((filter_mentionsOfLine_sublist ..).subset kept)
  obtain ⟨found, noSite⟩ := List.mem_filter.mp free
  obtain ⟨named, start⟩ := namedAt_of_mem_namesIn found
  have position : mention.position = (line, use.1) := by
    rw [← same, ← start]
    rfl
  refine ⟨plain, same ▸ rfl, ?_, ?_⟩
  · rw [position]
    simpa using noSite
  · rw [position, ← same]
    exact named

/-- In each role no two mentions stand at the same place. -/
theorem nodup_position_mentions (names : Names) (sites : List (Nat × Nat)) (clean : List SanitizedLine)
    (role : Role) : (((mentions names sites clean).filter (·.role = role)).map (·.position)).Nodup := by
  rw [mentions, List.filter_flatMap, List.map_flatMap]
  refine List.nodup_flatMap.mpr ⟨fun line _ => nodup_position_mentionsOfLine names sites _ _ role, ?_⟩
  have numbers : ((clean.zipIdx 1).map (·.2)).Nodup := by
    rw [List.zipIdx_map_snd]
    exact List.nodup_range'
  refine (List.pairwise_map.mp numbers).imp fun apart position inOne inOther => ?_
  obtain ⟨one, keptOne, rfl⟩ := List.mem_map.mp inOne
  obtain ⟨other, keptOther, same⟩ := List.mem_map.mp inOther
  have lineOne := (of_mem_mentionsOfLine (List.mem_filter.mp keptOne).1).2.1
  have lineOther := (of_mem_mentionsOfLine (List.mem_filter.mp keptOther).1).2.1
  exact apart (lineOne.symm.trans ((Prod.mk.inj same).1.symm.trans lineOther))

theorem of_mem_mentions {names : Names} {sites : List (Nat × Nat)} {clean : List SanitizedLine}
    {mention : Mention} (member : mention ∈ mentions names sites clean) :
    ∃ line, (line, mention.line) ∈ clean.zipIdx 1 ∧ isDirectiveLine line.code = false ∧
      mention.position ∉ sites ∧ NamedAt mention.name line.code mention.position.2 := by
  obtain ⟨⟨line, number⟩, inLines, onLine⟩ := List.mem_flatMap.mp member
  obtain ⟨plain, rfl, noSite, named⟩ := of_mem_mentionsOfLine onLine
  exact ⟨line, inLines, plain, noSite, named⟩

/-! ### Symbols -/

structure UseAt (target : Target) (file : Path) (contents : List Char) (position : Nat × Nat) : Prop where
  /-- The name stands there in the blanked line, which is no directive. -/
  named : ∃ line, (line, position.1) ∈ (sanitize (lines contents)).zipIdx 1 ∧
    isDirectiveLine line.code = false ∧ NamedAt target.lookup line.code position.2
  /-- No symbol is defined there. -/
  free : position ∉ (scan true file contents).sites
  /-- The line is not that of the declaration of the symbol. -/
  apart : target.file.same file → position.1 ≠ target.declarationLine

theorem countIn_eq (target : Target) (visibility : Visibility) (user : Path) (found : List Mention) :
    target.countIn visibility user found =
      if target.file.same user then
        ExactCounts.none.addInternal ((target.uses found).countP fun (line, _) => line != target.declarationLine)
      else
        ExactCounts.none.addExternal user
          ((target.uses found).countP fun (_, qualifier) => (target.access visibility user).allows qualifier) := by
  rw [Target.countIn]
  split
  case h_1 none => split <;> simp [none, ExactCounts.addInternal, ExactCounts.addExternal, ExactCounts.none]
  case h_2 => rfl

/-- Whether a mention is a use of the symbol that satisfies a condition. -/
private def isCounted (target : Target) (counts : Nat × Option String → Bool) (mention : Mention) : Bool :=
  mention.role = target.role && mention.name == target.lookup &&
    (target.qualifier? mention.occurrence).any fun qualifier => counts (mention.line, qualifier)

private theorem countP_uses (target : Target) (found : List Mention) (counts : Nat × Option String → Bool) :
    (target.uses found).countP counts = (found.filter (isCounted target counts)).length := by
  rw [Target.uses, List.countP_filterMap, List.countP_eq_length_filter]
  congr 2
  funext mention
  rw [isCounted]
  split
  case isTrue refers =>
    rw [refers, Bool.true_and]
    cases target.qualifier? mention.occurrence <;> rfl
  case isFalse refers =>
    rw [(Bool.not_eq_true _).mp refers]
    rfl

/-- Each use that satisfies a condition is a mention at a place of its own. -/
private theorem exists_places (target : Target) (names : Names) (sites : List (Nat × Nat))
    (clean : List SanitizedLine) (counts : Nat × Option String → Bool) :
    ∃ places : List (Nat × Nat), places.Nodup ∧
      (target.uses (mentions names sites clean)).countP counts = places.length ∧
      ∀ place ∈ places, (∃ qualifier, counts (place.1, qualifier)) ∧ place ∉ sites ∧
        ∃ line, (line, place.1) ∈ clean.zipIdx 1 ∧ isDirectiveLine line.code = false ∧
          NamedAt target.lookup line.code place.2 := by
  have refers (mention : Mention) (counted : isCounted target counts mention) :
      mention.role = target.role ∧ mention.name = target.lookup ∧ ∃ qualifier, counts (mention.line, qualifier) := by
    simp only [isCounted, Bool.and_eq_true, decide_eq_true_eq, beq_iff_eq, Option.any_eq_true] at counted
    obtain ⟨⟨role, name⟩, qualifier, -, satisfied⟩ := counted
    exact ⟨role, name, qualifier, satisfied⟩
  refine ⟨((mentions names sites clean).filter (isCounted target counts)).map (·.position), ?_, ?_, ?_⟩
  · have inRole : ((mentions names sites clean).filter (isCounted target counts)).Sublist
        ((mentions names sites clean).filter (·.role = target.role)) :=
      List.monotone_filter_right _ fun mention counted => decide_eq_true (refers mention counted).1
    exact (inRole.map _).nodup (nodup_position_mentions names sites clean target.role)
  · rw [countP_uses, List.length_map]
  · intro place member
    obtain ⟨mention, kept, rfl⟩ := List.mem_map.mp member
    obtain ⟨inMentions, counted⟩ := List.mem_filter.mp kept
    obtain ⟨-, name, qualifier⟩ := refers mention counted
    obtain ⟨line, inLines, plain, noSite, named⟩ := of_mem_mentions inMentions
    exact ⟨qualifier, noSite, line, inLines, plain, name ▸ named⟩

/-- What a file adds to the counts of a symbol is one for each of some different places. -/
private theorem exists_places_countIn (target : Target) (names : Names) (visibility : Visibility) (file : Path)
    (contents : List Char) :
    ∃ places : List (Nat × Nat), places.Nodup ∧ (∀ place ∈ places, UseAt target file contents place) ∧
      target.countIn visibility file (mentions names (scan true file contents).sites (sanitize (lines contents))) =
        if target.file.same file then ExactCounts.none.addInternal places.length
        else ExactCounts.none.addExternal file places.length := by
  rw [countIn_eq]
  split
  case isTrue same =>
    obtain ⟨places, nodup, length, each⟩ := exists_places target names (scan true file contents).sites
      (sanitize (lines contents)) fun (line, _) => line != target.declarationLine
    refine ⟨places, nodup, fun place member => ?_, by rw [length]⟩
    obtain ⟨⟨_, other⟩, free, named⟩ := each place member
    exact ⟨named, free, fun _ => bne_iff_ne.mp other⟩
  case isFalse apart =>
    obtain ⟨places, nodup, length, each⟩ := exists_places target names (scan true file contents).sites
      (sanitize (lines contents)) fun (_, qualifier) => (target.access visibility file).allows qualifier
    refine ⟨places, nodup, fun place member => ?_, by rw [length]⟩
    obtain ⟨_, free, named⟩ := each place member
    exact ⟨named, free, fun same => absurd same apart⟩

/-- Wherever the name stands in the file as code, it is in a directive or a definition. -/
def StandsAside (name : String) (file : Path) (contents : List Char) : Prop :=
  ∀ line number column, (line, number) ∈ (markedLines (lines contents)).zipIdx 1 →
    StandsAsCode name line column →
      isDirectiveLine (codeOf line) ∨ (number, column) ∈ (scan true file contents).sites

private theorem exists_markedLine {text : List (List Char)} {clean : SanitizedLine} {number : Nat}
    (member : (clean, number) ∈ (sanitize text).zipIdx 1) :
    ∃ line, (line, number) ∈ (markedLines text).zipIdx 1 ∧ codeOf line = clean.code := by
  have shown : (clean.code, number) ∈ ((sanitize text).map (·.code)).zipIdx 1 := by
    rw [List.zipIdx_map]
    exact List.mem_map.mpr ⟨_, member, rfl⟩
  rw [map_code_sanitize, List.zipIdx_map] at shown
  obtain ⟨⟨line, _⟩, inMarked, same⟩ := List.mem_map.mp shown
  obtain ⟨code, rfl⟩ := Prod.mk.inj same
  exact ⟨line, inMarked, code⟩

private theorem UseAt.not_standsAside {target : Target} {file : Path} {contents : List Char}
    {position : Nat × Nat} (use : UseAt target file contents position) :
    ¬ StandsAside target.lookup file contents := by
  intro aside
  obtain ⟨clean, inLines, plain, named⟩ := use.named
  obtain ⟨line, inMarked, shown⟩ := exists_markedLine inLines
  rw [← shown] at plain named
  rcases aside line _ _ inMarked named.standsAsCode with directive | site
  · exact absurd directive (plain ▸ Bool.false_ne_true)
  · exact use.free site

/-! ### Keys -/

theorem compare_key_ne_of_ordered {ν : Type} {map : SortedMap SymbolKey ν} (keep : SymbolKey × ν → Bool)
    (targetOf : SymbolKey × ν → Target) (key : ∀ entry, (targetOf entry).key = entry.1) :
    ((map.entries.filter keep).map targetOf).Pairwise fun a b => compare a.key b.key ≠ .eq := by
  refine List.pairwise_map.mpr ((map.ordered.filter keep).imp fun less => ?_)
  rw [key, key, less]
  nofun

/-- Symbols that can be used are classes that are neither commented out nor without a name, and functions
that are not commented out. -/
theorem of_mem_ofTable {table : SymbolTable} {target : Target} (member : target ∈ Target.ofTable table) :
    (∃ entry ∈ table.classes.entries, (entry.2.commentedOut = false ∧ entry.2.isAnonymous = false) ∧
        target = .ofClass entry.1 entry.2) ∨
      ∃ entry ∈ table.functions.entries, entry.2.commentedOut = false ∧ target = .ofFunction entry.1 entry.2 := by
  rcases List.mem_append.mp member with member | member
  · obtain ⟨entry, kept, rfl⟩ := List.mem_map.mp member
    obtain ⟨inClasses, live⟩ := List.mem_filter.mp kept
    rw [Bool.and_eq_true, Bool.not_eq_true', Bool.not_eq_true'] at live
    exact .inl ⟨entry, inClasses, live, rfl⟩
  · obtain ⟨entry, kept, rfl⟩ := List.mem_map.mp member
    obtain ⟨inFunctions, live⟩ := List.mem_filter.mp kept
    exact .inr ⟨entry, inFunctions, (Bool.not_eq_true' _).mp live, rfl⟩

section
variable {table : SymbolTable}
  (disjoint : ∀ key, table.classes.contains key → table.functions.contains key = false)
include disjoint

private theorem compare_ne_of_disjoint {cls : SymbolKey × ClassEntity} {fn : SymbolKey × FunctionEntity}
    (inClasses : cls ∈ table.classes.entries) (inFunctions : fn ∈ table.functions.entries) :
    compare cls.1 fn.1 ≠ .eq := by
  intro same
  have absent := disjoint _ (SortedMap.contains_of_mem inClasses)
  rw [SortedMap.contains_congr _ same, SortedMap.contains_of_mem inFunctions] at absent
  cases absent

/-- The symbols have different keys if no class has that of a function. -/
private theorem pairwise_key_ofTable :
    (Target.ofTable table).Pairwise fun a b => compare a.key b.key ≠ .eq := by
  rw [Target.ofTable, List.pairwise_append]
  refine ⟨compare_key_ne_of_ordered _ _ fun _ => rfl, compare_key_ne_of_ordered _ _ fun _ => rfl, ?_⟩
  intro cls inClasses fn inFunctions same
  obtain ⟨classEntry, classKept, rfl⟩ := List.mem_map.mp inClasses
  obtain ⟨functionEntry, functionKept, rfl⟩ := List.mem_map.mp inFunctions
  exact compare_ne_of_disjoint disjoint (List.mem_filter.mp classKept).1 (List.mem_filter.mp functionKept).1 same

private theorem eq_of_compare_key_eq {a b : Target} (inTable : a ∈ Target.ofTable table)
    (inTableToo : b ∈ Target.ofTable table) (same : compare a.key b.key = .eq) : a = b := by
  have : Std.Symm fun a b : Target => compare a.key b.key ≠ .eq :=
    ⟨fun _ _ apart same => apart (Std.OrientedCmp.eq_symm same)⟩
  by_contra different
  exact (pairwise_key_ofTable disjoint).forall inTable inTableToo different same

/-- No symbol that is looked for has the key of a class that is commented out or has no name. -/
private theorem compare_key_ne_of_idle_class {entry : SymbolKey × ClassEntity}
    (inClasses : entry ∈ table.classes.entries) (idle : entry.2.commentedOut ∨ entry.2.isAnonymous)
    {target : Target} (member : target ∈ Target.ofTable table) : compare entry.1 target.key ≠ .eq := by
  intro same
  rcases of_mem_ofTable member with ⟨other, inClassesToo, live, rfl⟩ | ⟨other, inFunctions, -, rfl⟩
  · rw [SortedMap.snd_eq_of_mem inClasses inClassesToo same, live.1, live.2] at idle
    exact idle.elim Bool.false_ne_true Bool.false_ne_true
  · exact compare_ne_of_disjoint disjoint inClasses inFunctions same

private theorem compare_key_ne_of_idle_function {entry : SymbolKey × FunctionEntity}
    (inFunctions : entry ∈ table.functions.entries) (idle : entry.2.commentedOut) {target : Target}
    (member : target ∈ Target.ofTable table) : compare entry.1 target.key ≠ .eq := by
  intro same
  rcases of_mem_ofTable member with ⟨other, inClasses, -, rfl⟩ | ⟨other, inFunctionsToo, live, rfl⟩
  · exact compare_ne_of_disjoint disjoint inClasses inFunctions (Std.OrientedCmp.eq_symm same)
  · rw [SortedMap.snd_eq_of_mem inFunctions inFunctionsToo same, live] at idle
    exact Bool.false_ne_true idle

end

private theorem name_eq_of_contains {ν : Type} {map : SortedMap SymbolKey ν} {entry : SymbolKey × ν}
    (single : map.entries = [entry]) {key : SymbolKey} (found : map.contains key) : key.name = entry.1.name := by
  obtain ⟨value, found⟩ := Option.isSome_iff_exists.mp found
  obtain ⟨other, member, same, -⟩ := SortedMap.exists_mem_of_get? found
  rw [single, List.mem_singleton] at member
  exact (SymbolKey.compare_eq_iff.mp (member ▸ same)).2.2.1

section
variable {targets : List Target} (more : Target → ExactCounts)

theorem get?_foldl_addCounts {key : SymbolKey} (counts : SortedMap SymbolKey ExactCounts)
    (silent : ∀ target ∈ targets, compare key target.key = .eq → (more target).isEmpty) :
    (targets.foldl (fun counts target => addCounts counts target.key (more target)) counts).get? key =
      counts.get? key := by
  induction targets generalizing counts with
  | nil => rfl
  | cons target rest ih =>
    obtain ⟨first, others⟩ := List.forall_mem_cons.mp silent
    rw [List.foldl_cons, ih _ others]
    by_cases same : compare key target.key = .eq
    · rw [addCounts, if_pos (first same)]
    · exact get?_addCounts_of_ne counts _ same

theorem countsOf_foldl_addCounts_of_single {target : Target} (member : target ∈ targets)
    (single : targets.Pairwise fun a b => compare target.key a.key = .eq → compare target.key b.key ≠ .eq)
    (counts : SortedMap SymbolKey ExactCounts) :
    countsOf (targets.foldl (fun counts target => addCounts counts target.key (more target)) counts) target.key =
      (countsOf counts target.key).merge (more target) := by
  induction targets generalizing counts with
  | nil => cases member
  | cons head rest ih =>
    obtain ⟨first, others⟩ := List.pairwise_cons.mp single
    rw [List.foldl_cons]
    rcases List.mem_cons.mp member with rfl | member
    · have silent : ∀ other ∈ rest, compare target.key other.key = .eq → (more other).isEmpty :=
        fun other inRest same => absurd same (first other inRest Std.ReflCmp.compare_self)
      rw [countsOf, get?_foldl_addCounts more _ silent]
      exact countsOf_addCounts counts _ Std.ReflCmp.compare_self
    · have later : compare target.key head.key ≠ .eq := fun same =>
        first target member same Std.ReflCmp.compare_self
      rw [ih member others, countsOf, get?_addCounts_of_ne counts _ later, countsOf]

private theorem countsOf_foldl_addCounts (apart : targets.Pairwise fun a b => compare a.key b.key ≠ .eq)
    (counts : SortedMap SymbolKey ExactCounts) {target : Target} (member : target ∈ targets) :
    countsOf (targets.foldl (fun counts target => addCounts counts target.key (more target)) counts) target.key =
      (countsOf counts target.key).merge (more target) := by
  refine countsOf_foldl_addCounts_of_single more member (apart.imp fun different here there => ?_) counts
  exact different (Std.TransCmp.eq_trans (Std.OrientedCmp.eq_symm here) there)

end

structure AddsPlaces (table : SymbolTable) (file : Path) (contents : List Char)
    (counts after : SortedMap SymbolKey ExactCounts) : Prop where
  /-- One for each of some different places: to the internal uses if the file declares the symbol,
  otherwise to those by the file. -/
  places : ∀ target ∈ Target.ofTable table, ∃ places : List (Nat × Nat),
    places.Nodup ∧ (∀ place ∈ places, UseAt target file contents place) ∧
      (countsOf after target.key).internal =
        (countsOf counts target.key).internal + (if target.file.same file then places.length else 0) ∧
      ∀ user, (countsOf after target.key).usesBy user = (countsOf counts target.key).usesBy user +
        if !target.file.same file && user.same file then places.length else 0
  /-- Nothing if the name stands only in comments, literals, directives and definitions. -/
  aside : ∀ target ∈ Target.ofTable table,
    StandsAside target.lookup file contents → after.get? target.key = counts.get? target.key
  /-- Nothing to a class that is commented out or has no name. -/
  idleClass : ∀ entry ∈ table.classes.entries, entry.2.commentedOut ∨ entry.2.isAnonymous →
    after.get? entry.1 = counts.get? entry.1
  /-- Nothing to a function that is commented out. -/
  idleFunction : ∀ entry ∈ table.functions.entries, entry.2.commentedOut →
    after.get? entry.1 = counts.get? entry.1

/-- Uses are not counted twice, and only where they are, if no class has the key of a function. -/
theorem countFile_addsPlaces (table : SymbolTable) (layout : PackageLayout)
    (disjoint : ∀ key, table.classes.contains key → table.functions.contains key = false)
    (counts : SortedMap SymbolKey ExactCounts) (file : Path) (contents : List Char) :
    AddsPlaces table file contents counts
      ((Counter.ofVisibility (.ofTable table layout)).countFile counts file contents) := by
  let counter := Counter.ofVisibility (.ofTable table layout)
  let found := mentions counter.names (scan true file contents).sites (sanitize (lines contents))
  refine ⟨fun target member => ?_, fun target member aside => ?_, fun entry inClasses idle => ?_,
    fun entry inFunctions idle => ?_⟩
  · obtain ⟨places, nodup, uses, added⟩ :=
      exists_places_countIn target counter.names counter.visibility file contents
    have merged : countsOf (counter.countFile counts file contents) target.key =
        (countsOf counts target.key).merge (target.countIn counter.visibility file found) :=
      countsOf_foldl_addCounts _ (pairwise_key_ofTable disjoint) counts member
    refine ⟨places, nodup, uses, ?_⟩
    rw [merged, added]
    split
    case isTrue same =>
      rw [ExactCounts.merge_addInternal]
      exact ⟨rfl, fun user => by simp [same, ExactCounts.usesBy, ExactCounts.addInternal]⟩
    case isFalse apart =>
      rw [ExactCounts.merge_addExternal, ExactCounts.internal_addExternal]
      exact ⟨rfl, fun user => by simp [apart, ExactCounts.usesBy_addExternal]⟩
  · refine get?_foldl_addCounts _ counts fun other inTargets same => ?_
    obtain rfl := eq_of_compare_key_eq disjoint member inTargets same
    obtain ⟨places, -, uses, added⟩ :=
      exists_places_countIn target counter.names counter.visibility file contents
    obtain rfl : places = [] :=
      List.eq_nil_iff_forall_not_mem.mpr fun place inPlaces => (uses place inPlaces).not_standsAside aside
    rw [added]
    split <;> rfl
  · exact get?_foldl_addCounts _ counts fun target member same =>
      absurd same (compare_key_ne_of_idle_class disjoint inClasses idle member)
  · exact get?_foldl_addCounts _ counts fun target member same =>
      absurd same (compare_key_ne_of_idle_function disjoint inFunctions idle member)

/-- A table of a class and a function, and a file that calls both. -/
theorem countFile_addsPlaces_two_symbols :
    let file : Path := ⟨"a.dart"⟩
    let table := (SymbolTable.empty.insertClass ⟨"A", file, .plainClass, 1, 6, false, false, .none⟩).insertFunction
      ⟨"f", "", file, 2, 5, false, false, false, false, false, false, .none⟩
    let contents := ['A', '(', ')', ';', 'f', '(', ')', ';', '/', '/', 'A']
    (∀ key, table.classes.contains key → table.functions.contains key = false) ∧
      AddsPlaces table file contents .empty
        ((Counter.ofVisibility (.ofTable table (.libSegment ⟨.empty⟩))).countFile .empty file contents) := by
  intro file table contents
  have disjoint : ∀ key, table.classes.contains key → table.functions.contains key = false := by
    intro key inClasses
    by_contra inFunctions
    have asClass : key.name = "A" := name_eq_of_contains rfl inClasses
    have asFunction : key.name = "f" := name_eq_of_contains rfl (Bool.of_not_eq_false inFunctions)
    exact absurd (asClass.symm.trans asFunction) (by decide)
  exact ⟨disjoint, countFile_addsPlaces table _ disjoint .empty file contents⟩

end DeadCode.Usage
