import DeadCode.Proofs.UsageSums
import Mathlib.Algebra.Order.BigOperators.Group.List
import Mathlib.Data.List.Perm.Basic
import Mathlib.Data.String.Basic

/-!
Verdicts follow from uses. Counts that were built up by adding and merging, in whatever order, hold what was added, and
no file without uses, as long as the sums fit into a word. Then the category of a symbol that only its uses can excuse
is read off what was added for it. In any case each class and each function of a table gets one finding.
-/
namespace DeadCode

/-! ### Words -/

theorem wrap64_eq_self {n : Nat} (fits : n < 2 ^ 64) : wrap64 n = n := Nat.mod_eq_of_lt fits

namespace UsageCounts

theorem internal_addExternal (counts : UsageCounts) (file : Path) (n : Nat) :
    (counts.addExternal file n).internal = counts.internal := by
  rw [addExternal]
  split <;> rfl

theorem internal_merge (counts other : UsageCounts) :
    (counts.merge other).internal = wrap64 (counts.internal + other.internal) := by
  have kept (entries : List (Path × Nat)) (sum : UsageCounts) :
      (entries.foldl (fun result entry => result.addExternal entry.1 entry.2) sum).internal = sum.internal := by
    induction entries generalizing sum with
    | nil => rfl
    | cons head rest ih => rw [List.foldl_cons, ih, internal_addExternal]
  exact kept other.external.entries _

section
variable {counts : UsageCounts} {exact : ExactCounts} (same : counts.external = exact.external)
include same

/-- A sum that fits into a word is the exact one. -/
theorem external_addExternal {n : Nat} (fits : exact.externalTotal + n < 2 ^ 64) (file : Path) :
    (counts.addExternal file n).external = (exact.addExternal file n).external := by
  by_cases zero : n = 0
  · rw [addExternal, ExactCounts.addExternal, if_pos zero, dif_pos zero, same]
  · rw [addExternal, ExactCounts.addExternal, if_neg zero, dif_neg zero, same]
    refine SortedMap.alter_congr _ _ ?_ fun entry member => ?_
    · exact wrap64_eq_self (show 0 + n < 2 ^ 64 by omega)
    · have part : entry.2 ≤ exact.externalTotal := List.le_sum_of_mem (List.mem_map_of_mem member)
      exact wrap64_eq_self (show entry.2 + n < 2 ^ 64 by omega)

theorem external_merge {other : UsageCounts} {added : ExactCounts} (sameToo : other.external = added.external)
    (fits : exact.externalTotal + added.externalTotal < 2 ^ 64) :
    (counts.merge other).external = (exact.merge added).external := by
  have folded (entries : List (Path × Nat)) {counts : UsageCounts} {exact : ExactCounts}
      (same : counts.external = exact.external)
      (fits : exact.externalTotal + (entries.map (·.2)).foldr (· + ·) 0 < 2 ^ 64) :
      (entries.foldl (fun result entry => result.addExternal entry.1 entry.2) counts).external =
        (entries.foldl (fun result entry => result.addExternal entry.1 entry.2) exact).external := by
    induction entries generalizing counts exact with
    | nil => exact same
    | cons head rest ih =>
      rw [List.map_cons, List.foldr_cons] at fits
      refine ih (external_addExternal same (by omega) head.1) ?_
      rw [ExactCounts.externalTotal_addExternal]
      omega
  rw [merge, sameToo]
  exact folded added.external.entries same fits

end

end UsageCounts

/-! ### Histories -/

inductive UsageHistory where
  | none
  | addInternal (before : UsageHistory) (n : Nat)
  | addExternal (before : UsageHistory) (file : Path) (n : Nat)
  | merge (before other : UsageHistory)

namespace UsageHistory

def counts : UsageHistory → UsageCounts
  | none => .none
  | addInternal before n => before.counts.addInternal n
  | addExternal before file n => before.counts.addExternal file n
  | merge before other => before.counts.merge other.counts

def internal : UsageHistory → Nat
  | none => 0
  | addInternal before n => before.internal + n
  | addExternal before _ _ => before.internal
  | merge before other => before.internal + other.internal

/-- The uses by one other file that were added, however the file was spelled. -/
def externalBy (user : Path) : UsageHistory → Nat
  | none => 0
  | addInternal before _ => before.externalBy user
  | addExternal before file n => before.externalBy user + if user.same file then n else 0
  | merge before other => before.externalBy user + other.externalBy user

def external : UsageHistory → Nat
  | none => 0
  | addInternal before _ => before.external
  | addExternal before _ n => before.external + n
  | merge before other => before.external + other.external

/-- The counts if no sum had to fit into a word. -/
def exact : UsageHistory → ExactCounts
  | none => .none
  | addInternal before n => before.exact.addInternal n
  | addExternal before file n => before.exact.addExternal file n
  | merge before other => before.exact.merge other.exact

theorem externalTotal_exact (history : UsageHistory) : history.exact.externalTotal = history.external := by
  induction history with
  | none => rfl
  | addInternal before n ih => exact ih
  | addExternal before file n ih => rw [exact, ExactCounts.externalTotal_addExternal, ih, external]
  | merge before other ih ihOther => rw [exact, ExactCounts.externalTotal_merge, ih, ihOther, external]

theorem usesBy_exact (history : UsageHistory) (user : Path) :
    history.exact.usesBy user = history.externalBy user := by
  induction history with
  | none => rfl
  | addInternal before n ih => exact ih
  | addExternal before file n ih => rw [exact, ExactCounts.usesBy_addExternal, ih, externalBy]
  | merge before other ih ihOther => rw [exact, ExactCounts.usesBy_merge, ih, ihOther, externalBy]

theorem internal_counts (history : UsageHistory) : history.counts.internal = wrap64 history.internal := by
  induction history with
  | none => rfl
  | addInternal before n ih =>
    show wrap64 (before.counts.internal + n) = wrap64 (before.internal + n)
    rw [ih]
    exact Nat.mod_add_mod _ _ _
  | addExternal before file n ih => rw [counts, UsageCounts.internal_addExternal, ih, internal]
  | merge before other ih ihOther =>
    rw [counts, UsageCounts.internal_merge, ih, ihOther, internal]
    exact (Nat.add_mod _ _ _).symm

theorem external_counts (history : UsageHistory) (fits : history.external < 2 ^ 64) :
    history.counts.external = history.exact.external := by
  induction history with
  | none => rfl
  | addInternal before n ih => exact ih fits
  | addExternal before file n ih =>
    rw [external] at fits
    exact UsageCounts.external_addExternal (ih (by omega)) (by rwa [externalTotal_exact]) file
  | merge before other ih ihOther =>
    rw [external] at fits
    refine UsageCounts.external_merge (ih (by omega)) (ihOther (by omega)) ?_
    rwa [externalTotal_exact, externalTotal_exact]

theorem externalTotal_counts (history : UsageHistory) (fits : history.external < 2 ^ 64) :
    history.counts.externalTotal = history.external := by
  rw [UsageCounts.externalTotal, history.external_counts fits]
  show wrap64 history.exact.externalTotal = history.external
  rw [externalTotal_exact]
  exact wrap64_eq_self fits

end UsageHistory

/-- What a category says about the number of uses. -/
structure Category.AgreesWith (category : Category) (internal external : Nat) : Prop where
  unused : category = .unused ↔ internal = 0 ∧ external = 0
  internalOnly : category = .internalOnly ↔ 0 < internal ∧ external = 0
  used : category = .used ↔ 0 < external

/-- The test whether any file is listed and the sums over the files agree. -/
theorem Category.agreesWith_ofUsage {history : UsageHistory} (fits : history.internal + history.external < 2 ^ 64) :
    (ofUsage history.counts).AgreesWith history.internal history.external := by
  have listed := history.exact.external_isEmpty_iff
  have total : history.counts.total = history.internal + history.external := by
    rw [UsageCounts.total, history.externalTotal_counts (by omega), history.internal_counts]
    exact (Nat.mod_add_mod _ _ _).trans (wrap64_eq_self fits)
  rw [ofUsage, total, history.external_counts (by omega)]
  rw [history.externalTotal_exact] at listed
  split
  case isTrue zero => constructor <;> simp <;> omega
  case isFalse nonzero =>
    split
    case isTrue empty =>
      have zero := listed.mp empty
      constructor <;> simp <;> omega
    case isFalse nonempty =>
      have positive := mt listed.mpr nonempty
      constructor <;> simp <;> omega

namespace SymbolTable

inductive Entry where
  | ofClass (key : SymbolKey) (entity : ClassEntity)
  | ofFunction (key : SymbolKey) (entity : FunctionEntity)

def allEntries (table : SymbolTable) : List Entry :=
  (table.classes.entries.map fun (key, entity) => .ofClass key entity) ++
    table.functions.entries.map fun (key, entity) => .ofFunction key entity

theorem nodup_allEntries (table : SymbolTable) : table.allEntries.Nodup := by
  refine List.nodup_append.mpr ⟨?_, ?_, ?_⟩
  · refine List.pairwise_map.mpr (table.classes.ordered.imp fun less same => ?_)
    simp [(Entry.ofClass.inj same).1] at less
  · refine List.pairwise_map.mpr (table.functions.ordered.imp fun less same => ?_)
    simp [(Entry.ofFunction.inj same).1] at less
  · intro entry inClasses other inFunctions same
    obtain ⟨_, _, rfl⟩ := List.mem_map.mp inClasses
    obtain ⟨_, _, rfl⟩ := List.mem_map.mp inFunctions
    cases same

namespace Entry

def withUsage (usage : UsageCounts) : Entry → Entry
  | ofClass key entity => ofClass key { entity with usage }
  | ofFunction key entity => ofFunction key { entity with usage }

def finding (settings : Settings) : Entry → Finding
  | ofClass _ entity => .ofClass settings entity
  | ofFunction _ entity => .ofFunction settings entity

/-- Whether nothing but its uses can keep the symbol from being reported. -/
def judgedByUse (settings : Settings) : Entry → Bool
  | ofClass _ entity =>
    !entity.commentedOut && !entity.entryPoint && !entity.isAnonymous && !settings.retains entity.name
  | ofFunction _ entity =>
    !entity.commentedOut && !entity.isConstructor && !entity.entryPoint && !settings.retains entity.name &&
      !entity.framework

/-- What was added for the symbol. A function that shares its key with a class gets nothing. -/
def history (table : SymbolTable) (histories : SortedMap SymbolKey UsageHistory) : Entry → UsageHistory
  | ofClass key _ => (histories.get? key).getD .none
  | ofFunction key _ => if table.classes.contains key then .none else (histories.get? key).getD .none

theorem internalUsages_finding (settings : Settings) (entry : Entry) (usage : UsageCounts) :
    ((entry.withUsage usage).finding settings).internalUsages = usage.internal := by
  cases entry <;> rfl

theorem externalUsages_finding (settings : Settings) (entry : Entry) (usage : UsageCounts) :
    ((entry.withUsage usage).finding settings).externalUsages = usage.externalTotal := by
  cases entry <;> rfl

theorem category_finding {settings : Settings} {entry : Entry} (judged : entry.judgedByUse settings)
    (usage : UsageCounts) : ((entry.withUsage usage).finding settings).category = .ofUsage usage := by
  cases entry with
  | ofClass key entity =>
    simp only [judgedByUse, ClassEntity.isAnonymous, Bool.and_eq_true, Bool.not_eq_true'] at judged
    obtain ⟨⟨⟨live, noEntry⟩, named⟩, free⟩ := judged
    simp [withUsage, finding, Finding.ofClass, Category.ofClass, ClassEntity.isAnonymous, live, noEntry, named, free]
  | ofFunction key entity =>
    simp only [judgedByUse, Bool.and_eq_true, Bool.not_eq_true'] at judged
    obtain ⟨⟨⟨⟨live, noConstructor⟩, noEntry⟩, free⟩, own⟩ := judged
    simp [withUsage, finding, Finding.ofFunction, Category.ofFunction, live, noConstructor, noEntry, free, own]

end Entry

theorem allEntries_applyUsage (table : SymbolTable) (histories : SortedMap SymbolKey UsageHistory) :
    (table.applyUsage (histories.mapWithKey fun _ => UsageHistory.counts)).allEntries =
      table.allEntries.map fun entry => entry.withUsage (entry.history table histories).counts := by
  have counted (key : SymbolKey) :
      ((histories.mapWithKey fun _ => UsageHistory.counts).get? key).getD .none =
        ((histories.get? key).getD .none).counts := by
    rw [SortedMap.get?_mapWithKey]
    cases histories.get? key <;> rfl
  simp only [allEntries, applyUsage, counted, SortedMap.entries_mapWithKey, List.map_append, List.map_map]
  congr 1
  refine List.map_congr_left fun entry _ => ?_
  simp only [Function.comp_apply, Entry.withUsage, Entry.history]
  split <;> rfl

end SymbolTable

/-! ### Findings in order -/

/-- Findings are listed by file, those of a file by line, those of a line by column, and those that stand in one place
by name. -/
def Finding.Precedes (a b : Finding) : Prop :=
  compare a.file b.file = .lt ∨ compare a.file b.file = .eq ∧
    (a.line < b.line ∨ a.line = b.line ∧ (a.column < b.column ∨ a.column = b.column ∧ a.name ≤ b.name))

private theorem Finding.isLE_order_iff (a b : Finding) : (a.order b).isLE ↔ a.Precedes b := by
  have names : (compare a.name b.name).isLE ↔ a.name ≤ b.name :=
    Ordering.isLE_iff_ne_gt.trans compare_le_iff_le
  simp only [order, Precedes, Ordering.isLE_then_iff_or, names, Nat.compare_eq_lt, Nat.compare_eq_eq]

instance : Std.TransCmp Finding.order :=
  inferInstanceAs (Std.TransCmp (compareLex (compareOn Finding.file) <| compareLex (compareOn Finding.line) <|
    compareLex (compareOn Finding.column) (compareOn Finding.name)))

private theorem categorize_eq (settings : Settings) (table : SymbolTable) :
    categorize settings table =
      (table.allEntries.map (SymbolTable.Entry.finding settings)).mergeSort fun a b => (a.order b).isLE := by
  simp [categorize, SymbolTable.allEntries, SortedMap.values, Function.comp_def, SymbolTable.Entry.finding]

private def innerClass : ClassEntity := ⟨"A", ⟨"/a.dart"⟩, .plainClass, 1, 6, false, false, .none⟩

private def sharedClass : ClassEntity := ⟨"B", ⟨"/a.dart"⟩, .plainClass, 4, 6, false, false, .none⟩

private def idleFunction : FunctionEntity :=
  ⟨"idle", "", ⟨"/b.dart"⟩, 2, 5, false, false, false, false, false, false, .none⟩

private def threeSymbols : SymbolTable :=
  ((SymbolTable.empty.insertFunction idleFunction).insertClass sharedClass).insertClass innerClass

/-- Two uses in a class's own file were merged into none in another; of the other class all uses are in another file. -/
private def twoHistories : SortedMap SymbolKey UsageHistory :=
  (SortedMap.empty.insert innerClass.key (.merge (.addExternal .none ⟨"/b.dart"⟩ 0) (.addInternal .none 2))).insert
    sharedClass.key (.addExternal (.addExternal .none ⟨"/b.dart"⟩ 1) ⟨"/c.dart"⟩ 2)

end DeadCode
