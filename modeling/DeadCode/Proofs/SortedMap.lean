import DeadCode.SortedMap

/-!
Laws of sorted maps. Changes to different keys commute, and a map that was built by adding values one
after another can be added to another map as a whole, with the same result. The equations are between
the entries themselves, so they also say which spelling of a key is kept.
-/
namespace DeadCode.SortedMap
open Std
variable {κ ν : Type} [Ord κ]

theorem ext_entries {a b : SortedMap κ ν} (h : a.entries = b.entries) : a = b := by
  cases a
  cases b
  simp_all

/-! ### Looking up -/

theorem entries_mapWithKey {μ : Type} (map : SortedMap κ ν) (f : κ → ν → μ) :
    (map.mapWithKey f).entries = map.entries.map fun entry => (entry.1, f entry.1 entry.2) := rfl

theorem get?_mapWithKey {μ : Type} (map : SortedMap κ ν) (f : ν → μ) (key : κ) :
    (map.mapWithKey fun _ => f).get? key = (map.get? key).map f := by
  simp [get?, entries_mapWithKey, List.find?_map, Function.comp_def]

/-- What is found under a key stands in an entry whose key compares as equal. -/
theorem exists_mem_of_get? {map : SortedMap κ ν} {key : κ} {value : ν} (found : map.get? key = some value) :
    ∃ entry ∈ map.entries, compare key entry.1 = .eq ∧ entry.2 = value := by
  obtain ⟨entry, first, rfl⟩ := Option.map_eq_some_iff.mp found
  exact ⟨entry, List.mem_of_find?_eq_some first, by simpa using List.find?_some first, rfl⟩

/-- A key below those of all entries is not found. -/
private theorem find?_eq_none_of_lt {entries : List (κ × ν)} {key : κ}
    (below : ∀ entry ∈ entries, compare key entry.1 = .lt) :
    (entries.find? fun entry => compare key entry.1 == .eq) = none := by
  refine List.find?_eq_none.mpr fun entry member => ?_
  simp [below entry member]

variable [TransOrd κ]

theorem get?_congr (map : SortedMap κ ν) {a b : κ} (same : compare a b = .eq) : map.get? a = map.get? b := by
  simp only [get?, TransCmp.congr_left same]

theorem contains_congr (map : SortedMap κ ν) {a b : κ} (same : compare a b = .eq) :
    map.contains a = map.contains b := by
  rw [contains, contains, get?_congr map same]

private theorem find?_alterEntries {entries : List (κ × ν)} (key other : κ) (f : Option ν → ν)
    (ordered : entries.Pairwise fun a b => compare a.1 b.1 = .lt) :
    ((alterEntries key f entries).find? fun entry => compare other entry.1 == .eq).map (·.2) =
      if compare other key = .eq then
        some (f ((entries.find? fun entry => compare key entry.1 == .eq).map (·.2)))
      else (entries.find? fun entry => compare other entry.1 == .eq).map (·.2) := by
  induction entries with
  | nil => by_cases same : compare other key = .eq <;> simp [alterEntries, same]
  | cons head rest ih =>
    obtain ⟨first, value⟩ := head
    obtain ⟨below, ordered⟩ := List.pairwise_cons.mp ordered
    rw [alterEntries]
    split
    case h_1 less =>
      have absent : (((first, value) :: rest).find? fun entry => compare key entry.1 == .eq) = none := by
        refine find?_eq_none_of_lt fun entry member => ?_
        rcases List.mem_cons.mp member with rfl | member
        · exact less
        · exact TransCmp.lt_trans less (below entry member)
      by_cases same : compare other key = .eq
      · simp [same, absent]
      · simp [List.find?_cons, same]
    case h_2 equal =>
      by_cases same : compare other key = .eq
      · simp [same, equal, TransCmp.eq_trans same equal]
      · have apart : compare other first ≠ .eq := fun h =>
          same (TransCmp.eq_trans h (OrientedCmp.eq_symm equal))
        simp [same, apart]
    case h_3 greater =>
      by_cases same : compare other key = .eq
      · have apart : compare other first = .gt := TransCmp.gt_of_eq_of_gt same greater
        simpa [List.find?_cons, same, apart, greater] using ih ordered
      · by_cases here : compare other first = .eq
        · simp [same, here]
        · simpa [List.find?_cons, same, here] using ih ordered

/-- Altering a key changes what is found under that key and nothing else. -/
theorem get?_alter (map : SortedMap κ ν) (key other : κ) (f : Option ν → ν) :
    (map.alter key f).get? other =
      if compare other key = .eq then some (f (map.get? key)) else map.get? other :=
  find?_alterEntries key other f map.ordered

theorem get?_insertIfNew (map : SortedMap κ ν) (key other : κ) (value : ν) :
    (map.insertIfNew key value).get? other =
      (map.get? other).or (if compare other key = .eq then some value else none) := by
  rw [insertIfNew, get?_alter]
  split
  case isTrue same =>
    rw [get?_congr map same]
    cases map.get? key <;> rfl
  case isFalse => exact Option.or_none.symm

/-- An entry is found under its own key. -/
theorem get?_of_mem {map : SortedMap κ ν} {entry : κ × ν} (member : entry ∈ map.entries) :
    map.get? entry.1 = some entry.2 := by
  obtain ⟨entries, ordered⟩ := map
  induction entries with
  | nil => cases member
  | cons head rest ih =>
    obtain ⟨below, later⟩ := List.pairwise_cons.mp ordered
    rcases List.mem_cons.mp member with rfl | member
    · simp [get?]
    · have apart : compare entry.1 head.1 = .gt := OrientedCmp.gt_of_lt (below entry member)
      simpa [get?, List.find?_cons, apart] using ih later member

theorem get?_mapWithKey_of_mem {μ : Type} {map : SortedMap κ ν} {entry : κ × ν} (member : entry ∈ map.entries)
    (f : κ → ν → μ) : (map.mapWithKey f).get? entry.1 = some (f entry.1 entry.2) := by
  have mapped : (entry.1, f entry.1 entry.2) ∈ (map.mapWithKey f).entries := by
    rw [entries_mapWithKey]
    exact List.mem_map_of_mem member
  exact get?_of_mem mapped

theorem contains_of_mem {map : SortedMap κ ν} {entry : κ × ν} (member : entry ∈ map.entries) :
    map.contains entry.1 := by
  rw [contains, get?_of_mem member, Option.isSome_some]

/-- A key belongs to at most one entry. -/
theorem filter_of_mem {map : SortedMap κ ν} {entry : κ × ν} (member : entry ∈ map.entries) {key : κ}
    (same : compare key entry.1 = .eq) : (map.entries.filter fun other => compare key other.1 == .eq) = [entry] := by
  obtain ⟨before, after, split⟩ := List.append_of_mem member
  have ordered := map.ordered
  rw [split] at ordered ⊢
  obtain ⟨-, later, earlier⟩ := List.pairwise_append.mp ordered
  have missed (others : List (κ × ν)) (apart : ∀ other ∈ others, compare entry.1 other.1 ≠ .eq) :
      (others.filter fun other => compare key other.1 == .eq) = [] := by
    refine List.filter_eq_nil_iff.mpr fun other inOthers here => apart other inOthers ?_
    exact TransCmp.eq_trans (OrientedCmp.eq_symm same) (eq_of_beq here)
  rw [List.filter_append, List.filter_cons_of_pos (by simpa using same), missed before, missed after]
  · rfl
  · intro other inAfter
    rw [(List.pairwise_cons.mp later).1 other inAfter]
    nofun
  · intro other inBefore
    rw [OrientedCmp.gt_of_lt (earlier other inBefore entry List.mem_cons_self)]
    nofun

theorem filter_of_absent {map : SortedMap κ ν} {key : κ} (absent : map.contains key = false) :
    (map.entries.filter fun other => compare key other.1 == .eq) = [] := by
  refine List.filter_eq_nil_iff.mpr fun other member here => ?_
  rw [contains_congr map (eq_of_beq here), contains_of_mem member] at absent
  cases absent

theorem eq_of_mem_of_compare_eq {map : SortedMap κ ν} {a b : κ × ν} (inMap : a ∈ map.entries)
    (inMapToo : b ∈ map.entries) (same : compare a.1 b.1 = .eq) : a = b := by
  have kept : a ∈ map.entries.filter fun other => compare a.1 other.1 == .eq :=
    List.mem_filter.mpr ⟨inMap, by simp⟩
  rw [filter_of_mem inMapToo same] at kept
  exact List.mem_singleton.mp kept

theorem snd_eq_of_mem {map : SortedMap κ ν} {a b : κ × ν} (inMap : a ∈ map.entries) (inMapToo : b ∈ map.entries)
    (same : compare a.1 b.1 = .eq) : a.2 = b.2 :=
  congrArg Prod.snd (eq_of_mem_of_compare_eq inMap inMapToo same)

/-- The first entry that is accepted is the one with the smallest key. -/
theorem find?_entries_eq_some_iff {map : SortedMap κ ν} {accepts : κ × ν → Bool} {entry : κ × ν} :
    map.entries.find? accepts = some entry ↔
      entry ∈ map.entries ∧ accepts entry ∧
        ∀ other ∈ map.entries, accepts other → (compare entry.1 other.1).isLE := by
  have least {entry : κ × ν} (found : map.entries.find? accepts = some entry) :
      ∀ other ∈ map.entries, accepts other → (compare entry.1 other.1).isLE := by
    obtain ⟨-, before, after, split, rejected⟩ := List.find?_eq_some_iff_append.mp found
    have ordered := map.ordered
    rw [split] at ordered ⊢
    intro other member accepted
    rcases List.mem_append.mp member with inBefore | inRest
    · exact absurd accepted (by simpa using rejected other inBefore)
    rcases List.mem_cons.mp inRest with rfl | inAfter
    · exact ReflCmp.isLE_rfl
    · rw [(List.pairwise_cons.mp (List.pairwise_append.mp ordered).2.1).1 other inAfter]
      rfl
  refine ⟨fun found => ⟨List.mem_of_find?_eq_some found, List.find?_some found, least found⟩, ?_⟩
  rintro ⟨member, accepted, smallest⟩
  cases found : map.entries.find? accepts with
  | none => exact absurd accepted (List.find?_eq_none.mp found entry member)
  | some first =>
    have inMap := List.mem_of_find?_eq_some found
    have equal : compare first.1 entry.1 = .eq :=
      OrientedCmp.isLE_antisymm (least found entry member accepted) (smallest first inMap (List.find?_some found))
    rw [eq_of_mem_of_compare_eq inMap member equal]

/-- A search for one key gives what the value under it gives. -/
theorem findSome?_entries {μ : Type} (map : SortedMap κ ν) (key : κ) (f : ν → Option μ) :
    (map.entries.findSome? fun entry => if compare key entry.1 = .eq then f entry.2 else none) =
      (map.get? key).bind f := by
  obtain ⟨entries, ordered⟩ := map
  induction entries with
  | nil => rfl
  | cons head rest ih =>
    obtain ⟨below, later⟩ := List.pairwise_cons.mp ordered
    by_cases here : compare key head.1 = .eq
    · have passed : (rest.findSome? fun entry => if compare key entry.1 = .eq then f entry.2 else none) = none := by
        refine List.findSome?_eq_none_iff.mpr fun entry member => if_neg ?_
        rw [TransCmp.lt_of_eq_of_lt here (below entry member)]
        decide
      have found : (⟨head :: rest, ordered⟩ : SortedMap κ ν).get? key = some head.2 := by simp [get?, here]
      rw [List.findSome?_cons, if_pos here, passed, found, Option.bind_some]
      cases f head.2 <;> rfl
    · have elsewhere : (⟨head :: rest, ordered⟩ : SortedMap κ ν).get? key =
          (⟨rest, later⟩ : SortedMap κ ν).get? key := by simp [get?, here]
      rw [List.findSome?_cons, if_neg here, elsewhere]
      exact ih later

/-! ### The entries after a change -/

omit [TransOrd κ] in
private theorem perm_alterEntries {key : κ} (f : Option ν → ν) {entries : List (κ × ν)}
    (apart : ∀ entry ∈ entries, compare key entry.1 ≠ .eq) :
    (alterEntries key f entries).Perm ((key, f none) :: entries) := by
  induction entries with
  | nil => exact .refl _
  | cons head rest ih =>
    obtain ⟨first, others⟩ := List.forall_mem_cons.mp apart
    rw [alterEntries]
    split
    · exact .refl _
    case h_2 equal => exact absurd equal first
    · exact ((ih others).cons head).trans (.swap _ _ rest)

/-- A new key brings in one entry. -/
theorem perm_entries_alter {map : SortedMap κ ν} {key : κ} (f : Option ν → ν) (absent : map.get? key = none) :
    (map.alter key f).entries.Perm ((key, f none) :: map.entries) :=
  perm_alterEntries f (by simpa [get?] using absent)

/-- A change that keeps what one looks at in a value keeps it in all entries, and keeps their keys. -/
theorem map_entries_alter {μ : Type} {map : SortedMap κ ν} {key : κ} {old : ν} {f : Option ν → ν} {look : ν → μ}
    (found : map.get? key = some old) (kept : look (f (some old)) = look old) :
    (map.alter key f).entries.map (Prod.map id look) = map.entries.map (Prod.map id look) := by
  obtain ⟨entries, ordered⟩ := map
  show (alterEntries key f entries).map _ = entries.map _
  induction entries with
  | nil => cases found
  | cons head rest ih =>
    obtain ⟨below, later⟩ := List.pairwise_cons.mp ordered
    rw [get?, List.find?_cons] at found
    rw [alterEntries]
    split
    case h_1 less =>
      have absent := find?_eq_none_of_lt fun entry member => TransCmp.lt_trans less (below entry member)
      simp [less, absent] at found
    case h_2 equal =>
      obtain rfl : head.2 = old := by simpa [equal] using found
      exact congrArg (fun value => (_, value) :: _) kept
    case h_3 greater =>
      refine congrArg (_ :: ·) (ih later ?_)
      simpa [get?, greater] using found

theorem map_values_alter {μ : Type} {map : SortedMap κ ν} {key : κ} {old : ν} {f : Option ν → ν} {look : ν → μ}
    (found : map.get? key = some old) (kept : look (f (some old)) = look old) :
    (map.alter key f).entries.map (fun entry => look entry.2) = map.entries.map fun entry => look entry.2 := by
  simpa [Function.comp_def] using congrArg (List.map Prod.snd) (map_entries_alter found kept)

/-- Only a new key makes a map larger. -/
theorem size_alter (map : SortedMap κ ν) (key : κ) (f : Option ν → ν) :
    (map.alter key f).size = if map.contains key then map.size else map.size + 1 := by
  rw [size, contains]
  cases found : map.get? key with
  | none => exact (perm_entries_alter f found).length_eq
  | some old =>
    let blind (_ : ν) : Unit := ()
    have kept : (map.alter key f).entries.map (fun entry => blind entry.2) =
        map.entries.map fun entry => blind entry.2 := map_values_alter found rfl
    simpa [size] using congrArg List.length kept

omit [TransOrd κ] in
private theorem alterEntries_congr (key : κ) {f g : Option ν → ν} (absent : f none = g none)
    {entries : List (κ × ν)} (present : ∀ entry ∈ entries, f (some entry.2) = g (some entry.2)) :
    alterEntries key f entries = alterEntries key g entries := by
  induction entries with
  | nil => rw [alterEntries, alterEntries, absent]
  | cons head rest ih =>
    obtain ⟨first, others⟩ := List.forall_mem_cons.mp present
    simp only [alterEntries, absent, first, ih others]

/-- Changes that agree on the values of a map are the same. -/
theorem alter_congr (map : SortedMap κ ν) (key : κ) {f g : Option ν → ν} (absent : f none = g none)
    (present : ∀ entry ∈ map.entries, f (some entry.2) = g (some entry.2)) : map.alter key f = map.alter key g :=
  ext_entries (alterEntries_congr key absent present)

/-! ### Two changes one after the other -/

private theorem alterEntries_twice {a b : κ} (f g : Option ν → ν) (same : compare b a = .eq)
    (entries : List (κ × ν)) :
    alterEntries b g (alterEntries a f entries) =
      alterEntries a (fun old => g (some (f old))) entries := by
  induction entries with
  | nil => simp [alterEntries, same]
  | cons head rest ih =>
    obtain ⟨key, value⟩ := head
    have known : compare b key = compare a key := TransCmp.congr_left same
    cases order : compare a key with
    | lt => simp [alterEntries, order, same]
    | eq => simp [alterEntries, order, known]
    | gt => simp [alterEntries, order, known, ih]

/-- Two changes of one key are one change; the entry keeps the key of the first. -/
theorem alter_alter (map : SortedMap κ ν) {a b : κ} (f g : Option ν → ν) (same : compare b a = .eq) :
    (map.alter a f).alter b g = map.alter a fun old => g (some (f old)) :=
  ext_entries (alterEntries_twice f g same map.entries)

private theorem alterEntries_comm_of_lt {a b : κ} (f g : Option ν → ν) (less : compare a b = .lt)
    (entries : List (κ × ν)) :
    alterEntries b g (alterEntries a f entries) = alterEntries a f (alterEntries b g entries) := by
  have greater : compare b a = .gt := OrientedCmp.gt_of_lt less
  induction entries with
  | nil => simp [alterEntries, less, greater]
  | cons head rest ih =>
    obtain ⟨key, value⟩ := head
    -- where the smaller key has its place decides whether the larger one has been passed
    cases left : compare a key with
    | lt =>
      cases right : compare b key <;> simp [alterEntries, left, right, less, greater]
    | eq =>
      have right : compare b key = .gt := TransCmp.gt_of_gt_of_eq greater left
      simp [alterEntries, left, right]
    | gt =>
      have right : compare b key = .gt := TransCmp.gt_trans greater left
      simp [alterEntries, left, right, ih]

theorem alter_comm (map : SortedMap κ ν) {a b : κ} (f g : Option ν → ν) (apart : compare a b ≠ .eq) :
    (map.alter a f).alter b g = (map.alter b g).alter a f := by
  cases order : compare a b with
  | lt => exact ext_entries (alterEntries_comm_of_lt f g order map.entries)
  | eq => exact absurd order apart
  | gt => exact ext_entries (alterEntries_comm_of_lt g f (OrientedCmp.lt_of_gt order) map.entries).symm

/-! ### Adding values -/

/-- Puts a value under a key, joined to the one that is there. -/
def addWith (join : ν → ν → ν) (map : SortedMap κ ν) (key : κ) (value : ν) : SortedMap κ ν :=
  map.alter key fun
    | none => value
    | some old => join old value

def addAll (join : ν → ν → ν) (map : SortedMap κ ν) (entries : List (κ × ν)) : SortedMap κ ν :=
  entries.foldl (fun map entry => map.addWith join entry.1 entry.2) map

variable {join : ν → ν → ν}

@[simp] theorem addAll_nil (map : SortedMap κ ν) : map.addAll join [] = map := rfl

@[simp] theorem addAll_cons (map : SortedMap κ ν) (entry : κ × ν) (entries : List (κ × ν)) :
    map.addAll join (entry :: entries) = (map.addWith join entry.1 entry.2).addAll join entries := rfl

theorem addAll_append (map : SortedMap κ ν) (entries others : List (κ × ν)) :
    map.addAll join (entries ++ others) = (map.addAll join entries).addAll join others :=
  List.foldl_append

theorem insert_eq_addWith (map : SortedMap κ ν) (key : κ) (value : ν) :
    map.insert key value = map.addWith (fun _ new => new) key value := by
  rw [insert, addWith]
  congr 1
  funext old
  cases old <;> rfl

theorem insertAll_eq_addAll (map other : SortedMap κ ν) :
    map.insertAll other = map.addAll (fun _ new => new) other.entries := by
  simp only [insertAll, addAll, insert_eq_addWith]

theorem get?_addWith (map : SortedMap κ ν) (key other : κ) (value : ν) :
    (map.addWith join key value).get? other =
      if compare other key = .eq then some ((map.get? key).elim value (join · value)) else map.get? other := by
  rw [addWith, get?_alter]
  cases map.get? key <;> rfl

/-- If the later of two values counts, the last of the entries for a key is found. -/
theorem get?_addAll_later (map : SortedMap κ ν) (entries : List (κ × ν)) (key : κ) :
    (map.addAll (fun _ new => new) entries).get? key =
      ((entries.reverse.find? fun entry => compare key entry.1 == .eq).map (·.2)).or (map.get? key) := by
  induction entries generalizing map with
  | nil => rfl
  | cons first rest ih =>
    rw [addAll_cons, ih, get?_addWith, List.reverse_cons, List.find?_append]
    cases rest.reverse.find? fun entry => compare key entry.1 == .eq with
    | some => rfl
    | none =>
      by_cases here : compare key first.1 = .eq
      · cases map.get? first.1 <;> simp [here]
      · simp [here]

theorem contains_addWith (map : SortedMap κ ν) (key other : κ) (value : ν) :
    (map.addWith join key value).contains other ↔ compare other key = .eq ∨ map.contains other := by
  rw [contains, get?_addWith]
  split
  case isTrue equal => simp [equal]
  case isFalse apart => simp [apart, contains]

theorem size_addAll_le (join : ν → ν → ν) (map : SortedMap κ ν) (entries : List (κ × ν)) :
    (map.addAll join entries).size ≤ map.size + entries.length := by
  induction entries generalizing map with
  | nil => exact Nat.le_refl _
  | cons entry rest ih =>
    have step : (map.addWith join entry.1 entry.2).size = _ := size_alter map entry.1 _
    have later := ih (map.addWith join entry.1 entry.2)
    rw [addAll_cons, List.length_cons]
    split at step <;> omega

/-- Entries add as much as they are many exactly if their keys are new and different. -/
theorem size_addAll_eq_iff (join : ν → ν → ν) (map : SortedMap κ ν) (entries : List (κ × ν)) :
    (map.addAll join entries).size = map.size + entries.length ↔
      (∀ entry ∈ entries, map.contains entry.1 = false) ∧ entries.Pairwise fun a b => compare a.1 b.1 ≠ .eq := by
  induction entries generalizing map with
  | nil => simp
  | cons entry rest ih =>
    have step : (map.addWith join entry.1 entry.2).size = _ := size_alter map entry.1 _
    have most := size_addAll_le join (map.addWith join entry.1 entry.2) rest
    rw [addAll_cons, List.length_cons, List.forall_mem_cons, List.pairwise_cons]
    cases known : map.contains entry.1 with
    | true =>
      rw [known, if_pos rfl] at step
      refine iff_of_false (by omega) ?_
      rintro ⟨⟨new, -⟩, -⟩
      cases new
    | false =>
      rw [known, if_neg Bool.false_ne_true] at step
      have full : ((map.addWith join entry.1 entry.2).addAll join rest).size = map.size + (rest.length + 1) ↔
          ((map.addWith join entry.1 entry.2).addAll join rest).size =
            (map.addWith join entry.1 entry.2).size + rest.length := by omega
      rw [full, ih]
      have new (other : κ × ν) : (map.addWith join entry.1 entry.2).contains other.1 = false ↔
          map.contains other.1 = false ∧ compare entry.1 other.1 ≠ .eq := by
        rw [← Bool.not_eq_true, contains_addWith, not_or, Bool.not_eq_true, and_comm]
        exact and_congr_right fun _ => not_congr ⟨OrientedCmp.eq_symm, OrientedCmp.eq_symm⟩
      simp only [new, forall_and, true_and]
      exact and_assoc

/-- What holds of entries, and of values that are joined under keys that compare as equal, holds after adding. -/
theorem forall_addAll (holds : κ → ν → Prop)
    (joined : ∀ {key other a b}, compare other key = .eq → holds key a → holds other b → holds key (join a b))
    {map : SortedMap κ ν} {entries : List (κ × ν)} (all : ∀ entry ∈ map.entries, holds entry.1 entry.2)
    (new : ∀ entry ∈ entries, holds entry.1 entry.2) :
    ∀ entry ∈ (map.addAll join entries).entries, holds entry.1 entry.2 := by
  induction entries generalizing map with
  | nil => exact all
  | cons first rest ih =>
    obtain ⟨newFirst, newRest⟩ := List.forall_mem_cons.mp new
    refine ih (fun entry member => ?_) newRest
    rcases of_mem_alterEntries member with present | rfl | ⟨old, present, equal, rfl⟩
    · exact all entry present
    · exact newFirst
    · exact joined equal (all old present) newFirst

private theorem addWith_addWith (assoc : ∀ a b c, join (join a b) c = join a (join b c))
    (map : SortedMap κ ν) {a b : κ} (x y : ν) (same : compare b a = .eq) :
    (map.addWith join a x).addWith join b y = map.addWith join a (join x y) := by
  rw [addWith, addWith, addWith, alter_alter map _ _ same]
  congr 1
  funext old
  cases old with
  | none => rfl
  | some old => exact assoc old x y

/-- A value under a key that no entry has can be added before or after the entries. -/
private theorem addAll_addWith_of_apart (map : SortedMap κ ν) (entries : List (κ × ν)) (key : κ) (value : ν)
    (apart : ∀ entry ∈ entries, compare key entry.1 ≠ .eq) :
    (map.addWith join key value).addAll join entries = (map.addAll join entries).addWith join key value := by
  induction entries generalizing map with
  | nil => rfl
  | cons head rest ih =>
    obtain ⟨first, others⟩ := List.forall_mem_cons.mp apart
    have swap : (map.addWith join key value).addWith join head.1 head.2 =
        (map.addWith join head.1 head.2).addWith join key value := alter_comm map _ _ first
    rw [addAll_cons, addAll_cons, swap, ih _ others]

private theorem addAll_alterEntries (assoc : ∀ a b c, join (join a b) c = join a (join b c))
    (map : SortedMap κ ν) (key : κ) (value : ν) {entries : List (κ × ν)}
    (ordered : entries.Pairwise fun a b => compare a.1 b.1 = .lt) :
    map.addAll join (alterEntries key (fun | none => value | some old => join old value) entries) =
      (map.addAll join entries).addWith join key value := by
  induction entries generalizing map with
  | nil => rfl
  | cons head rest ih =>
    obtain ⟨first, old⟩ := head
    obtain ⟨below, later⟩ := List.pairwise_cons.mp ordered
    rw [alterEntries]
    split
    case h_1 less =>
      refine addAll_addWith_of_apart map _ key value fun entry member => ?_
      have above : compare key entry.1 = .lt := by
        rcases List.mem_cons.mp member with rfl | member
        · exact less
        · exact TransCmp.lt_trans less (below entry member)
      simp [above]
    case h_2 equal =>
      have apart : ∀ entry ∈ rest, compare key entry.1 ≠ .eq := by
        intro entry member
        simp [TransCmp.lt_of_eq_of_lt equal (below entry member)]
      rw [addAll_cons, addAll_cons, ← addAll_addWith_of_apart _ rest key value apart,
        addWith_addWith assoc map old value equal]
    case h_3 => exact ih (map.addWith join first old) later

/-- Adding a map to which a value was added is adding the map and then the value. -/
theorem addAll_addWith (assoc : ∀ a b c, join (join a b) c = join a (join b c)) (map other : SortedMap κ ν)
    (key : κ) (value : ν) :
    map.addAll join (other.addWith join key value).entries =
      (map.addAll join other.entries).addWith join key value :=
  addAll_alterEntries assoc map key value other.ordered

/-- It makes no difference whether entries are first gathered in a map of their own. -/
theorem addAll_gathered (assoc : ∀ a b c, join (join a b) c = join a (join b c)) (map other : SortedMap κ ν)
    (entries : List (κ × ν)) :
    map.addAll join (other.addAll join entries).entries =
      (map.addAll join other.entries).addAll join entries := by
  induction entries generalizing other with
  | nil => rfl
  | cons head rest ih => rw [addAll_cons, ih, addAll_addWith assoc, addAll_cons]

omit [TransOrd κ] in
private theorem alterEntries_of_gt (key : κ) (f : Option ν → ν) {entries : List (κ × ν)}
    (above : ∀ entry ∈ entries, compare key entry.1 = .gt) :
    alterEntries key f entries = entries ++ [(key, f none)] := by
  induction entries with
  | nil => rfl
  | cons head rest ih =>
    obtain ⟨first, others⟩ := List.forall_mem_cons.mp above
    simp [alterEntries, first, ih others]

private theorem entries_addAll (map : SortedMap κ ν) (rest : List (κ × ν))
    (ordered : (map.entries ++ rest).Pairwise fun a b => compare a.1 b.1 = .lt) :
    (map.addAll join rest).entries = map.entries ++ rest := by
  induction rest generalizing map with
  | nil => simp
  | cons head rest ih =>
    have last : (map.addWith join head.1 head.2).entries = map.entries ++ [head] := by
      refine alterEntries_of_gt head.1 _ fun entry member => ?_
      exact OrientedCmp.gt_of_lt ((List.pairwise_append.mp ordered).2.2 entry member head List.mem_cons_self)
    rw [addAll_cons, ih, last, List.append_assoc, List.singleton_append]
    rwa [last, List.append_assoc, List.singleton_append]

/-- A map is what its entries give when they are added to nothing. -/
theorem addAll_entries (map : SortedMap κ ν) : (empty : SortedMap κ ν).addAll join map.entries = map :=
  ext_entries (entries_addAll empty map.entries map.ordered)

/-! ### Maps that agree -/

/-- Entries under different keys that look like those of a map bring in those whose keys are new. -/
theorem perm_entries_addAll {μ : Type} (look : ν → μ)
    (kept : ∀ {old new}, look old = look new → look (join old new) = look old) {map : SortedMap κ ν}
    {entries : List (κ × ν)} (different : entries.Pairwise fun a b => compare b.1 a.1 ≠ .eq)
    (agrees : ∀ entry ∈ entries, ∀ old, map.get? entry.1 = some old → look old = look entry.2) :
    ((map.addAll join entries).entries.map (Prod.map id look)).Perm
      ((map.entries ++ entries.filter fun entry => !map.contains entry.1).map (Prod.map id look)) := by
  induction entries generalizing map with
  | nil => simp
  | cons first rest ih =>
    obtain ⟨apart, different⟩ := List.pairwise_cons.mp different
    obtain ⟨agreesFirst, agreesRest⟩ := List.forall_mem_cons.mp agrees
    have others (entry : κ × ν) (member : entry ∈ rest) :
        (map.addWith join first.1 first.2).get? entry.1 = map.get? entry.1 := by
      rw [get?_addWith, if_neg (apart entry member)]
    have still : rest.filter (fun entry => !(map.addWith join first.1 first.2).contains entry.1) =
        rest.filter fun entry => !map.contains entry.1 :=
      List.filter_congr fun entry member => by rw [contains, contains, others entry member]
    have later := ih different fun entry member old found => agreesRest entry member old (others entry member ▸ found)
    rw [still, List.map_append] at later
    rw [addAll_cons, List.map_append]
    cases known : map.get? first.1 with
    | some old =>
      have same : (map.addWith join first.1 first.2).entries.map (Prod.map id look) =
          map.entries.map (Prod.map id look) := map_entries_alter known (kept (agreesFirst old known))
      rw [same] at later
      rwa [List.filter_cons_of_neg (by simp [contains, known])]
    | none =>
      have grown : (map.addWith join first.1 first.2).entries.Perm (first :: map.entries) :=
        perm_entries_alter _ known
      rw [List.filter_cons_of_pos (by simp [contains, known])]
      exact later.trans (((grown.map _).append_right _).trans List.perm_middle.symm)

/-- What is found after adding a map is what was there and what the map has, joined. -/
theorem get?_addAll_entries (map other : SortedMap κ ν) (key : κ) :
    (map.addAll join other.entries).get? key = (map.get? key).merge join (other.get? key) := by
  obtain ⟨entries, ordered⟩ := other
  induction entries generalizing map with
  | nil => exact (Option.merge_none_right).symm
  | cons head rest ih =>
    obtain ⟨below, later⟩ := List.pairwise_cons.mp ordered
    rw [addAll_cons, ih _ later, get?_addWith]
    by_cases here : compare key head.1 = .eq
    · have absent : (⟨rest, later⟩ : SortedMap κ ν).get? key = none := by
        rw [get?, find?_eq_none_of_lt fun entry member => TransCmp.lt_of_eq_of_lt here (below entry member)]
        rfl
      have found : (⟨head :: rest, ordered⟩ : SortedMap κ ν).get? key = some head.2 := by simp [get?, here]
      rw [if_pos here, absent, found, get?_congr map here]
      cases map.get? head.1 <;> rfl
    · have passed : (⟨head :: rest, ordered⟩ : SortedMap κ ν).get? key =
          (⟨rest, later⟩ : SortedMap κ ν).get? key := by simp [get?, here]
      rw [if_neg here, passed]

/-- Maps under whose keys the same is found are equal, if equal keys are spelled alike. -/
theorem eq_of_get?_eq {a b : SortedMap κ ν}
    (spelled : ∀ x ∈ a.entries, ∀ y ∈ b.entries, compare x.1 y.1 = .eq → x.1 = y.1)
    (same : ∀ key, a.get? key = b.get? key) : a = b := by
  have inside {a b : SortedMap κ ν} (spelled : ∀ x ∈ a.entries, ∀ y ∈ b.entries, compare x.1 y.1 = .eq → x.1 = y.1)
      (same : ∀ key, a.get? key = b.get? key) : a.entries ⊆ b.entries := by
    intro x member
    have found : b.get? x.1 = some x.2 := (same x.1).symm.trans (get?_of_mem member)
    obtain ⟨y, inOther, equal, value⟩ := exists_mem_of_get? found
    have key := spelled x member y inOther equal
    rwa [show x = y from Prod.ext key value.symm]
  have irreflexive (x : κ × ν) : compare x.1 x.1 ≠ .lt := by simp
  have nodup (map : SortedMap κ ν) : map.entries.Nodup := by
    refine List.Pairwise.imp ?_ map.ordered
    rintro x _ less rfl
    exact irreflexive x less
  have permuted : a.entries.Perm b.entries := by
    refine (List.perm_ext_iff_of_nodup (nodup a) (nodup b)).mpr fun x => ⟨fun member => inside spelled same member, ?_⟩
    refine fun member => inside (fun x inOther y inMap equal => ?_) (fun key => (same key).symm) member
    exact (spelled y inMap x inOther (OrientedCmp.eq_symm equal)).symm
  refine ext_entries (permuted.eq_of_pairwise (fun x y _ _ less greater => ?_) a.ordered b.ordered)
  exact absurd (TransCmp.lt_trans less greater) (irreflexive x)

/-! ### Some of the keys -/

def restrict (map : SortedMap κ ν) (kept : κ → Bool) : SortedMap κ ν :=
  ⟨map.entries.filter fun entry => kept entry.1, map.ordered.filter _⟩

section
variable {kept : κ → Bool} (alike : ∀ a b, compare a b = .eq → kept a = kept b)
include alike

omit [TransOrd κ] in
theorem get?_restrict (map : SortedMap κ ν) (key : κ) :
    (map.restrict kept).get? key = if kept key then map.get? key else none := by
  have same (entry : κ × ν) : decide (kept entry.1 = true ∧ (compare key entry.1 == .eq) = true) =
      (kept key && compare key entry.1 == .eq) := by
    by_cases equal : compare key entry.1 = .eq
    · simp [alike key entry.1 equal, equal]
    · simp [equal]
  rw [get?, restrict, List.find?_filter]
  simp only [same]
  cases kept key with
  | true => rfl
  | false => simp

private theorem filter_alterEntries {key : κ} (inside : kept key) (f : Option ν → ν) {entries : List (κ × ν)}
    (ordered : entries.Pairwise fun a b => compare a.1 b.1 = .lt) :
    (alterEntries key f entries).filter (fun entry => kept entry.1) =
      alterEntries key f (entries.filter fun entry => kept entry.1) := by
  have first {entries : List (κ × ν)} (below : ∀ entry ∈ entries, compare key entry.1 = .lt) :
      alterEntries key f entries = (key, f none) :: entries := by
    cases entries with
    | nil => rfl
    | cons head rest => rw [alterEntries, below head List.mem_cons_self]
  induction entries with
  | nil => simp [alterEntries, inside]
  | cons head rest ih =>
    obtain ⟨below, later⟩ := List.pairwise_cons.mp ordered
    rw [alterEntries]
    split
    case h_1 less =>
      rw [List.filter_cons_of_pos (by exact inside), first]
      intro entry member
      rcases List.mem_cons.mp (List.mem_filter.mp member).1 with rfl | inRest
      · exact less
      · exact TransCmp.lt_trans less (below entry inRest)
    case h_2 equal =>
      have headKept : kept head.1 := alike key head.1 equal ▸ inside
      rw [List.filter_cons_of_pos (by exact headKept), List.filter_cons_of_pos (by exact headKept), alterEntries, equal]
    case h_3 greater =>
      cases headKept : kept head.1 with
      | true =>
        rw [List.filter_cons_of_pos (by exact headKept), List.filter_cons_of_pos (by exact headKept), ih later,
          alterEntries, greater]
      | false =>
        rw [List.filter_cons_of_neg (by simp [headKept]), List.filter_cons_of_neg (by simp [headKept]), ih later]

/-- A change to a kept key shows. -/
theorem restrict_alter (map : SortedMap κ ν) {key : κ} (inside : kept key) (f : Option ν → ν) :
    (map.alter key f).restrict kept = (map.restrict kept).alter key f :=
  ext_entries (filter_alterEntries alike inside f map.ordered)

omit [TransOrd κ] in
private theorem filter_alterEntries_of_left {key : κ} (outside : kept key = false) (f : Option ν → ν)
    (entries : List (κ × ν)) :
    (alterEntries key f entries).filter (fun entry => kept entry.1) = entries.filter fun entry => kept entry.1 := by
  induction entries with
  | nil => simp [alterEntries, outside]
  | cons head rest ih =>
    rw [alterEntries]
    split
    case h_1 => rw [List.filter_cons_of_neg (by simp [outside])]
    case h_2 equal =>
      have headLeft : kept head.1 = false := alike key head.1 equal ▸ outside
      rw [List.filter_cons_of_neg (by simp [headLeft]), List.filter_cons_of_neg (by simp [headLeft])]
    case h_3 => rw [List.filter_cons, List.filter_cons, ih]

/-- A change to another key does not. -/
theorem restrict_alter_of_left (map : SortedMap κ ν) {key : κ} (outside : kept key = false) (f : Option ν → ν) :
    (map.alter key f).restrict kept = map.restrict kept :=
  ext_entries (filter_alterEntries_of_left alike outside f map.entries)

end

end DeadCode.SortedMap
