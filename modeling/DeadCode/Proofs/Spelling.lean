import DeadCode.Path
import Mathlib.Data.List.Basic

/-!
Normal paths have one spelling: the text of a path in normal form is read back as the components it was
written from, so two such paths with the same components are the same text.
-/
namespace DeadCode

/-- A component that can stand after the first one of a path. -/
def Component.IsStep : Component → Prop
  | .parent => True
  | .name text => text.toList ≠ [] ∧ '/' ∉ text.toList ∧ text.toList ≠ ['.'] ∧ text.toList ≠ ['.', '.']
  | _ => False

instance : DecidablePred Component.IsStep
  | .root => inferInstanceAs (Decidable False)
  | .current => inferInstanceAs (Decidable False)
  | .parent => inferInstanceAs (Decidable True)
  | .name text => inferInstanceAs
      (Decidable (text.toList ≠ [] ∧ '/' ∉ text.toList ∧ text.toList ≠ ['.'] ∧ text.toList ≠ ['.', '.']))

theorem Component.IsStep.eq_parent_or_name {part : Component} (step : part.IsStep) :
    part = .parent ∨ ∃ text, part = .name text := by
  cases part with
  | root => cases step
  | current => cases step
  | parent => exact .inl rfl
  | name text => exact .inr ⟨text, rfl⟩

namespace Path

theorem segments_ne_nil (text : List Char) : segments text ≠ [] := by
  fun_induction segments text <;> simp

theorem slash_not_mem_segments {text segment : List Char} (member : segment ∈ segments text) :
    '/' ∉ segment := by
  fun_induction segments text generalizing segment with
  | case1 => simp_all
  | case2 rest ih =>
    rcases List.mem_cons.mp member with rfl | member
    · exact List.not_mem_nil
    · exact ih member
  | case3 c rest notSlash first others split ih =>
    rw [split] at ih
    rcases List.mem_cons.mp member with rfl | member
    · intro slash
      rcases List.mem_cons.mp slash with same | slash
      · exact notSlash same.symm
      · exact ih List.mem_cons_self slash
    · exact ih (List.mem_cons_of_mem _ member)
  | case4 c rest notSlash split =>
    obtain rfl := List.mem_singleton.mp member
    exact fun slash => notSlash (List.mem_singleton.mp slash).symm

private theorem isStep_of_mem_steps {text : List Char} {part : Component}
    (member : part ∈ steps (segments text)) : part.IsStep := by
  obtain ⟨segment, kept, rfl⟩ := List.mem_map.mp member
  obtain ⟨inText, busy⟩ := List.mem_filter.mp kept
  rw [stepOf]
  split
  · trivial
  · have noSlash := slash_not_mem_segments inText
    simp_all [Component.IsStep, isIdle]

theorem components_cases (path : Path) :
    ∃ steps, (∀ part ∈ steps, part.IsStep) ∧
      (path.components = steps ∨ path.components = .root :: steps ∨ path.components = .current :: steps) := by
  refine ⟨steps (segments path.text.toList), fun part => isStep_of_mem_steps, ?_⟩
  rw [components]
  split
  · exact .inr (.inl rfl)
  · split
    · exact .inr (.inr rfl)
    · exact .inl rfl

/-! ### Normal forms -/

/-- Steps, perhaps from the root. -/
def IsNormal (parts : List Component) : Prop :=
  ∃ steps, (∀ part ∈ steps, part.IsStep) ∧ (parts = steps ∨ parts = .root :: steps)

private theorem isNormal_append {parts : List Component} {part : Component} (normal : IsNormal parts)
    (step : part.IsStep) : IsNormal (parts ++ [part]) := by
  obtain ⟨steps, allSteps, shape⟩ := normal
  refine ⟨steps ++ [part], ?_, ?_⟩
  · simpa [or_imp, forall_and] using ⟨allSteps, step⟩
  · rcases shape with rfl | rfl
    · exact .inl rfl
    · exact .inr rfl

private theorem isNormal_dropLast? {parts rest : List Component} (normal : IsNormal parts)
    (dropped : dropLast? parts = some rest) : IsNormal rest := by
  obtain ⟨steps, allSteps, shape⟩ := normal
  refine ⟨steps.dropLast, fun part member => allSteps part ((List.dropLast_sublist _).subset member), ?_⟩
  unfold dropLast? at dropped
  split at dropped
  · cases dropped
  · cases dropped
  case h_3 _ notRoot =>
    obtain rfl := Option.some.inj dropped
    rcases shape with rfl | rfl
    · exact .inl rfl
    · have more : steps ≠ [] := by
        rintro rfl
        exact notRoot rfl
      exact .inr (List.dropLast_cons_of_ne_nil more)

private theorem isNormal_fold {parts : List Component} {part : Component} (normal : IsNormal parts)
    (step : part.IsStep) : IsNormal (fold parts part) := by
  cases part with
  | root => cases step
  | current => cases step
  | name text => exact isNormal_append normal step
  | parent =>
    rw [fold]
    cases dropped : dropLast? parts with
    | none => exact isNormal_append normal step
    | some rest => exact isNormal_dropLast? normal dropped

private theorem isNormal_foldl {parts steps : List Component} (normal : IsNormal parts)
    (allSteps : ∀ part ∈ steps, part.IsStep) : IsNormal (steps.foldl fold parts) := by
  induction steps generalizing parts with
  | nil => exact normal
  | cons part rest ih =>
    obtain ⟨first, others⟩ := List.forall_mem_cons.mp allSteps
    exact ih (isNormal_fold normal first) others

theorem isNormal_foldl_components (path : Path) : IsNormal (path.components.foldl fold []) := by
  obtain ⟨steps, allSteps, shape | shape | shape⟩ := components_cases path
  · rw [shape]
    exact isNormal_foldl ⟨[], nofun, .inl rfl⟩ allSteps
  · rw [shape, List.foldl_cons]
    exact isNormal_foldl ⟨[], nofun, .inr rfl⟩ allSteps
  · rw [shape, List.foldl_cons]
    exact isNormal_foldl ⟨[], nofun, .inl rfl⟩ allSteps

/-- Once something is named, only names follow. -/
private def Descends (parts : List Component) : Prop :=
  parts.Pairwise fun part next => (∃ text, part = .name text) → ∃ text, next = .name text

private theorem descends_fold {parts : List Component} {part : Component} (descends : Descends parts)
    (step : part.IsStep) : Descends (fold parts part) := by
  cases part with
  | root => cases step
  | current => cases step
  | name text =>
    exact List.pairwise_append.mpr ⟨descends, List.pairwise_singleton _ _, fun _ _ next last _ =>
      ⟨text, List.mem_singleton.mp last⟩⟩
  | parent =>
    -- Two dots stay only where nothing has been named yet.
    rw [fold]
    unfold dropLast?
    split
    · exact List.pairwise_singleton _ _
    · simp [Descends]
    · exact descends.sublist (List.dropLast_sublist _)

private theorem descends_foldl {parts steps : List Component} (descends : Descends parts)
    (allSteps : ∀ part ∈ steps, part.IsStep) : Descends (steps.foldl fold parts) := by
  induction steps generalizing parts with
  | nil => exact descends
  | cons part rest ih =>
    obtain ⟨first, others⟩ := List.forall_mem_cons.mp allSteps
    exact ih (descends_fold descends first) others

/-- Below a directory that is named, a normal form goes down by names only. -/
theorem exists_name_of_normal {path : Path} {above inside : List Component} {text : String}
    (split : path.components.foldl fold [] = above ++ .name text :: inside) :
    ∀ part ∈ inside, ∃ text, part = .name text := by
  have descends : Descends (path.components.foldl fold []) := by
    obtain ⟨steps, allSteps, shape | shape | shape⟩ := components_cases path
    · rw [shape]
      exact descends_foldl .nil allSteps
    · rw [shape, List.foldl_cons]
      exact descends_foldl (List.pairwise_singleton _ _) allSteps
    · rw [shape, List.foldl_cons]
      exact descends_foldl .nil allSteps
  rw [split] at descends
  obtain ⟨below, -⟩ := List.pairwise_cons.mp (List.pairwise_append.mp descends).2.1
  exact fun part member => below part member ⟨text, rfl⟩

theorem foldl_fold_of_names {parts names : List Component} (allNames : ∀ part ∈ names, ∃ text, part = .name text) :
    names.foldl fold parts = parts ++ names := by
  induction names generalizing parts with
  | nil => exact (List.append_nil parts).symm
  | cons part rest ih =>
    obtain ⟨⟨text, rfl⟩, others⟩ := List.forall_mem_cons.mp allNames
    have added : fold parts (.name text) = parts ++ [.name text] := rfl
    rw [List.foldl_cons, ih others, added, List.append_assoc, List.singleton_append]

/-! ### Reading back -/

theorem segments_eq_singleton {text : List Char} (noSlash : '/' ∉ text) : segments text = [text] := by
  induction text with
  | nil => rfl
  | cons c rest ih =>
    obtain ⟨first, others⟩ := List.ne_and_not_mem_of_not_mem_cons noSlash
    rw [segments, ih others]
    exact first.symm

theorem segments_append (text rest : List Char) :
    segments (text ++ '/' :: rest) = segments text ++ segments rest := by
  fun_induction segments text with
  | case1 => rfl
  | case2 text ih => rw [List.cons_append, segments, ih, List.cons_append]
  | case3 c text notSlash first others split ih =>
    rw [List.cons_append, segments, ih, split]
    · rfl
    · exact notSlash
  | case4 c text notSlash split => exact absurd split (segments_ne_nil text)

theorem text_of_isStep {part : Component} (step : part.IsStep) :
    '/' ∉ part.text.toList ∧ isIdle part.text.toList = false ∧ stepOf part.text.toList = part := by
  cases part with
  | root => cases step
  | current => cases step
  | parent => decide
  | name text =>
    obtain ⟨nonempty, noSlash, notDot, notDots⟩ := step
    refine ⟨noSlash, ?_, ?_⟩
    · simp [isIdle, Component.text, nonempty, notDot]
    · simp [stepOf, Component.text, notDots]

private theorem segments_separated {parts : List Component} (nonempty : parts ≠ [])
    (allSteps : ∀ part ∈ parts, part.IsStep) :
    segments (separated parts).toList = parts.map (·.text.toList) := by
  fun_induction separated parts with
  | case1 => exact absurd rfl nonempty
  | case2 last => exact segments_eq_singleton (text_of_isStep (allSteps _ List.mem_cons_self)).1
  | case3 first rest more ih =>
    obtain ⟨firstStep, others⟩ := List.forall_mem_cons.mp allSteps
    have text : (first.text ++ "/" ++ separated rest).toList = first.text.toList ++ '/' :: (separated rest).toList := by
      simp
    rw [text, segments_append, segments_eq_singleton (text_of_isStep firstStep).1, ih more others, List.map_cons]
    rfl

private theorem steps_map_text {parts : List Component} (allSteps : ∀ part ∈ parts, part.IsStep) :
    steps (parts.map (·.text.toList)) = parts := by
  induction parts with
  | nil => rfl
  | cons part rest ih =>
    obtain ⟨first, others⟩ := List.forall_mem_cons.mp allSteps
    obtain ⟨-, busy, same⟩ := text_of_isStep first
    rw [steps, List.map_cons, List.filter_cons, if_pos (by simp [busy]), List.map_cons, same]
    exact congrArg (part :: ·) (ih others)

private theorem steps_separated {parts : List Component} (allSteps : ∀ part ∈ parts, part.IsStep) :
    steps (segments (separated parts).toList) = parts := by
  by_cases nonempty : parts = []
  · rw [nonempty]
    decide
  · rw [segments_separated nonempty allSteps, steps_map_text allSteps]

theorem components_separated {parts : List Component} (allSteps : ∀ part ∈ parts, part.IsStep) :
    (⟨separated parts⟩ : Path).components = parts := by
  cases parts with
  | nil => decide
  | cons first rest =>
    have pieces := segments_separated (List.cons_ne_nil first rest) allSteps
    obtain ⟨-, busy, -⟩ := text_of_isStep (allSteps first List.mem_cons_self)
    have relative : (⟨separated (first :: rest)⟩ : Path).isAbsolute = false := by
      rw [isAbsolute, beq_eq_false_iff_ne]
      intro slash
      obtain ⟨others, text⟩ := List.head?_eq_some_iff.mp slash
      rw [text, segments, List.map_cons, List.cons.injEq] at pieces
      rw [← pieces.1] at busy
      cases busy
    have notDot : (segments (separated (first :: rest)).toList).head? ≠ some ['.'] := by
      rw [pieces, List.map_cons, List.head?_cons]
      intro dot
      rw [Option.some.inj dot] at busy
      cases busy
    rw [components, relative, if_neg Bool.false_ne_true, if_neg (by simpa using notDot)]
    exact steps_separated allSteps

/-- Steps are written with slashes between them. -/
theorem ofComponents_of_isStep {parts : List Component} (allSteps : ∀ part ∈ parts, part.IsStep) :
    ofComponents parts = ⟨separated parts⟩ := by
  unfold ofComponents
  split
  · exact absurd (allSteps .root List.mem_cons_self) id
  · rfl

/-- The components of a path that is written from a normal form are those it is written from. -/
theorem components_ofComponents {parts : List Component} (normal : IsNormal parts) :
    (ofComponents parts).components = parts := by
  obtain ⟨rest, allSteps, rfl | rfl⟩ := normal
  · rw [ofComponents_of_isStep allSteps]
    exact components_separated allSteps
  · have text : (ofComponents (.root :: rest)).text.toList = '/' :: (separated rest).toList := by
      simp [ofComponents]
    have absolute : (ofComponents (.root :: rest)).isAbsolute := by
      rw [isAbsolute, text]
      rfl
    rw [components, if_pos absolute, text, segments]
    exact congrArg (Component.root :: ·) (steps_separated allSteps)

theorem components_normalize (path : Path) : path.normalize.components = path.components.foldl fold [] :=
  components_ofComponents (isNormal_foldl_components path)

/-- Paths in normal form that have the same components are the same. -/
theorem normalize_eq_of_same {a b : Path} (same : a.normalize.same b.normalize) : a.normalize = b.normalize := by
  have parts := same_iff.mp same
  rw [components_normalize, components_normalize] at parts
  rw [normalize, normalize, parts]

/-! ### Joining -/

private theorem steps_append (pieces others : List (List Char)) :
    steps (pieces ++ others) = steps pieces ++ steps others := by
  rw [steps, steps, steps, List.filter_append, List.map_append]

private theorem steps_segments_nil : steps (segments []) = [] := rfl

/-- What stands in the components of a text before its steps. -/
private def lead (text : List Char) : List Component :=
  if text.head? == some '/' then [.root] else if (segments text).head? == some ['.'] then [.current] else []

private theorem components_eq_lead (path : Path) :
    path.components = lead path.text.toList ++ steps (segments path.text.toList) := by
  rw [components, lead, isAbsolute]
  split
  · rfl
  · split <;> rfl

private theorem lead_append {text : List Char} (nonempty : text ≠ []) (rest : List Char) :
    lead (text ++ '/' :: rest) = lead text := by
  have first : (text ++ '/' :: rest).head? = text.head? := List.head?_append_of_ne_nil text nonempty
  have piece : (segments (text ++ '/' :: rest)).head? = (segments text).head? := by
    rw [segments_append]
    exact List.head?_append_of_ne_nil _ (segments_ne_nil text)
  rw [lead, lead, first, piece]

private theorem lead_of_isStep {path : Path} (allSteps : ∀ part ∈ path.components, part.IsStep) :
    lead path.text.toList = [] := by
  rw [components_eq_lead] at allSteps
  have first := fun part member => allSteps part (List.mem_append_left _ member)
  unfold lead at first ⊢
  split at first
  · exact absurd (first .root List.mem_cons_self) id
  · split at first
    · exact absurd (first .current List.mem_cons_self) id
    · rename_i notRoot notCurrent
      rw [if_neg notRoot, if_neg notCurrent]

/-- A slash at the end of a text that is not empty makes no difference. -/
private theorem components_slash {path other : Path} (nonempty : path.text.toList ≠ [])
    (ends : other.text.toList = path.text.toList ++ ['/']) : other.components = path.components := by
  rw [components_eq_lead, components_eq_lead, ends, lead_append nonempty, segments_append, steps_append,
    steps_segments_nil, List.append_nil]

private theorem components_append_slash {base whole : Path} {text rest : List Char}
    (ends : base.text.toList = text ++ ['/']) (joined : whole.text.toList = text ++ '/' :: rest) :
    whole.components = base.components ++ steps (segments rest) := by
  have first : lead (text ++ '/' :: rest) = lead (text ++ ['/']) := by
    cases text with
    | nil => rfl
    | cons c others => rw [lead_append (List.cons_ne_nil c others), lead_append (List.cons_ne_nil c others)]
  rw [components_eq_lead whole, components_eq_lead base, joined, ends, first, segments_append, segments_append,
    steps_append, steps_append, steps_segments_nil, List.append_nil, List.append_assoc]

private theorem isAbsolute_of_isStep {path : Path} (allSteps : ∀ part ∈ path.components, part.IsStep) :
    path.isAbsolute = false := by
  have first := lead_of_isStep allSteps
  rw [lead] at first
  split at first
  · cases first
  case isFalse notRoot => exact Bool.not_eq_true _ ▸ notRoot

/-- The steps of a relative path are its components without a dot in front. -/
private theorem steps_of_relative {path : Path} (relative : path.isAbsolute = false) :
    steps (segments path.text.toList) = path.components.filter (· != .current) := by
  have kept : (steps (segments path.text.toList)).filter (· != .current) = steps (segments path.text.toList) := by
    refine List.filter_eq_self.mpr fun part member => bne_iff_ne.mpr ?_
    rintro rfl
    exact isStep_of_mem_steps member
  rw [components_eq_lead, List.filter_append, kept, lead]
  split
  case isTrue slash => exact absurd (relative.symm.trans slash) Bool.false_ne_true
  · split <;> rfl

/-- Joining a relative path adds its components, without a dot in front. -/
theorem components_join_of_relative {base other : Path} (nonempty : base.text ≠ "")
    (relative : other.isAbsolute = false) :
    (base.join other).components = base.components ++ other.components.filter (· != .current) := by
  have written : base.text.toList ≠ [] := fun none => nonempty (String.toList_eq_nil_iff.mp none)
  rw [join, relative, if_neg Bool.false_ne_true, ← steps_of_relative relative]
  split
  case isTrue ends =>
    obtain ⟨text, ends⟩ : ∃ text, base.text.toList = text ++ ['/'] := by
      simpa [nonempty, List.getLast?_eq_some_iff] using ends
    exact components_append_slash ends (by simp [ends])
  case isFalse =>
    let slashed : Path := ⟨base.text ++ "/"⟩
    have ends : slashed.text.toList = base.text.toList ++ ['/'] := by simp [slashed]
    rw [← components_slash written ends]
    exact components_append_slash ends (by simp)

private theorem components_of_empty {path : Path} (empty : path.text = "") : path.components = [] := by
  rw [components_eq_lead, empty]
  decide

/-- Joining a path that consists of steps adds them. -/
theorem components_join (base : Path) {other : Path} (allSteps : ∀ part ∈ other.components, part.IsStep) :
    (base.join other).components = base.components ++ other.components := by
  have relative := isAbsolute_of_isStep allSteps
  by_cases empty : base.text = ""
  · rw [join, relative, if_neg Bool.false_ne_true, if_pos (by rw [empty]; rfl), components_of_empty empty,
      List.nil_append, empty, String.empty_append]
  · have kept : other.components.filter (· != .current) = other.components := by
      refine List.filter_eq_self.mpr fun part member => bne_iff_ne.mpr ?_
      rintro rfl
      exact allSteps .current member
    rw [components_join_of_relative empty relative, kept]

/-! ### Absolute paths -/

theorem exists_steps_of_isAbsolute {path : Path} (absolute : path.isAbsolute) :
    ∃ steps, (∀ part ∈ steps, part.IsStep) ∧ path.components = .root :: steps := by
  refine ⟨steps (segments path.text.toList), fun part => isStep_of_mem_steps, ?_⟩
  rw [components, if_pos absolute]

theorem isAbsolute_of_components {path : Path} {steps : List Component} (rooted : path.components = .root :: steps) :
    path.isAbsolute := by
  by_contra relative
  rw [components, if_neg relative] at rooted
  split at rooted
  · cases (List.cons.inj rooted).1
  · exact isStep_of_mem_steps (rooted ▸ List.mem_cons_self)

/-- What is read from an absolute path is absolute. -/
theorem isAbsolute_join {base : Path} (absolute : base.isAbsolute) (other : Path) : (base.join other).isAbsolute := by
  cases relative : other.isAbsolute with
  | true => rwa [join, if_pos relative]
  | false =>
    obtain ⟨steps, -, rooted⟩ := exists_steps_of_isAbsolute absolute
    have nonempty : base.text ≠ "" := by
      intro empty
      rw [components_of_empty empty] at rooted
      cases rooted
    apply isAbsolute_of_components
    rw [components_join_of_relative nonempty relative, rooted]
    rfl

theorem isAbsolute_parent? {path directory : Path} (absolute : path.isAbsolute)
    (above : path.parent? = some directory) : directory.isAbsolute := by
  obtain ⟨steps, allSteps, rooted⟩ := exists_steps_of_isAbsolute absolute
  rw [parent?, rooted] at above
  obtain ⟨parts, dropped, rfl⟩ := Option.map_eq_some_iff.mp above
  cases steps with
  | nil => cases dropped
  | cons first rest =>
    obtain rfl := Option.some.inj dropped
    rw [List.dropLast_cons_of_ne_nil (List.cons_ne_nil _ _)]
    simp [ofComponents, isAbsolute]

/-! ### Going down by names -/

section
variable {name : String} (isStep : (Component.name name).IsStep)
include isStep

theorem components_name : (⟨name⟩ : Path).components = [.name name] :=
  components_separated (List.forall_mem_singleton.mpr isStep)

theorem components_join_name (base : Path) : (base.join ⟨name⟩).components = base.components ++ [.name name] := by
  rw [components_join, components_name isStep]
  rw [components_name isStep]
  exact List.forall_mem_singleton.mpr isStep

/-- A path that ends in a name does not end in a slash or in a dot. -/
theorem endsIdle_join_name (base : Path) : (base.join ⟨name⟩).endsIdle = false := by
  obtain ⟨noSlash, busy, -⟩ := text_of_isStep isStep
  have relative : (⟨name⟩ : Path).isAbsolute = false := by
    apply isAbsolute_of_isStep
    rw [components_name isStep]
    exact List.forall_mem_singleton.mpr isStep
  have alone : segments name.toList = [name.toList] := segments_eq_singleton noSlash
  have ends (text : List Char) : (segments (text ++ '/' :: name.toList)).getLast?.any isIdle = false := by
    rw [segments_append, alone, List.getLast?_concat]
    exact busy
  rw [join, relative, if_neg Bool.false_ne_true, endsIdle]
  split
  case isFalse => simpa using ends base.text.toList
  case isTrue slashed =>
    rw [Bool.or_eq_true, String.isEmpty_iff, beq_iff_eq, List.getLast?_eq_some_iff] at slashed
    rcases slashed with empty | ⟨text, slash⟩
    · rw [empty, String.empty_append]
      dsimp only
      rw [alone]
      exact busy
    · simpa [slash] using ends text

end

/-- A path begins with the root, with a dot or with a step; then come steps. -/
theorem isStep_of_components_eq_cons {path : Path} {first : Component} {rest : List Component}
    (split : path.components = first :: rest) :
    (first = .root ∨ first = .current ∨ first.IsStep) ∧ ∀ part ∈ rest, part.IsStep := by
  obtain ⟨steps, allSteps, shape | shape | shape⟩ := components_cases path
  · rw [← shape, split] at allSteps
    exact ⟨.inr (.inr (allSteps first List.mem_cons_self)), fun part member =>
      allSteps part (List.mem_cons_of_mem _ member)⟩
  · obtain ⟨rfl, rfl⟩ := List.cons.inj (split.symm.trans shape)
    exact ⟨.inl rfl, allSteps⟩
  · obtain ⟨rfl, rfl⟩ := List.cons.inj (split.symm.trans shape)
    exact ⟨.inr (.inl rfl), allSteps⟩

/-- What follows on the first components of a path consists of steps. -/
theorem isStep_of_components_eq {path : Path} {parts rest : List Component} (nonempty : parts ≠ [])
    (split : path.components = parts ++ rest) : ∀ part ∈ rest, part.IsStep := by
  obtain ⟨first, others, rfl⟩ := List.exists_cons_of_ne_nil nonempty
  intro part member
  exact (isStep_of_components_eq_cons split).2 part (List.mem_append_right _ member)

/-- The components that a path begins with are read back from what is written for them. -/
theorem components_ofComponents_of_prefix {path : Path} {parts rest : List Component}
    (split : path.components = parts ++ rest) : (ofComponents parts).components = parts := by
  cases parts with
  | nil => decide
  | cons first others =>
    obtain ⟨begins, afterwards⟩ := isStep_of_components_eq_cons split
    have allSteps : ∀ part ∈ others, part.IsStep := fun part member =>
      afterwards part (List.mem_append_left _ member)
    rcases begins with rfl | rfl | step
    · exact components_ofComponents ⟨others, allSteps, .inr rfl⟩
    · cases others with
      | nil => decide
      | cons second more =>
        have read := components_ofComponents ⟨_, allSteps, .inl rfl⟩
        have relative := ofComponents_of_isStep allSteps
        rw [← read] at allSteps
        have joined : ofComponents (.current :: second :: more) =
            (⟨"."⟩ : Path).join (ofComponents (second :: more)) := by
          rw [join, isAbsolute_of_isStep allSteps, relative]
          rfl
        rw [joined, components_join _ allSteps, read]
        rfl
    · refine components_ofComponents ⟨first :: others, ?_, .inl rfl⟩
      exact List.forall_mem_cons.mpr ⟨step, allSteps⟩

end Path
end DeadCode
