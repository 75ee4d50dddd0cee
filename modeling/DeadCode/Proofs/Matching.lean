import DeadCode.Text.Pattern

/-!
What the outcomes of a pattern have read, and where the places lie at which it is found. A place splits
the text into what stands before it, what the pattern has read there, and the rest.
-/
namespace DeadCode.Text

/-- From one reading to a later one, only characters of a class were read. -/
def Reading.Advances (accepts : Char → Prop) (reading next : Reading) : Prop :=
  ∃ text, reading.rest = text ++ next.rest ∧ next.offset = reading.offset + byteLength text ∧
    ∀ c ∈ text, accepts c

namespace Reading.Advances
variable {accepts : Char → Prop} {a b c : Reading}

theorem of_eq (same : b = a) : Advances accepts a b := same ▸ ⟨[], rfl, rfl, nofun⟩

theorem trans (one : Advances accepts a b) (two : Advances accepts b c) : Advances accepts a c := by
  obtain ⟨first, restA, offsetB, firstAccepted⟩ := one
  obtain ⟨second, restB, offsetC, secondAccepted⟩ := two
  refine ⟨first ++ second, ?_, ?_, ?_⟩
  · rw [restA, restB, List.append_assoc]
  · rw [offsetC, offsetB, byteLength_append, Nat.add_assoc]
  · intro d member
    exact (List.mem_append.mp member).elim (firstAccepted d) (secondAccepted d)

end Reading.Advances

namespace Pattern
variable {accepts : Char → Prop}

/-- Every character that the pattern can read belongs to a class. -/
def ReadsOnly (accepts : Char → Prop) : Pattern → Prop
  | nothing => True
  | char test => ∀ c, test c → accepts c
  | seq first second => first.ReadsOnly accepts ∧ second.ReadsOnly accepts
  | either left right => left.ReadsOnly accepts ∧ right.ReadsOnly accepts
  | many item => item.ReadsOnly accepts
  | manyReluctant item => item.ReadsOnly accepts
  | capture _ inner => inner.ReadsOnly accepts
  | anchor _ => True

theorem readsOnly_true (pattern : Pattern) : pattern.ReadsOnly fun _ => True := by
  induction pattern with
  | nothing | anchor => trivial
  | char => exact fun _ _ => trivial
  | seq _ _ first second => exact ⟨first, second⟩
  | either _ _ left right => exact ⟨left, right⟩
  | many _ item | manyReluctant _ item => exact item
  | capture _ _ inner => exact inner

private theorem mem_foldr_cases {α β : Type} {extend : α → List β → List β} {reaches : α → β → Prop} {x : β}
    (one : ∀ a others, x ∈ extend a others → reaches a x ∨ x ∈ others) (items : List α) (others : List β)
    (member : x ∈ items.foldr extend others) : (∃ a ∈ items, reaches a x) ∨ x ∈ others := by
  induction items with
  | nil => exact .inr member
  | cons a rest ih =>
    rcases one a _ member with here | later
    · exact .inl ⟨a, List.mem_cons_self, here⟩
    · exact (ih later).imp_left fun ⟨b, inRest, found⟩ => ⟨b, List.mem_cons_of_mem _ inRest, found⟩

section
variable {step : Reading → List Reading} (related : Reading → Reading → Prop) (ofEq : ∀ {a b}, b = a → related a b)
  (trans : ∀ {a b c}, related a b → related b c → related a c)
  (steps : ∀ reading next, next ∈ step reading → related reading next)
include ofEq trans steps

theorem related_of_mem_repeated (bound : Nat) (reading : Reading) (others : List Reading)
    {next : Reading} (member : next ∈ repeated step bound reading others) : related reading next ∨ next ∈ others := by
  induction bound generalizing reading others with
  | zero => exact (List.mem_cons.mp member).imp_left ofEq
  | succ bound ih =>
    rcases mem_foldr_cases ih _ _ member with ⟨middle, inStep, later⟩ | member
    · exact .inl (trans (steps _ _ (List.mem_filter.mp inStep).1) later)
    · exact (List.mem_cons.mp member).imp_left ofEq

theorem related_of_mem_repeatedReluctantly (bound : Nat) (reading : Reading) (others : List Reading)
    {next : Reading} (member : next ∈ repeatedReluctantly step bound reading others) :
    related reading next ∨ next ∈ others := by
  induction bound generalizing reading others with
  | zero => exact (List.mem_cons.mp member).imp_left ofEq
  | succ bound ih =>
    rcases List.mem_cons.mp member with same | member
    · exact .inl (ofEq same)
    rcases mem_foldr_cases ih _ _ member with ⟨middle, inStep, later⟩ | member
    · exact .inl (trans (steps _ _ (List.mem_filter.mp inStep).1) later)
    · exact .inr member

end

theorem mem_outcomes_char {test : Char → Bool} {reading next : Reading}
    (member : next ∈ (char test).outcomes reading) :
    ∃ c rest, reading.rest = c :: rest ∧ test c ∧
      next = { reading with offset := reading.offset + c.utf8Size, last := some c, rest := rest } := by
  rw [outcomes] at member
  split at member
  · cases member
  case h_2 c rest text =>
    split at member
    case isTrue accepted => exact ⟨c, rest, text, accepted, List.mem_singleton.mp member⟩
    case isFalse => cases member

theorem advances_of_mem_outcomes {pattern : Pattern} (only : pattern.ReadsOnly accepts)
    {reading next : Reading} (member : next ∈ pattern.outcomes reading) :
    reading.Advances accepts next := by
  induction pattern generalizing reading next with
  | nothing => exact .of_eq (List.mem_singleton.mp member)
  | char test =>
    obtain ⟨c, rest, text, accepted, rfl⟩ := mem_outcomes_char member
    exact ⟨[c], text, rfl, fun d inText => List.mem_singleton.mp inText ▸ only c accepted⟩
  | seq first second firstRead secondRead =>
    obtain ⟨middle, inFirst, inSecond⟩ := List.mem_flatMap.mp member
    exact (firstRead only.1 inFirst).trans (secondRead only.2 inSecond)
  | either left right leftRead rightRead =>
    exact (List.mem_append.mp member).elim (leftRead only.1) (rightRead only.2)
  | many item itemRead =>
    exact (related_of_mem_repeated (Reading.Advances accepts) .of_eq .trans (fun _ _ => itemRead only) _ _ _
      member).resolve_right nofun
  | manyReluctant item itemRead =>
    exact (related_of_mem_repeatedReluctantly (Reading.Advances accepts) .of_eq .trans (fun _ _ => itemRead only)
      _ _ _ member).resolve_right nofun
  | capture label inner innerRead =>
    obtain ⟨middle, inInner, rfl⟩ := List.mem_map.mp member
    obtain ⟨text, rest, offset, accepted⟩ := innerRead only inInner
    exact ⟨text, rest, offset, accepted⟩
  | anchor condition =>
    rw [outcomes] at member
    split at member
    · exact .of_eq (List.mem_singleton.mp member)
    · cases member

/-! ### Captures -/

def captures (label : String) : Pattern → Bool
  | nothing | char _ | anchor _ => false
  | seq first second => first.captures label || second.captures label
  | either left right => left.captures label || right.captures label
  | many item | manyReluctant item => item.captures label
  | capture other inner => other == label || inner.captures label

theorem capture?_of_mem_outcomes {label : String} {pattern : Pattern} (free : pattern.captures label = false)
    {reading next : Reading} (member : next ∈ pattern.outcomes reading) :
    next.capture? label = reading.capture? label := by
  induction pattern generalizing reading next with
  | nothing => rw [List.mem_singleton.mp member]
  | char test =>
    obtain ⟨c, rest, -, -, rfl⟩ := mem_outcomes_char member
    rfl
  | seq first second firstKeeps secondKeeps =>
    obtain ⟨freeFirst, freeSecond⟩ := Bool.or_eq_false_iff.mp free
    obtain ⟨middle, inFirst, inSecond⟩ := List.mem_flatMap.mp member
    rw [secondKeeps freeSecond inSecond, firstKeeps freeFirst inFirst]
  | either left right leftKeeps rightKeeps =>
    obtain ⟨freeLeft, freeRight⟩ := Bool.or_eq_false_iff.mp free
    exact (List.mem_append.mp member).elim (leftKeeps freeLeft) (rightKeeps freeRight)
  | many item itemKeeps =>
    exact (related_of_mem_repeated (fun a b => b.capture? label = a.capture? label)
      (fun same => same ▸ rfl) (fun one two => two.trans one) (fun _ _ => itemKeeps free) _ _ _
      member).resolve_right nofun
  | manyReluctant item itemKeeps =>
    exact (related_of_mem_repeatedReluctantly (fun a b => b.capture? label = a.capture? label)
      (fun same => same ▸ rfl) (fun one two => two.trans one) (fun _ _ => itemKeeps free) _ _ _
      member).resolve_right nofun
  | capture other inner innerKeeps =>
    obtain ⟨differs, freeInner⟩ := Bool.or_eq_false_iff.mp free
    obtain ⟨middle, inInner, rfl⟩ := List.mem_map.mp member
    rw [← innerKeeps freeInner inInner]
    exact List.find?_cons_of_neg (by simp [differs])
  | anchor condition =>
    rw [outcomes] at member
    split at member
    · rw [List.mem_singleton.mp member]
    · cases member

/-! ### Places -/

/-- A place where the pattern is found in a text that begins at some position. -/
def FoundAt (pattern : Pattern) (offset : Nat) (text : List Char) (found : Found) : Prop :=
  ∃ before rest last, text = before ++ rest ∧ found.start = offset + byteLength before ∧
    found.finish ∈ pattern.outcomes ⟨found.start, last, rest, []⟩

private theorem FoundAt.cons {pattern : Pattern} {offset : Nat} {c : Char} {rest : List Char} {found : Found}
    (later : FoundAt pattern (offset + c.utf8Size) rest found) : FoundAt pattern offset (c :: rest) found := by
  obtain ⟨before, after, last, rfl, start, finish⟩ := later
  refine ⟨c :: before, after, last, rfl, ?_, finish⟩
  rw [start, byteLength_cons, Nat.add_assoc]

theorem foundAt_of_mem_findAllFrom {pattern : Pattern} {resume offset : Nat} {last : Option Char}
    {text : List Char} {found : Found} (member : found ∈ findAllFrom pattern resume offset last text) :
    FoundAt pattern offset text found := by
  fun_induction findAllFrom pattern resume offset last text with
  | case1 => cases member
  | case2 _ _ _ _ _ _ ih => exact (ih member).cons
  | case3 _ offset last c rest _ reading first ih =>
    rcases List.mem_cons.mp member with rfl | member
    · exact ⟨[], c :: rest, last, rfl, rfl, List.mem_of_head? first⟩
    · exact (ih member).cons
  | case4 _ _ _ _ _ _ _ ih => exact (ih member).cons

private theorem pairwise_start_findAllFrom (pattern : Pattern) (resume offset : Nat) (last : Option Char)
    (text : List Char) : (findAllFrom pattern resume offset last text).Pairwise (·.start < ·.start) := by
  fun_induction findAllFrom pattern resume offset last text with
  | case1 => exact .nil
  | case2 _ _ _ _ _ _ ih => exact ih
  | case3 _ offset _ c rest _ reading _ ih =>
    refine List.pairwise_cons.mpr ⟨fun found member => ?_, ih⟩
    obtain ⟨_, _, _, _, start, _⟩ := foundAt_of_mem_findAllFrom member
    have := c.utf8Size_pos
    show offset < found.start
    omega
  | case4 _ _ _ _ _ _ _ ih => exact ih

/-- No two places begin at the same position. -/
theorem pairwise_start_findAll (pattern : Pattern) (text : List Char) :
    (pattern.findAll text).Pairwise (·.start < ·.start) :=
  pairwise_start_findAllFrom pattern 0 0 none text

/-! ### Names -/

theorem isBlank_of_isNameStart {c : Char} (starts : isNameStart c) : isBlank c = false := by
  have small : c.toNat = 36 ∨ 65 ≤ c.toNat ∧ c.toNat ≤ 122 := by
    simp only [isNameStart, Bool.or_eq_true, beq_iff_eq] at starts
    rcases starts with (letter | rfl) | rfl
    · rcases Bool.or_eq_true_iff.mp letter with upper | lower
      · obtain ⟨low, high⟩ := of_decide_eq_true upper
        exact .inr ⟨UInt32.le_iff_toNat_le.mp low, Nat.le_trans (UInt32.le_iff_toNat_le.mp high) (by decide)⟩
      · obtain ⟨low, high⟩ := Bool.and_eq_true_iff.mp lower
        have low := UInt32.le_iff_toNat_le.mp (of_decide_eq_true low)
        exact .inr ⟨Nat.le_trans (by decide) low, UInt32.le_iff_toNat_le.mp (of_decide_eq_true high)⟩
    · exact .inr (by decide)
    · exact .inl rfl
  simp only [isBlank, Bool.or_eq_false_iff, Bool.and_eq_false_iff, decide_eq_false_iff_not, beq_eq_false_iff_ne]
  omega

/-- A name: what begins it, and then characters of words and dollar signs. -/
def IsName (word : List Char) : Prop :=
  ∃ c others, word = c :: others ∧ isNameStart c ∧ ∀ d ∈ others, isWordChar d || d == '$'

theorem IsName.ne_nil {word : List Char} (isName : IsName word) : word ≠ [] := by
  obtain ⟨c, others, rfl, -⟩ := isName
  exact List.cons_ne_nil _ _

theorem IsName.notMem {word : List Char} {c : Char} (isName : IsName word) (notFirst : ¬isNameStart c)
    (notLater : ¬(isWordChar c || c == '$')) : c ∉ word := by
  obtain ⟨first, others, rfl, starts, accepted⟩ := isName
  intro member
  rcases List.mem_cons.mp member with rfl | member
  · exact notFirst starts
  · exact notLater (accepted c member)

theorem IsName.blank_notMem {word : List Char} (isName : IsName word) : ' ' ∉ word :=
  isName.notMem (by decide) (by decide)

theorem IsName.dot_notMem {word : List Char} (isName : IsName word) : '.' ∉ word :=
  isName.notMem (by decide) (by decide)

/-- What the pattern of a name reads is a name. -/
theorem exists_isName_of_mem_outcomes {reading next : Reading} (member : next ∈ name.outcomes reading) :
    ∃ word, reading.rest = word ++ next.rest ∧ next.offset = reading.offset + byteLength word ∧ IsName word := by
  obtain ⟨middle, first, later⟩ := List.mem_flatMap.mp member
  obtain ⟨c, others, head, starts, rfl⟩ := mem_outcomes_char first
  have only : (many nameChar).ReadsOnly fun d => isWordChar d || d == '$' := fun _ accepted => accepted
  obtain ⟨word, split, offset, accepted⟩ := advances_of_mem_outcomes only later
  refine ⟨c :: word, head.trans (congrArg (c :: ·) split), ?_, c, word, rfl, starts, accepted⟩
  rw [offset, byteLength_cons, Nat.add_assoc]

/-- A captured name is the text that was captured. -/
theorem exists_isName_of_mem_capture {label : String} {reading next : Reading}
    (member : next ∈ (capture label name).outcomes reading) :
    ∃ word found, reading.rest = word ++ next.rest ∧ IsName word ∧ next.capture? label = some found ∧
      found.start = reading.offset ∧ found.text = word := by
  obtain ⟨last, inWord, rfl⟩ := List.mem_map.mp member
  obtain ⟨word, split, offset, isName⟩ := exists_isName_of_mem_outcomes inWord
  refine ⟨word, _, split, isName, List.find?_cons_of_pos (beq_self_eq_true label), rfl, ?_⟩
  have size : last.offset - reading.offset = byteLength word := by omega
  rw [Capture.text, size, split, takeBytes_append]

/-- A name that is found splits the text. -/
theorem exists_split_of_mem_findAll_name {text : List Char} {found : Found}
    (member : found ∈ name.findAll text) :
    ∃ before word after, text = before ++ (word ++ after) ∧ found.start = byteLength before ∧
      found.finish.offset = byteLength before + byteLength word ∧ IsName word := by
  obtain ⟨before, rest, last, rfl, start, finish⟩ := foundAt_of_mem_findAllFrom member
  obtain ⟨word, split, offset, isName⟩ := exists_isName_of_mem_outcomes finish
  rw [Nat.zero_add] at start
  refine ⟨before, word, found.finish.rest, ?_, start, ?_, isName⟩
  · exact congrArg (before ++ ·) split
  · rw [offset, start]

end Pattern
end DeadCode.Text
