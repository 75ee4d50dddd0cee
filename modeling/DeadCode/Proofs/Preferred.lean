import DeadCode.Proofs.Matching

/-!
The preferred reading of a pattern on a text of known shape. Each piece of a pattern is read with what
really follows it, so that readings can be put together: a repetition of characters takes its whole run,
and what comes after it is read from there. Searching for a pattern is taken apart in the same way, into
what is passed over, what is found, and what has no place left.
-/
namespace DeadCode.Text

/-! ### Going on over a text -/

def Reading.past (reading : Reading) (text rest : List Char) : Reading where
  offset := reading.offset + byteLength text
  last := text.getLast?.or reading.last
  rest := rest
  captures := reading.captures

def Reading.capturing (reading : Reading) (label : String) (text rest : List Char) : Reading :=
  { reading.past text rest with
    captures := ⟨label, reading.offset, reading.offset + byteLength text, text ++ rest⟩ :: reading.captures }

namespace Reading
variable (reading : Reading)

theorem past_nil {rest : List Char} (starts : reading.rest = rest) : reading.past [] rest = reading := by
  subst starts
  rfl

theorem past_past (first second middle rest : List Char) :
    (reading.past first middle).past second rest = reading.past (first ++ second) rest := by
  simp only [past, byteLength_append, Nat.add_assoc, List.getLast?_append]
  cases second.getLast? <;> rfl

@[simp] theorem captured_past (label : String) (text rest : List Char) :
    (reading.past text rest).captured label = reading.captured label := rfl

@[simp] theorem captured_capturing (label : String) (text rest : List Char) :
    (reading.capturing label text rest).captured label = text := by
  have found : (reading.capturing label text rest).capture? label =
      some ⟨label, reading.offset, reading.offset + byteLength text, text ++ rest⟩ :=
    List.find?_cons_of_pos (beq_self_eq_true label)
  rw [captured, found, Option.map_some, Option.getD_some, Capture.text, Nat.add_sub_cancel_left, takeBytes_append]

theorem captured_capturing_of_ne {label other : String} (differs : other ≠ label) (text rest : List Char) :
    (reading.capturing other text rest).captured label = reading.captured label := by
  have passed : (reading.capturing other text rest).capture? label = reading.capture? label :=
    List.find?_cons_of_neg (by simp [differs])
  rw [captured, passed, captured]

end Reading

namespace Pattern
variable {reading next : Reading} {text rest : List Char} {test : Char → Bool}

/-! ### Pieces of patterns -/

theorem first?_eq_none_iff {pattern : Pattern} : pattern.first? reading = none ↔ pattern.outcomes reading = [] :=
  List.head?_eq_none_iff

theorem first?_append {first second : Pattern} {middle : Reading} (one : first.first? reading = some middle)
    (two : second.first? middle = some next) : (first ++ second).first? reading = some next := by
  obtain ⟨others, outcomes⟩ := List.head?_eq_some_iff.mp one
  show ((first.outcomes reading).flatMap second.outcomes).head? = some next
  rw [outcomes, List.flatMap_cons, List.head?_append, ← first?, two]
  rfl

theorem first?_append_none {first : Pattern} (second : Pattern) (none : first.first? reading = none) :
    (first ++ second).first? reading = Option.none := by
  show ((first.outcomes reading).flatMap second.outcomes).head? = Option.none
  rw [first?_eq_none_iff.mp none]
  rfl

theorem first?_either_left {left : Pattern} (right : Pattern) (one : left.first? reading = some next) :
    (either left right).first? reading = some next := by
  show (left.outcomes reading ++ right.outcomes reading).head? = some next
  rw [List.head?_append, ← first?, one]
  rfl

theorem first?_either_right {left : Pattern} (right : Pattern) (none : left.first? reading = none) :
    (either left right).first? reading = right.first? reading := by
  show (left.outcomes reading ++ right.outcomes reading).head? = _
  rw [first?_eq_none_iff.mp none]
  rfl

theorem first?_char {c : Char} (accepted : test c) (starts : reading.rest = c :: rest) :
    (char test).first? reading = some (reading.past [c] rest) := by
  rw [first?, outcomes, starts]
  simp [accepted, Reading.past]

theorem first?_char_none (refused : ∀ c ∈ reading.rest.head?, test c = false) :
    (char test).first? reading = none := by
  rw [first?, outcomes]
  cases starts : reading.rest with
  | nil => rfl
  | cons c rest =>
    have refused : test c = false := refused c (by rw [starts, List.head?_cons, Option.mem_some_iff])
    simp [refused]

theorem first?_anchor {condition : Anchor} (holds : condition.holds reading) :
    (anchor condition).first? reading = some reading := by
  rw [first?, outcomes, if_pos holds]
  rfl

theorem first?_capture {inner : Pattern} (label : String) (starts : reading.rest = text ++ rest)
    (one : inner.first? reading = some (reading.past text rest)) :
    (capture label inner).first? reading = some (reading.capturing label text rest) := by
  rw [first?, outcomes, List.head?_map, ← first?, one, starts]
  rfl

/-- A text that is asked for is read where it stands. -/
theorem first?_lit (word : String) (starts : reading.rest = word.toList ++ rest) :
    (lit word).first? reading = some (reading.past word.toList rest) := by
  unfold lit
  generalize word.toList = chars at starts
  induction chars generalizing reading with
  | nil => rw [List.nil_append] at starts; rw [Reading.past_nil _ starts]; rfl
  | cons c chars ih =>
    have one : (char (· == c)).first? reading = some (reading.past [c] (chars ++ rest)) :=
      first?_char (beq_self_eq_true c) starts
    rw [← List.singleton_append, ← Reading.past_past]
    exact first?_append one (ih rfl)

theorem first?_lit_none {word : String} {c : Char} {others : List Char} (starts : word.toList = c :: others)
    (differs : ∀ d ∈ reading.rest.head?, d ≠ c) : (lit word).first? reading = none := by
  have one : (char (· == c)).first? reading = none :=
    first?_char_none fun d head => beq_eq_false_iff_ne.mpr (differs d head)
  have whole : lit word = char (· == c) ++ others.foldr (fun c rest => seq (char (· == c)) rest) nothing := by
    rw [lit, starts]
    rfl
  rw [whole]
  exact first?_append_none _ one

theorem first?_oneOf_head {word : String} (others : List String) (one : (lit word).first? reading = some next) :
    (oneOf (word :: others)).first? reading = some next := by
  cases others with
  | nil => exact one
  | cons other others => exact first?_either_left _ one

theorem first?_oneOf_tail {word other : String} (others : List String) (none : (lit word).first? reading = none) :
    (oneOf (word :: other :: others)).first? reading = (oneOf (other :: others)).first? reading :=
  first?_either_right _ none

/-- A repetition goes on to the end of the run, in front of all that it could also do. -/
private theorem head?_repeated_char (others : List Reading) {bound : Nat} (enough : text.length ≤ bound)
    (starts : reading.rest = text ++ rest) (accepted : ∀ c ∈ text, test c)
    (stops : ∀ c ∈ rest.head?, test c = false) :
    (repeated (char test).outcomes bound reading others).head? = some (reading.past text rest) := by
  induction text generalizing reading bound others with
  | nil =>
    rw [List.nil_append] at starts
    rw [Reading.past_nil _ starts]
    cases bound with
    | zero => rfl
    | succ bound =>
      have none : (char test).outcomes reading = [] :=
        first?_eq_none_iff.mp (first?_char_none (by rw [starts]; exact stops))
      rw [repeated, none]
      rfl
  | cons c text ih =>
    obtain ⟨first, later⟩ := List.forall_mem_cons.mp accepted
    obtain ⟨bound, rfl⟩ : ∃ n, bound = n + 1 := Nat.exists_eq_add_one.mpr (Nat.lt_of_lt_of_le (Nat.succ_pos _) enough)
    have one : (char test).outcomes reading = [reading.past [c] (text ++ rest)] := by
      rw [outcomes, starts]
      simp [first, Reading.past]
    have advances : reading.offset < (reading.past [c] (text ++ rest)).offset := by
      have := c.utf8Size_pos
      simp only [Reading.past, byteLength_cons, byteLength_nil]
      omega
    rw [repeated, one, List.filter_cons_of_pos (by simpa using advances), List.filter_nil, List.foldr_cons,
      List.foldr_nil, ih _ (Nat.le_of_succ_le_succ enough) rfl later, Reading.past_past]
    rfl

/-- A repetition of characters takes the whole run of them. -/
theorem first?_many_char (starts : reading.rest = text ++ rest) (accepted : ∀ c ∈ text, test c)
    (stops : ∀ c ∈ rest.head?, test c = false) :
    (many (char test)).first? reading = some (reading.past text rest) := by
  rw [first?, outcomes]
  refine head?_repeated_char [] ?_ starts accepted stops
  rw [starts, List.length_append]
  exact Nat.le_add_right _ _

theorem first?_many_char_none (stops : ∀ c ∈ reading.rest.head?, test c = false) :
    (many (char test)).first? reading = some reading := by
  have nothing : ∀ c ∈ [], test c := fun c member => absurd member List.not_mem_nil
  have whole := first?_many_char (List.nil_append reading.rest).symm nothing stops
  rwa [Reading.past_nil _ rfl] at whole

theorem first?_several_char (nonempty : text ≠ []) (starts : reading.rest = text ++ rest)
    (accepted : ∀ c ∈ text, test c) (stops : ∀ c ∈ rest.head?, test c = false) :
    (several (char test)).first? reading = some (reading.past text rest) := by
  obtain ⟨c, text, rfl⟩ := List.exists_cons_of_ne_nil nonempty
  obtain ⟨first, later⟩ := List.forall_mem_cons.mp accepted
  have one : (char test).first? reading = some (reading.past [c] (text ++ rest)) := first?_char first starts
  rw [← List.singleton_append, ← Reading.past_past]
  exact first?_append one (first?_many_char rfl later stops)

/-! ### What a pattern cannot do without -/

/-- Whatever the pattern reads has a character of a class in it. -/
def Requires (needed : Char → Prop) : Pattern → Prop
  | char test => ∀ c, test c → needed c
  | seq first second => first.Requires needed ∨ second.Requires needed
  | either left right => left.Requires needed ∧ right.Requires needed
  | capture _ inner => inner.Requires needed
  | _ => False

theorem exists_mem_of_requires {needed : Char → Prop} {pattern : Pattern} (requires : pattern.Requires needed)
    (member : next ∈ pattern.outcomes reading) : ∃ c ∈ reading.rest, needed c := by
  induction pattern generalizing reading next with
  | nothing | many | manyReluctant | anchor => exact requires.elim
  | char test =>
    obtain ⟨c, rest, starts, accepted, -⟩ := mem_outcomes_char member
    exact ⟨c, by rw [starts]; exact List.mem_cons_self, requires c accepted⟩
  | seq first second inFirst inSecond =>
    obtain ⟨middle, one, two⟩ := List.mem_flatMap.mp member
    rcases requires with requires | requires
    · exact inFirst requires one
    · obtain ⟨text, split, -, -⟩ := advances_of_mem_outcomes (readsOnly_true first) one
      obtain ⟨c, inRest, needed⟩ := inSecond requires two
      exact ⟨c, by rw [split]; exact List.mem_append_right _ inRest, needed⟩
  | either left right inLeft inRight =>
    rcases List.mem_append.mp member with member | member
    · exact inLeft requires.1 member
    · exact inRight requires.2 member
  | capture label inner inInner =>
    obtain ⟨middle, one, -⟩ := List.mem_map.mp member
    exact inInner requires one

theorem first?_none_of_requires {needed : Char → Prop} {pattern : Pattern} (requires : pattern.Requires needed)
    (lacks : ∀ c ∈ reading.rest, ¬ needed c) : pattern.first? reading = none := by
  rw [first?_eq_none_iff, List.eq_nil_iff_forall_not_mem]
  intro next member
  obtain ⟨c, inRest, needed⟩ := exists_mem_of_requires requires member
  exact lacks c inRest needed

/-! ### Searching -/

section
variable {pattern : Pattern} {resume offset : Nat} {last : Option Char}

/-- The places before the point from which the search goes on are passed over. -/
private theorem findAllFrom_skip (skipped : List Char) (reaches : resume = offset + byteLength skipped) :
    findAllFrom pattern resume offset last (skipped ++ rest) =
      findAllFrom pattern resume (offset + byteLength skipped) (skipped.getLast?.or last) rest := by
  induction skipped generalizing offset last with
  | nil => rfl
  | cons c skipped ih =>
    have before : offset < resume := by
      have := c.utf8Size_pos
      rw [byteLength_cons] at reaches
      omega
    have same : offset + byteLength (c :: skipped) = offset + c.utf8Size + byteLength skipped := by
      rw [byteLength_cons, Nat.add_assoc]
    rw [List.cons_append, findAllFrom, if_pos before, ih (by rw [reaches, same]), same, List.getLast?_cons]
    cases skipped.getLast? <;> rfl

/-- Where the pattern cannot begin with a character of a text, the search goes on after it. -/
theorem findAllFrom_miss (missed : List Char) (reached : resume ≤ offset)
    (none : ∀ c ∈ missed, ∀ offset last after, pattern.first? ⟨offset, last, c :: after, []⟩ = none) :
    findAllFrom pattern resume offset last (missed ++ rest) =
      findAllFrom pattern resume (offset + byteLength missed) (missed.getLast?.or last) rest := by
  induction missed generalizing offset last with
  | nil => rfl
  | cons c missed ih =>
    obtain ⟨here, later⟩ := List.forall_mem_cons.mp none
    have same : offset + byteLength (c :: missed) = offset + c.utf8Size + byteLength missed := by
      rw [byteLength_cons, Nat.add_assoc]
    rw [List.cons_append, findAllFrom, if_neg (Nat.not_lt.mpr reached), here]
    show findAllFrom pattern resume (offset + c.utf8Size) (some c) (missed ++ rest) = _
    rw [ih (Nat.le_add_right_of_le reached) later, same, List.getLast?_cons]
    cases missed.getLast? <;> rfl

/-- A pattern that is found stands in front of what is found after it. -/
theorem findAllFrom_find {text : List Char} (nonempty : text ≠ []) (reached : resume ≤ offset)
    (found : pattern.first? ⟨offset, last, text ++ rest, []⟩ = some next)
    (reads : next.offset = offset + byteLength text) :
    findAllFrom pattern resume offset last (text ++ rest) =
      ⟨offset, next⟩ :: findAllFrom pattern next.offset next.offset (text.getLast?.or last) rest := by
  obtain ⟨c, text, rfl⟩ := List.exists_cons_of_ne_nil nonempty
  have same : next.offset = offset + c.utf8Size + byteLength text := by
    rw [reads, byteLength_cons, Nat.add_assoc]
  rw [List.cons_append, findAllFrom, if_neg (Nat.not_lt.mpr reached), ← List.cons_append, found]
  show ⟨offset, next⟩ :: findAllFrom pattern next.offset (offset + c.utf8Size) (some c) (text ++ rest) = _
  rw [findAllFrom_skip text same, ← same, List.getLast?_cons]
  cases text.getLast? <;> rfl

theorem findAllFrom_of_requires {needed : Char → Prop} (requires : pattern.Requires needed)
    (lacks : ∀ c ∈ text, ¬ needed c) : findAllFrom pattern resume offset last text = [] := by
  induction text generalizing offset last with
  | nil => rfl
  | cons c text ih =>
    have later : ∀ d ∈ text, ¬ needed d := fun d member => lacks d (List.mem_cons_of_mem _ member)
    have here : pattern.first? ⟨offset, last, c :: text, []⟩ = none := first?_none_of_requires requires lacks
    rw [findAllFrom, here]
    split
    · exact ih later
    · exact ih later

end
end Pattern
end DeadCode.Text
