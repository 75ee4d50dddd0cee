import DeadCode.Proofs.Matching

/-!
The texts that a pattern can read, said without an order of preference. A pattern may look at the character before
the text and at what follows it, so these belong to the relation. Searching for a pattern finds a place exactly if
the text has one.
-/
namespace DeadCode.Text

/-- From one reading to a later one, exactly a text was read. -/
structure Reading.Took (reading : Reading) (text : List Char) (next : Reading) : Prop where
  split : reading.rest = text ++ next.rest
  last : next.last = text.getLast?.or reading.last
  offset : next.offset = reading.offset + byteLength text

namespace Reading.Took
variable {a b c : Reading} {first second : List Char}

theorem refl (reading : Reading) : reading.Took [] reading := ⟨rfl, rfl, rfl⟩

theorem trans (one : a.Took first b) (two : b.Took second c) : a.Took (first ++ second) c where
  split := by rw [one.split, two.split, List.append_assoc]
  last := by
    rw [two.last, one.last, List.getLast?_append]
    cases second.getLast? <;> rfl
  offset := by rw [two.offset, one.offset, byteLength_append, Nat.add_assoc]

/-- The position moves on exactly if something was read. -/
theorem offset_lt_iff (took : a.Took first b) : a.offset < b.offset ↔ first ≠ [] := by
  rw [took.offset]
  cases first with
  | nil => simp
  | cons c rest =>
    have := c.utf8Size_pos
    simp only [byteLength_cons, ne_eq, reduceCtorEq, not_false_eq_true, iff_true]
    omega

end Reading.Took

namespace Pattern

/-- Texts one after another, none of them empty, that an item can read. -/
inductive Repeats (item : Option Char → List Char → List Char → Prop) :
    Option Char → List Char → List Char → Prop where
  | none {last : Option Char} {rest : List Char} : Repeats item last [] rest
  | more {last : Option Char} {first others rest : List Char} (nonempty : first ≠ [])
      (one : item last first (others ++ rest)) (further : Repeats item (first.getLast?.or last) others rest) :
      Repeats item last (first ++ others) rest

/-- The pattern can read a text that stands after a character and before a rest. -/
def Reads : Pattern → Option Char → List Char → List Char → Prop
  | nothing, _, text, _ => text = []
  | char test, _, text, _ => ∃ c, text = [c] ∧ test c
  | seq first second, last, text, rest =>
    ∃ one two, text = one ++ two ∧ first.Reads last one (two ++ rest) ∧
      second.Reads (one.getLast?.or last) two rest
  | either left right, last, text, rest => left.Reads last text rest ∨ right.Reads last text rest
  | many item, last, text, rest => Repeats item.Reads last text rest
  | manyReluctant item, last, text, rest => Repeats item.Reads last text rest
  | capture _ inner, last, text, rest => inner.Reads last text rest
  | anchor condition, last, text, rest => text = [] ∧ condition.holds ⟨0, last, rest, []⟩

namespace Repeats
variable {item : Option Char → List Char → List Char → Prop} {last : Option Char} {rest first second : List Char}

theorem single (one : item last first rest) : Repeats item last first rest := by
  cases first with
  | nil => exact .none
  | cons c text =>
    have whole : Repeats item last (c :: text ++ []) rest := .more (List.cons_ne_nil c text) one .none
    rwa [List.append_nil] at whole

theorem append {after : List Char} (one : Repeats item last first after) (follows : after = second ++ rest)
    (two : Repeats item (first.getLast?.or last) second rest) : Repeats item last (first ++ second) rest := by
  induction one with
  | none => exact two
  | @more last first others _ nonempty one _ ih =>
    subst follows
    have moved : ((first ++ others).getLast?.or last) = others.getLast?.or (first.getLast?.or last) := by
      rw [List.getLast?_append]
      cases others.getLast? <;> rfl
    rw [moved] at two
    rw [List.append_assoc]
    exact .more nonempty (by rwa [List.append_assoc]) (ih rfl two)

end Repeats

/-! ### What is read belongs to the pattern -/

private theorem holds_congr (condition : Anchor) (reading : Reading) :
    condition.holds reading = condition.holds ⟨0, reading.last, reading.rest, []⟩ := by
  cases condition <;> rfl

private theorem took_char {reading : Reading} {c : Char} {rest : List Char} (starts : reading.rest = c :: rest) :
    reading.Took [c] { reading with offset := reading.offset + c.utf8Size, last := some c, rest := rest } :=
  ⟨starts, rfl, rfl⟩

/-- Steps that read what an item can read, one after another, read a repetition of the item. -/
private theorem repeats_of_steps {item : Option Char → List Char → List Char → Prop} (step : Reading → List Reading)
    (steps : ∀ reading next, next ∈ step reading → ∃ text, reading.Took text next ∧ item reading.last text next.rest) :
    (∀ {a b : Reading}, b = a → ∃ text, a.Took text b ∧ Repeats item a.last text b.rest) ∧
    (∀ {a b c : Reading}, (∃ text, a.Took text b ∧ Repeats item a.last text b.rest) →
      (∃ text, b.Took text c ∧ Repeats item b.last text c.rest) →
      ∃ text, a.Took text c ∧ Repeats item a.last text c.rest) ∧
    ∀ reading next, next ∈ step reading →
      ∃ text, reading.Took text next ∧ Repeats item reading.last text next.rest := by
  refine ⟨?_, ?_, ?_⟩
  · intro a b same
    subst same
    exact ⟨[], .refl _, .none⟩
  · rintro a b c ⟨first, one, repeatsOne⟩ ⟨second, two, repeatsTwo⟩
    exact ⟨first ++ second, one.trans two, repeatsOne.append two.split (one.last ▸ repeatsTwo)⟩
  · intro reading next member
    obtain ⟨text, took, reads⟩ := steps reading next member
    exact ⟨text, took, .single reads⟩

theorem exists_reads_of_mem_outcomes {pattern : Pattern} {reading next : Reading}
    (member : next ∈ pattern.outcomes reading) :
    ∃ text, reading.Took text next ∧ pattern.Reads reading.last text next.rest := by
  induction pattern generalizing reading next with
  | nothing =>
    obtain rfl := List.mem_singleton.mp member
    exact ⟨[], .refl _, rfl⟩
  | char test =>
    obtain ⟨c, rest, starts, accepted, rfl⟩ := mem_outcomes_char member
    exact ⟨[c], took_char starts, c, rfl, accepted⟩
  | seq first second inFirst inSecond =>
    obtain ⟨middle, memberFirst, memberSecond⟩ := List.mem_flatMap.mp member
    obtain ⟨one, tookOne, readsOne⟩ := inFirst memberFirst
    obtain ⟨two, tookTwo, readsTwo⟩ := inSecond memberSecond
    exact ⟨one ++ two, tookOne.trans tookTwo, one, two, rfl, tookTwo.split ▸ readsOne, tookOne.last ▸ readsTwo⟩
  | either left right inLeft inRight =>
    rcases List.mem_append.mp member with member | member
    · obtain ⟨text, took, reads⟩ := inLeft member
      exact ⟨text, took, .inl reads⟩
    · obtain ⟨text, took, reads⟩ := inRight member
      exact ⟨text, took, .inr reads⟩
  | many item inItem =>
    obtain ⟨ofEq, trans, steps⟩ := repeats_of_steps item.outcomes fun _ _ => inItem
    exact (related_of_mem_repeated _ ofEq trans steps _ _ _ member).resolve_right List.not_mem_nil
  | manyReluctant item inItem =>
    obtain ⟨ofEq, trans, steps⟩ := repeats_of_steps item.outcomes fun _ _ => inItem
    exact (related_of_mem_repeatedReluctantly _ ofEq trans steps _ _ _ member).resolve_right List.not_mem_nil
  | capture label inner inInner =>
    obtain ⟨middle, memberInner, rfl⟩ := List.mem_map.mp member
    obtain ⟨text, took, reads⟩ := inInner memberInner
    exact ⟨text, ⟨took.split, took.last, took.offset⟩, reads⟩
  | anchor condition =>
    rw [outcomes] at member
    split at member
    case isTrue holds =>
      obtain rfl := List.mem_singleton.mp member
      exact ⟨[], .refl _, rfl, holds_congr condition _ ▸ holds⟩
    case isFalse => cases member

/-! ### What belongs to the pattern is read -/

private theorem mem_foldr_of_mem {α β : Type} {extend : α → List β → List β}
    (keeps : ∀ a others x, x ∈ others → x ∈ extend a others) {items : List α} {others : List β} {x : β}
    (member : x ∈ others ∨ ∃ a ∈ items, ∀ others, x ∈ extend a others) : x ∈ items.foldr extend others := by
  induction items with
  | nil => exact member.resolve_right fun ⟨_, absent, _⟩ => absurd absent List.not_mem_nil
  | cons first rest ih =>
    rcases member with member | ⟨a, member, found⟩
    · exact keeps first _ x (ih (.inl member))
    · rcases List.mem_cons.mp member with rfl | member
      · exact found _
      · exact keeps first _ x (ih (.inr ⟨a, member, found⟩))

private theorem mem_repeated_of_mem (step : Reading → List Reading) (bound : Nat) (reading : Reading)
    (others : List Reading) (x : Reading) (member : x ∈ others) : x ∈ repeated step bound reading others := by
  induction bound generalizing reading others x with
  | zero => exact List.mem_cons_of_mem _ member
  | succ bound ih => exact mem_foldr_of_mem ih (.inl (List.mem_cons_of_mem _ member))

private theorem mem_repeatedReluctantly_of_mem (step : Reading → List Reading) (bound : Nat) (reading : Reading)
    (others : List Reading) (x : Reading) (member : x ∈ others) :
    x ∈ repeatedReluctantly step bound reading others := by
  induction bound generalizing reading others x with
  | zero => exact List.mem_cons_of_mem _ member
  | succ bound ih => exact List.mem_cons_of_mem _ (mem_foldr_of_mem ih (.inl member))

/-- A way to repeat steps that may stop at any point, and may go on with any step that reads something, reads every
repetition of an item whose texts the steps can read. -/
private theorem exists_mem_of_repeats {item : Option Char → List Char → List Char → Prop}
    (step : Reading → List Reading) (repeating : Nat → Reading → List Reading → List Reading)
    (stops : ∀ bound reading others, reading ∈ repeating bound reading others)
    (goesOn : ∀ {bound reading middle next}, middle ∈ step reading → reading.offset < middle.offset →
      (∀ others, next ∈ repeating bound middle others) → ∀ others, next ∈ repeating (bound + 1) reading others)
    (steps : ∀ {reading text rest}, reading.rest = text ++ rest → item reading.last text rest →
      ∃ next ∈ step reading, reading.Took text next ∧ next.rest = rest)
    {last : Option Char} {text rest : List Char} (repeats : Repeats item last text rest) {reading : Reading}
    (bound : Nat) (enough : text.length ≤ bound) (starts : reading.rest = text ++ rest) (after : reading.last = last) :
    ∃ next, (∀ others, next ∈ repeating bound reading others) ∧ reading.Took text next ∧ next.rest = rest := by
  induction repeats generalizing reading bound with
  | none => exact ⟨reading, stops bound reading, .refl reading, starts⟩
  | @more last first others rest nonempty one _ ih =>
    subst after
    rw [List.append_assoc] at starts
    obtain ⟨middle, member, took, middleRest⟩ := steps starts one
    have advances := took.offset_lt_iff.mpr nonempty
    have short : others.length + 1 ≤ bound := by
      have := List.length_pos_iff.mpr nonempty
      rw [List.length_append] at enough
      omega
    obtain ⟨bound, rfl⟩ : ∃ n, bound = n + 1 := Nat.exists_eq_add_one.mpr (by omega)
    obtain ⟨next, found, tookMore, nextRest⟩ := ih bound (Nat.le_of_succ_le_succ short) middleRest took.last
    exact ⟨next, goesOn member advances found, took.trans tookMore, nextRest⟩

theorem exists_mem_outcomes_of_reads {pattern : Pattern} {reading : Reading} {text rest : List Char}
    (starts : reading.rest = text ++ rest) (reads : pattern.Reads reading.last text rest) :
    ∃ next ∈ pattern.outcomes reading, reading.Took text next ∧ next.rest = rest := by
  induction pattern generalizing reading text rest with
  | nothing =>
    obtain rfl : text = [] := reads
    exact ⟨reading, List.mem_singleton_self _, .refl _, starts⟩
  | char test =>
    obtain ⟨c, rfl, accepted⟩ := reads
    refine ⟨_, ?_, took_char starts, rfl⟩
    rw [outcomes, starts]
    simp [accepted]
  | seq first second inFirst inSecond =>
    obtain ⟨one, two, rfl, readsOne, readsTwo⟩ := reads
    rw [List.append_assoc] at starts
    obtain ⟨middle, memberFirst, tookOne, middleRest⟩ := inFirst starts readsOne
    obtain ⟨next, memberSecond, tookTwo, nextRest⟩ := inSecond middleRest (tookOne.last ▸ readsTwo)
    exact ⟨next, List.mem_flatMap.mpr ⟨middle, memberFirst, memberSecond⟩, tookOne.trans tookTwo, nextRest⟩
  | either left right inLeft inRight =>
    rcases reads with reads | reads
    · obtain ⟨next, member, ends⟩ := inLeft starts reads
      exact ⟨next, List.mem_append_left _ member, ends⟩
    · obtain ⟨next, member, ends⟩ := inRight starts reads
      exact ⟨next, List.mem_append_right _ member, ends⟩
  | many item inItem =>
    obtain ⟨next, found, ends⟩ := exists_mem_of_repeats item.outcomes (repeated item.outcomes)
      (fun bound reading others => by
        cases bound with
        | zero => exact List.mem_cons_self
        | succ bound => exact mem_foldr_of_mem (mem_repeated_of_mem _ _) (.inl List.mem_cons_self))
      (fun member advances found others => mem_foldr_of_mem (mem_repeated_of_mem _ _)
        (.inr ⟨_, List.mem_filter.mpr ⟨member, decide_eq_true advances⟩, found⟩))
      inItem reads reading.rest.length (by simp [starts]) starts rfl
    exact ⟨next, found [], ends⟩
  | manyReluctant item inItem =>
    obtain ⟨next, found, ends⟩ := exists_mem_of_repeats item.outcomes (repeatedReluctantly item.outcomes)
      (fun bound reading others => by cases bound <;> exact List.mem_cons_self)
      (fun member advances found others => List.mem_cons_of_mem _ (mem_foldr_of_mem
        (mem_repeatedReluctantly_of_mem _ _)
        (.inr ⟨_, List.mem_filter.mpr ⟨member, decide_eq_true advances⟩, found⟩)))
      inItem reads reading.rest.length (by simp [starts]) starts rfl
    exact ⟨next, found [], ends⟩
  | capture label inner inInner =>
    obtain ⟨next, member, took, nextRest⟩ := inInner starts reads
    exact ⟨_, List.mem_map_of_mem member, ⟨took.split, took.last, took.offset⟩, nextRest⟩
  | anchor condition =>
    obtain ⟨rfl, holds⟩ := reads
    refine ⟨reading, ?_, .refl _, starts⟩
    obtain rfl : reading.rest = rest := starts
    rw [outcomes, holds_congr, if_pos holds]
    exact List.mem_singleton_self _

/-! ### Searching -/

theorem first?_isSome_iff {pattern : Pattern} {reading : Reading} :
    (pattern.first? reading).isSome ↔
      ∃ text rest, reading.rest = text ++ rest ∧ pattern.Reads reading.last text rest := by
  rw [first?, List.isSome_head?]
  constructor
  · intro nonempty
    obtain ⟨next, member⟩ := List.exists_mem_of_ne_nil _ nonempty
    obtain ⟨text, took, reads⟩ := exists_reads_of_mem_outcomes member
    exact ⟨text, next.rest, took.split, reads⟩
  · rintro ⟨text, rest, starts, reads⟩
    obtain ⟨next, member, -⟩ := exists_mem_outcomes_of_reads starts reads
    exact List.ne_nil_of_mem member

/-- A text begins with a pattern if it begins with something that the pattern can read. -/
theorem opens_iff {pattern : Pattern} {text : List Char} :
    pattern.opens text ↔ ∃ read rest, text = read ++ rest ∧ pattern.Reads none read rest :=
  first?_isSome_iff

private theorem isSome_findFrom?_iff {pattern : Pattern} {offset : Nat} {last : Option Char} {text : List Char} :
    (findFrom? pattern offset last text).isSome ↔
      ∃ before read rest, text = before ++ (read ++ rest) ∧ pattern.Reads (before.getLast?.or last) read rest := by
  induction text generalizing offset last with
  | nil =>
    rw [findFrom?, Option.isSome_map, first?_isSome_iff]
    constructor
    · rintro ⟨read, rest, starts, reads⟩
      exact ⟨[], read, rest, starts, reads⟩
    · rintro ⟨before, read, rest, split, reads⟩
      obtain ⟨rfl, empty⟩ := List.append_eq_nil_iff.mp split.symm
      exact ⟨read, rest, empty.symm, reads⟩
  | cons c text ih =>
    have here : (findFrom? pattern offset last (c :: text)).isSome ↔
        (pattern.first? ⟨offset, last, c :: text, []⟩).isSome ∨
          (findFrom? pattern (offset + c.utf8Size) (some c) text).isSome := by
      rw [findFrom?]
      cases pattern.first? ⟨offset, last, c :: text, []⟩ <;> simp
    have moved (before : List Char) : (c :: before).getLast?.or last = before.getLast?.or (some c) := by
      rw [List.getLast?_cons]
      cases before.getLast? <;> rfl
    rw [here, first?_isSome_iff, ih]
    constructor
    · rintro (⟨read, rest, starts, reads⟩ | ⟨before, read, rest, rfl, reads⟩)
      · exact ⟨[], read, rest, starts, reads⟩
      · exact ⟨c :: before, read, rest, rfl, moved before ▸ reads⟩
    · rintro ⟨before, read, rest, split, reads⟩
      cases before with
      | nil => exact .inl ⟨read, rest, split, reads⟩
      | cons d before =>
        obtain ⟨rfl, rfl⟩ := List.cons.inj split
        exact .inr ⟨before, read, rest, rfl, moved before ▸ reads⟩

/-- A pattern occurs in a text if it can read some piece of it where that piece stands. -/
theorem occurs_iff {pattern : Pattern} {text : List Char} :
    pattern.occurs text ↔
      ∃ before read rest, text = before ++ (read ++ rest) ∧ pattern.Reads before.getLast? read rest := by
  rw [occurs, find?, isSome_findFrom?_iff]
  simp only [Option.or_none]

/-! ### Pieces of patterns -/

section
variable {last : Option Char} {text rest : List Char} {test : Char → Bool}

@[simp] theorem reads_char : (char test).Reads last text rest ↔ ∃ c, text = [c] ∧ test c := Iff.rfl

@[simp] theorem reads_among {set : String} :
    (among set).Reads last text rest ↔ ∃ c, text = [c] ∧ c ∈ set.toList := by
  simp [among]

@[simp] theorem reads_textEnd : textEnd.Reads last text rest ↔ text = [] ∧ rest = [] :=
  and_congr_right fun _ => List.isEmpty_iff

@[simp] theorem reads_wordEdge :
    wordEdge.Reads last text rest ↔ text = [] ∧ last.any isWordChar ≠ rest.head?.any isWordChar :=
  and_congr_right fun _ => bne_iff_ne

@[simp] theorem reads_lit {word : String} : (lit word).Reads last text rest ↔ text = word.toList := by
  unfold lit
  generalize word.toList = chars
  induction chars generalizing last text with
  | nil => exact Iff.rfl
  | cons c chars ih =>
    show (∃ one two, text = one ++ two ∧ (∃ d, one = [d] ∧ (d == c) = true) ∧ _) ↔ _
    constructor
    · rintro ⟨_, two, rfl, ⟨d, rfl, same⟩, reads⟩
      rw [eq_of_beq same, ih.mp reads, List.singleton_append]
    · rintro rfl
      exact ⟨[c], chars, rfl, ⟨c, rfl, beq_self_eq_true c⟩, ih.mpr rfl⟩

@[simp] theorem reads_oneOf {words : List String} :
    (oneOf words).Reads last text rest ↔ ∃ word ∈ words, text = word.toList := by
  induction words with
  | nil =>
    show (∃ c, text = [c] ∧ false = true) ↔ _
    simp
  | cons word others ih =>
    cases others with
    | nil =>
      show (lit word).Reads last text rest ↔ _
      simp
    | cons other others =>
      have split : (∃ known ∈ word :: other :: others, text = known.toList) ↔
          text = word.toList ∨ ∃ known ∈ other :: others, text = known.toList := by
        simp only [List.mem_cons, exists_eq_or_imp]
      rw [split, ← ih]
      exact or_congr_left reads_lit

private theorem repeats_char_iff : Repeats (char test).Reads last text rest ↔ ∀ c ∈ text, test c := by
  constructor
  · intro repeats
    induction repeats with
    | none => exact fun c member => absurd member List.not_mem_nil
    | more _ one _ ih =>
      obtain ⟨c, rfl, accepted⟩ := one
      exact List.forall_mem_cons.mpr ⟨accepted, ih⟩
  · intro accepted
    induction text generalizing last with
    | nil => exact .none
    | cons c text ih =>
      obtain ⟨first, others⟩ := List.forall_mem_cons.mp accepted
      exact .more (List.cons_ne_nil c []) ⟨c, rfl, first⟩ (ih others)

@[simp] theorem reads_many_char : (many (char test)).Reads last text rest ↔ ∀ c ∈ text, test c :=
  repeats_char_iff

@[simp] theorem reads_manyReluctant_char : (manyReluctant (char test)).Reads last text rest ↔ ∀ c ∈ text, test c :=
  repeats_char_iff

@[simp] theorem reads_manyReluctant_except {set : String} :
    (manyReluctant (except set)).Reads last text rest ↔ ∀ c ∈ text, c ∉ set.toList := by
  simp [except]

@[simp] theorem reads_blanks : blanks.Reads last text rest ↔ ∀ c ∈ text, isBlank c := reads_many_char

end

end Pattern
end DeadCode.Text
