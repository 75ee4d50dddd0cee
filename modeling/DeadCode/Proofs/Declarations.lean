import DeadCode.Source.Declaration
import DeadCode.Proofs.Matching
import DeadCode.Proofs.QuietText

/-!
Where a declaration has its name. A form with a name is read as the lead of the line, quiet text and then the
name, so the name stands in the line at the position that is reported for it.
-/
namespace DeadCode.Source
open DeadCode.Text DeadCode.Text.Pattern

/-! ### Quiet classes of characters -/

theorem isQuiet_of {c : Char} (accepts : Char → Bool)
    (others : ['/', '*', '\'', '"', '\\', '{', '}'].all (!accepts ·)) (accepted : accepts c) : isQuiet c := by
  by_contra loud
  have member : c ∈ ['/', '*', '\'', '"', '\\', '{', '}'] := by
    simpa only [isQuiet, Bool.not_eq_true', Bool.not_eq_false, List.contains_iff_mem] using loud
  have refused := List.all_eq_true.mp others c member
  rw [accepted] at refused
  cases refused

theorem isQuiet_of_isBlank {c : Char} (blank : isBlank c) : isQuiet c := isQuiet_of isBlank (by decide) blank

theorem isQuiet_of_isNameStart {c : Char} (starts : isNameStart c) : isQuiet c :=
  isQuiet_of isNameStart (by decide) starts

theorem isQuiet_of_isName {word : List Char} (isName : IsName word) : ∀ c ∈ word, isQuiet c := by
  obtain ⟨c, others, rfl, starts, accepted⟩ := isName
  refine List.forall_mem_cons.mpr ⟨isQuiet_of_isNameStart starts, fun d member => ?_⟩
  exact isQuiet_of (fun d => isWordChar d || d == '$') (by decide) (accepted d member)

abbrev ReadsQuiet (pattern : Pattern) : Prop := pattern.ReadsOnly (isQuiet ·)

private theorem readsQuiet_lit {text : String} (quiet : text.toList.all isQuiet) : ReadsQuiet (lit text) := by
  unfold lit
  generalize text.toList = chars at quiet
  induction chars with
  | nil => trivial
  | cons c rest ih =>
    obtain ⟨first, others⟩ := Bool.and_eq_true_iff.mp quiet
    exact ⟨fun d same => eq_of_beq same ▸ first, ih others⟩

private theorem readsQuiet_oneOf {words : List String} (quiet : words.all (·.toList.all isQuiet)) :
    ReadsQuiet (oneOf words) := by
  fun_induction oneOf words with
  | case1 => exact fun c never => nomatch never
  | case2 word => exact readsQuiet_lit (Bool.and_eq_true_iff.mp quiet).1
  | case3 word others _ ih =>
    obtain ⟨first, others⟩ := Bool.and_eq_true_iff.mp quiet
    exact ⟨readsQuiet_lit first, ih others⟩

private theorem readsQuiet_gap : ReadsQuiet gap :=
  ⟨fun _ => isQuiet_of_isBlank, fun _ => isQuiet_of_isBlank⟩

private theorem readsQuiet_modifiers {words : List String} (quiet : words.all (·.toList.all isQuiet)) :
    ReadsQuiet (Form.modifiers words) :=
  ⟨readsQuiet_oneOf quiet, readsQuiet_gap⟩

/-! ### The text before the name -/

inductive IsLead : List Char → Prop
  | indent {margin : List Char} (blank : ∀ c ∈ margin, isBlank c) : IsLead margin
  | marker {margin inner : List Char} {fill : Char} {count : Nat} (blank : ∀ c ∈ margin, isBlank c)
      (filler : fill = '/' ∨ fill = '*') (innerBlank : ∀ c ∈ inner, isBlank c) :
      IsLead (margin ++ ('/' :: List.replicate (count + 1) fill ++ inner))

/-- From one reading to a later one, the lead of a line and quiet text were read. -/
def Heads (reading next : Reading) : Prop :=
  ∃ lead head, IsLead lead ∧ (∀ c ∈ head, isQuiet c) ∧ reading.rest = lead ++ (head ++ next.rest) ∧
    next.offset = reading.offset + byteLength (lead ++ head)

/-- From one reading to a later one, the lead of a line, quiet text and the name were read, and more. -/
def Names (reading next : Reading) : Prop :=
  ∃ lead head word rest capture, IsLead lead ∧ (∀ c ∈ head, isQuiet c) ∧ IsName word ∧
    reading.rest = lead ++ (head ++ (word ++ rest)) ∧ next.capture? "name" = some capture ∧
    capture.start = reading.offset + byteLength (lead ++ head) ∧ capture.text = word

private theorem exists_fill_of_mem_outcomes {fill : Char} {set : String} {reading next : Reading}
    (only : set.toList = [fill]) (member : next ∈ (several (among set)).outcomes reading) :
    ∃ count, reading.rest = List.replicate (count + 1) fill ++ next.rest ∧
      next.offset = reading.offset + byteLength (List.replicate (count + 1) fill) := by
  have one : ∀ c, set.toList.contains c → c = fill := by simp [only]
  have others : (many (among set)).ReadsOnly (· = fill) := one
  obtain ⟨middle, first, later⟩ := List.mem_flatMap.mp member
  obtain ⟨c, rest, head, accepted, rfl⟩ := mem_outcomes_char first
  obtain ⟨text, split, offset, same⟩ := advances_of_mem_outcomes others later
  obtain rfl := one c accepted
  rw [List.eq_replicate_iff.mpr ⟨rfl, same⟩] at split offset
  refine ⟨text.length, ?_, ?_⟩
  · rw [head, List.replicate_succ, List.cons_append]
    exact congrArg (_ :: ·) split
  · rw [offset, List.replicate_succ, byteLength_cons, Nat.add_assoc]

private theorem exists_blanks_of_mem_outcomes {reading next : Reading} (member : next ∈ blanks.outcomes reading) :
    ∃ margin, (∀ c ∈ margin, isBlank c) ∧ reading.rest = margin ++ next.rest ∧
      next.offset = reading.offset + byteLength margin := by
  have only : blanks.ReadsOnly (isBlank ·) := fun _ blank => blank
  obtain ⟨margin, split, offset, blank⟩ := advances_of_mem_outcomes only member
  exact ⟨margin, blank, split, offset⟩

private theorem exists_marker_of_mem_outcomes {reading next : Reading}
    (member : next ∈ (lit "/" ++ (several (among "/") <|> several (among "*"))).outcomes reading) :
    ∃ fill count, (fill = '/' ∨ fill = '*') ∧
      reading.rest = '/' :: List.replicate (count + 1) fill ++ next.rest ∧
      next.offset = reading.offset + byteLength ('/' :: List.replicate (count + 1) fill) := by
  obtain ⟨middle, inSlash, inFill⟩ := List.mem_flatMap.mp member
  obtain ⟨_, first, same⟩ := List.mem_flatMap.mp inSlash
  obtain rfl := List.mem_singleton.mp same
  obtain ⟨c, others, head, slash, rfl⟩ := mem_outcomes_char first
  obtain rfl : c = '/' := eq_of_beq slash
  have filled : ∃ fill count, (fill = '/' ∨ fill = '*') ∧ others = List.replicate (count + 1) fill ++ next.rest ∧
      next.offset = reading.offset + '/'.utf8Size + byteLength (List.replicate (count + 1) fill) := by
    rcases List.mem_append.mp inFill with slashes | stars
    · obtain ⟨count, filled⟩ := exists_fill_of_mem_outcomes rfl slashes
      exact ⟨'/', count, .inl rfl, filled⟩
    · obtain ⟨count, filled⟩ := exists_fill_of_mem_outcomes rfl stars
      exact ⟨'*', count, .inr rfl, filled⟩
  obtain ⟨fill, count, filler, split, offset⟩ := filled
  refine ⟨fill, count, filler, by rw [head, split]; rfl, ?_⟩
  rw [offset, byteLength_cons, Nat.add_assoc]

theorem heads_of_mem_lead {reading next : Reading} (member : next ∈ Form.lead.outcomes reading) :
    Heads reading next := by
  obtain ⟨second, inMargin, inMarker⟩ := List.mem_flatMap.mp member
  obtain ⟨margin, blank, split, offset⟩ := exists_blanks_of_mem_outcomes inMargin
  rcases List.mem_append.mp inMarker with inMarker | same
  · obtain ⟨third, inMarker, inInner⟩ := List.mem_flatMap.mp inMarker
    obtain ⟨fill, count, filler, split', offset'⟩ := exists_marker_of_mem_outcomes inMarker
    obtain ⟨inner, innerBlank, split'', offset''⟩ := exists_blanks_of_mem_outcomes inInner
    refine ⟨margin ++ ('/' :: List.replicate (count + 1) fill ++ inner), [], .marker blank filler innerBlank, nofun,
      ?_, ?_⟩
    · rw [split, split', split'']
      simp
    · rw [offset'', offset', offset]
      simp only [List.append_nil, byteLength_append, Nat.add_assoc]
  · obtain rfl := List.mem_singleton.mp same
    exact ⟨margin, [], .indent blank, nofun, split, by rw [offset, List.append_nil]⟩

/-! ### Forms -/

/-- All readings of the pattern are a lead and quiet text. -/
def Heading (pattern : Pattern) : Prop := ∀ reading next, next ∈ pattern.outcomes reading → Heads reading next

/-- All readings of the pattern begin with a lead, quiet text and the name. -/
def Naming (pattern : Pattern) : Prop := ∀ reading next, next ∈ pattern.outcomes reading → Names reading next

private theorem heading_lead : Heading Form.lead := fun _ _ => heads_of_mem_lead

private theorem Heading.append {first second : Pattern} (heading : Heading first) (quiet : ReadsQuiet second) :
    Heading (first ++ second) := by
  intro reading next member
  obtain ⟨middle, inFirst, inSecond⟩ := List.mem_flatMap.mp member
  obtain ⟨lead, head, isLead, quietHead, split, offset⟩ := heading reading middle inFirst
  obtain ⟨text, split', offset', quietText⟩ := advances_of_mem_outcomes quiet inSecond
  refine ⟨lead, head ++ text, isLead, ?_, ?_, ?_⟩
  · exact fun c member => (List.mem_append.mp member).elim (quietHead c) (quietText c)
  · rw [split, split', List.append_assoc]
  · rw [offset', offset, ← List.append_assoc, byteLength_append (lead ++ head), Nat.add_assoc]

private theorem Heading.name {first : Pattern} (heading : Heading first) : Naming (first ++ Form.declared) := by
  intro reading next member
  obtain ⟨middle, inFirst, inName⟩ := List.mem_flatMap.mp member
  obtain ⟨lead, head, isLead, quiet, split, offset⟩ := heading reading middle inFirst
  obtain ⟨word, found, split', isName, captured, start, text⟩ := exists_isName_of_mem_capture inName
  exact ⟨lead, head, word, next.rest, found, isLead, quiet, isName, by rw [split, split'], captured,
    start.trans offset, text⟩

private theorem Naming.append {first second : Pattern} (naming : Naming first)
    (free : second.captures "name" = false) : Naming (first ++ second) := by
  intro reading next member
  obtain ⟨middle, inFirst, inSecond⟩ := List.mem_flatMap.mp member
  obtain ⟨lead, head, word, rest, capture, isLead, quiet, isName, split, captured, start, text⟩ :=
    naming reading middle inFirst
  exact ⟨lead, head, word, rest, capture, isLead, quiet, isName, split,
    (capture?_of_mem_outcomes free inSecond).trans captured, start, text⟩

private theorem Heading.word {first : Pattern} (heading : Heading first) {text : String}
    (quiet : text.toList.all isQuiet) : Heading (first ++ lit text ++ gap) :=
  (heading.append (readsQuiet_lit quiet)).append readsQuiet_gap

private theorem Form.naming_pattern {form : Form} (named : form ≠ .anonymousExtension) : Naming form.pattern := by
  cases form with
  | mixinClass =>
    have modified : ReadsQuiet (modifiers ["abstract", "base", "final", "interface", "sealed"]) :=
      readsQuiet_modifiers (by decide)
    exact (((heading_lead.append modified).word (by decide)).word (by decide)).name
  | plainClass =>
    have modified : ReadsQuiet (capture "modifiers" (modifiers ["abstract", "sealed", "base", "final", "interface",
        "macro", "augment"])) := readsQuiet_modifiers (by decide)
    exact ((((heading_lead.append modified).word (by decide)).name.append rfl).append rfl)
  | enumeration => exact (heading_lead.word (by decide)).name
  | mixin =>
    have base : ReadsQuiet (optional (lit "base" ++ gap)) :=
      ⟨⟨readsQuiet_lit (by decide), readsQuiet_gap⟩, trivial⟩
    exact ((heading_lead.append base).word (by decide)).name
  | extensionType =>
    have const : ReadsQuiet (optional (lit "const" ++ gap)) :=
      ⟨⟨readsQuiet_lit (by decide), readsQuiet_gap⟩, trivial⟩
    exact (((heading_lead.word (by decide)).word (by decide)).append const).name
  | namedExtension =>
    exact (((((heading_lead.word (by decide)).name.append rfl).append rfl).append rfl).append rfl)
  | anonymousExtension => exact absurd rfl named
  | typeAlias =>
    have returned : ReadsQuiet (optional (several (char fun c => isWordChar c || isBlank c ||
        "$<>?,".toList.contains c) ++ gap)) := by
      have quiet : ∀ c, (isWordChar c || isBlank c || "$<>?,".toList.contains c) → isQuiet c :=
        fun c => isQuiet_of (fun c => isWordChar c || isBlank c || "$<>?,".toList.contains c) (by decide)
      exact ⟨⟨⟨quiet, quiet⟩, readsQuiet_gap⟩, trivial⟩
    exact ((((heading_lead.word (by decide)).append returned).name.append rfl).append rfl).append rfl

/-! ### Declarations -/

/-- The name of the declaration stands in the line at its position, after a lead and quiet text. -/
def Declaration.NamedIn (decl : Declaration) (line : List Char) : Prop :=
  ∃ lead head rest, IsLead lead ∧ (∀ c ∈ head, isQuiet c) ∧ IsName decl.name.toList ∧
    line = lead ++ (head ++ (decl.name.toList ++ rest)) ∧ decl.offset = byteLength (lead ++ head)

theorem namedIn_of_declaration? {widgets : List String} {line : List Char} {decl : Declaration}
    (found : declaration? widgets line = some decl) (named : decl.name.toList.head? ≠ some '<') :
    decl.NamedIn line := by
  rw [declaration?] at found
  obtain ⟨⟨form, reading⟩, first, found⟩ := Option.bind_eq_some_iff.mp found
  obtain ⟨tried, -, read⟩ := List.exists_of_findSome?_eq_some first
  obtain ⟨next, outcome, same⟩ := Option.map_eq_some_iff.mp read
  obtain ⟨rfl, rfl⟩ := Prod.mk.inj same
  have found : tried.declaration? widgets line next = some decl := found
  rw [Form.declaration?] at found
  obtain ⟨capture, captured, found⟩ := Option.bind_eq_some_iff.mp found
  split at found
  · cases found
    exact absurd (by simp [String.toList_append]) named
  case isFalse hasName =>
    dsimp only at found
    split at found
    · cases found
    · have member : next ∈ tried.pattern.outcomes (.start line) := List.mem_of_head? outcome
      obtain ⟨lead, head, word, rest, other, isLead, quiet, isName, split, recorded, start, text⟩ :=
        Form.naming_pattern hasName _ _ member
      obtain rfl : other = capture := Option.some.inj (recorded.symm.trans captured)
      cases found
      refine ⟨lead, head, rest, isLead, quiet, ?_, ?_, ?_⟩
      · rwa [String.toList_ofList, text]
      · rw [String.toList_ofList, text]
        exact split
      · rw [start]
        exact Nat.zero_add _

end DeadCode.Source
