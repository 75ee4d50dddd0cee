import DeadCode.Proofs.LinkText
import DeadCode.Proofs.Preferred

/-!
A statement that is a layout of a link is read back as that link. The pattern of a link takes the statement
apart, the conditional addresses are the places where their own pattern is found, and the words that are left
are the clauses.
-/
namespace DeadCode

def FileDirectives.adding (directives : FileDirectives) (link : UriDirective) : FileDirectives :=
  if link.isExport then { directives with exports := directives.exports ++ [link] }
  else { directives with imports := directives.imports ++ [link] }

end DeadCode

namespace DeadCode.Text

/-! ### Fields -/

section
variable {separates : Char → Bool} {rest : List Char}

private theorem splitAt_append {word first : List Char} {others : List (List Char)}
    (kept : ∀ c ∈ word, separates c = false) (split : splitAt separates rest = first :: others) :
    splitAt separates (word ++ rest) = (word ++ first) :: others := by
  induction word with
  | nil => exact split
  | cons c word ih =>
    obtain ⟨here, later⟩ := List.forall_mem_cons.mp kept
    rw [List.cons_append, splitAt, if_neg (by simp [here]), ih later]
    rfl

theorem fields_gap {gap : List Char} (separated : ∀ c ∈ gap, separates c) :
    fields separates (gap ++ rest) = fields separates rest := by
  induction gap with
  | nil => rfl
  | cons c gap ih =>
    obtain ⟨here, later⟩ := List.forall_mem_cons.mp separated
    rw [← ih later, List.cons_append, fields, splitAt, if_pos here, List.filter_cons_of_neg (by simp), fields]

theorem fields_word {word : List Char} (nonempty : word ≠ []) (kept : ∀ c ∈ word, separates c = false)
    (ends : ∀ c ∈ rest.head?, separates c) : fields separates (word ++ rest) = word :: fields separates rest := by
  have first : ∃ others, splitAt separates rest = [] :: others := by
    cases rest with
    | nil => exact ⟨[], rfl⟩
    | cons c rest =>
      rw [splitAt, if_pos (ends c rfl)]
      exact ⟨_, rfl⟩
  obtain ⟨others, split⟩ := first
  rw [fields, splitAt_append kept split, List.append_nil, List.filter_cons_of_pos (by simp [nonempty]), fields,
    split, List.filter_cons_of_neg (by simp)]

end
end DeadCode.Text

namespace DeadCode.Directive
open DeadCode.Text DeadCode.Text.Pattern DeadCode.Source

/-! ### Classes of characters -/

theorem ne_of_accepts {test : Char → Bool} {c d : Char} (accepted : test c) (refused : test d = false) : c ≠ d := by
  rintro rfl
  rw [refused] at accepted
  cases accepted

theorem notMem_of_accepts {test : Char → Bool} {text : List Char} {d : Char} (accepted : ∀ c ∈ text, test c)
    (refused : test d = false) : d ∉ text :=
  fun member => ne_of_accepts (accepted d member) refused rfl

theorem Word.isWordPart_of_mem (word : Word) : ∀ c ∈ word.text, isWordPart c :=
  List.all_eq_true.mp word.parts

theorem Address.isAddressPart_of_mem (address : Address) : ∀ c ∈ address.text, isAddressPart c :=
  List.all_eq_true.mp address.parts

private def blankCodes : List Nat :=
  [0x9, 0xa, 0xb, 0xc, 0xd, 0x20, 0x85, 0xa0, 0x1680, 0x2000, 0x2001, 0x2002, 0x2003, 0x2004, 0x2005, 0x2006, 0x2007,
    0x2008, 0x2009, 0x200a, 0x2028, 0x2029, 0x202f, 0x205f, 0x3000]

private theorem toNat_mem_blankCodes {c : Char} (blank : isBlank c) : c.toNat ∈ blankCodes := by
  simp only [isBlank, Bool.or_eq_true, Bool.and_eq_true, decide_eq_true_eq, beq_iff_eq] at blank
  simp only [blankCodes, List.mem_cons, List.not_mem_nil, or_false]
  omega

/-- A blank is no part of a word. -/
theorem isWordPart_of_isBlank {c : Char} (blank : isBlank c) : isWordPart c = false := by
  have all : blankCodes.all (fun n => !isWordPart (.ofNat n)) = true := by decide +kernel
  have here := List.all_eq_true.mp all c.toNat (toNat_mem_blankCodes blank)
  rwa [Char.ofNat_toNat, Bool.not_eq_true'] at here

theorem isWordChar_of_isBlank {c : Char} (blank : isBlank c) : isWordChar c = false :=
  (Bool.or_eq_false_iff.mp (Bool.or_eq_false_iff.mp (isWordPart_of_isBlank blank)).1).1

/-! ### Addresses -/

private theorem contains_quote (quote : Quote) : "'\"".toList.contains quote.char := by
  cases quote <;> rfl

theorem Address.isUnquoted_of_mem (address : Address) : ∀ c ∈ address.text, (!"'\"".toList.contains c) = true := by
  intro c member
  have part := address.isAddressPart_of_mem c member
  simp only [isAddressPart, List.contains_cons, List.contains_nil, Bool.not_eq_true', Bool.or_eq_false_iff,
    beq_eq_false_iff_ne] at part
  simp [part.1, part.2.1]

theorem Address.written_append (address : Address) (rest : List Char) :
    address.written ++ rest = address.quote.char :: (address.text ++ address.quote.char :: rest) := by
  simp [written]

section
variable {reading : Reading} {rest : List Char}

def Address.after (address : Address) (reading : Reading) (rest : List Char) : Reading :=
  ((reading.past [address.quote.char] (address.text ++ address.quote.char :: rest)).capturing "uri" address.text
    (address.quote.char :: rest)).past [address.quote.char] rest

private theorem stops_at_quote (quote : Quote) :
    ∀ c ∈ (quote.char :: rest).head?, (!"'\"".toList.contains c) = false := by
  intro c head
  obtain rfl : quote.char = c := Option.some.inj head
  rw [contains_quote]
  rfl

theorem first?_quoted (address : Address) (starts : reading.rest = address.written ++ rest) :
    quoted.first? reading = some (address.after reading rest) := by
  rw [address.written_append] at starts
  refine first?_append (first?_append (first?_char (contains_quote _) starts) (first?_capture _ rfl ?_))
    (first?_char (contains_quote _) rfl)
  exact first?_several_char address.nonempty rfl address.isUnquoted_of_mem (stops_at_quote _)

/-! ### The pattern of a link -/

theorem first?_keyword (link : Link) (others : List String) (starts : reading.rest = link.keyword.word.text ++ rest) :
    (oneOf ("import" :: "export" :: others)).first? reading = some (reading.past link.keyword.word.text rest) := by
  rcases link.keyword_cases with ⟨-, same⟩ | ⟨-, same⟩ <;> rw [same] at starts ⊢
  · exact first?_oneOf_head _ (first?_lit "import" starts)
  · have other : (lit "import").first? reading = none := by
      refine first?_lit_none rfl fun d head => ?_
      rw [starts] at head
      obtain rfl : 'e' = d := Option.some.inj head
      decide
    rw [first?_oneOf_tail _ other]
    exact first?_oneOf_head _ (first?_lit "export" starts)

theorem head?_keyword (link : Link) : ∀ c ∈ (link.keyword.word.text ++ rest).head?, isBlank c = false := by
  intro c head
  rcases link.keyword_cases with ⟨-, same⟩ | ⟨-, same⟩ <;> rw [same] at head <;>
    obtain rfl := Option.some.inj head <;> rfl

private theorem head?_address (address : Address) : ∀ c ∈ (address.written ++ rest).head?, isBlank c = false := by
  intro c head
  rw [address.written_append] at head
  obtain rfl : address.quote.char = c := Option.some.inj head
  cases address.quote <;> rfl

/-- The pattern takes a statement apart into the keyword, the address and the clauses. -/
theorem exists_atStart?_linkPattern (link : Link) {gap clauses : List Char} (nonempty : gap ≠ [])
    (blank : ∀ c ∈ gap, isBlank c) (unended : ';' ∉ clauses) :
    ∃ reading, linkPattern.atStart? (link.keyword.word.text ++ (gap ++ (link.uri.written ++ (clauses ++ [';'])))) =
        some reading ∧ reading.captured "word" = link.keyword.word.text ∧
      reading.captured "uri" = link.uri.text ∧ reading.captured "clauses" = clauses := by
  have inClauses : ∀ c ∈ clauses, (!";".toList.contains c) = true := by
    intro c member
    have : c ≠ ';' := fun same => unended (same ▸ member)
    simp [this]
  have ends : ∀ c ∈ [';'].head?, (!";".toList.contains c) = false := by
    intro c head
    obtain rfl : ';' = c := Option.some.inj head
    rfl
  have margin :
      blanks.first? (.start (link.keyword.word.text ++ (gap ++ (link.uri.written ++ (clauses ++ [';']))))) = _ :=
    first?_many_char_none (head?_keyword link)
  have word := first?_append margin (first?_capture "word" rfl (first?_keyword link [] rfl))
  have spaced := first?_append word (first?_several_char nonempty rfl blank (head?_address link.uri))
  have address := first?_append spaced (first?_quoted link.uri rfl)
  have ended := first?_append address (first?_capture "clauses" rfl (first?_many_char rfl inClauses ends))
  refine ⟨_, first?_append ended (first?_lit ";" rfl), ?_⟩
  simp [Address.after, Reading.captured_capturing_of_ne]

end

/-! ### Conditional addresses -/

def conditionText (beforeOpening inside beforeAddress : List Char) (uri : Address) : List Char :=
  "if".toList ++ (beforeOpening ++ '(' :: (inside ++ ')' :: (beforeAddress ++ uri.written)))

section
variable {last : Option Char} {beforeOpening inside beforeAddress : List Char}

private theorem stops_at {rest : List Char} {c : Char} {test : Char → Bool} (refused : test c = false) :
    ∀ d ∈ (c :: rest).head?, test d = false := by
  intro d head
  obtain rfl : c = d := Option.some.inj head
  exact refused

theorem exists_first?_conditionPattern (uri : Address) (edge : last.any isWordChar = false)
    (blankOpening : ∀ c ∈ beforeOpening, isBlank c) (unclosed : ')' ∉ inside)
    (blankAddress : ∀ c ∈ beforeAddress, isBlank c) (offset : Nat) (rest : List Char) :
    ∃ next, conditionPattern.first? ⟨offset, last, conditionText beforeOpening inside beforeAddress uri ++ rest, []⟩ =
        some next ∧
      next.offset = offset + byteLength (conditionText beforeOpening inside beforeAddress uri) := by
  have text : conditionText beforeOpening inside beforeAddress uri ++ rest =
      "if".toList ++ (beforeOpening ++ '(' :: (inside ++ ')' :: (beforeAddress ++ (uri.written ++ rest)))) := by
    simp only [conditionText, List.append_assoc, List.cons_append]
  have within : ∀ c ∈ inside, (!")".toList.contains c) = true := by
    intro c member
    have : c ≠ ')' := fun same => unclosed (same ▸ member)
    simp [this]
  have begins : Anchor.wordEdge.holds
      ⟨offset, last, conditionText beforeOpening inside beforeAddress uri ++ rest, []⟩ := by
    rw [Anchor.holds, edge, text]
    rfl
  have word := first?_append (first?_anchor begins) (first?_lit "if" text)
  have gap := first?_append word (first?_many_char rfl blankOpening (stops_at rfl))
  have opening := first?_append gap (first?_lit "(" rfl)
  have closing :=
    first?_append (first?_append opening (first?_many_char rfl within (stops_at rfl))) (first?_lit ")" rfl)
  have space := first?_append closing (first?_many_char rfl blankAddress (head?_address uri))
  have quote := first?_append space (first?_char (contains_quote uri.quote) (uri.written_append rest))
  have body := first?_append quote (first?_many_char rfl uri.isUnquoted_of_mem (stops_at_quote uri.quote))
  refine ⟨_, first?_append body (first?_char (contains_quote uri.quote) rfl), ?_⟩
  simp [Reading.past, conditionText, Address.written, Nat.add_assoc]

end

private theorem conditionText_ne_nil (beforeOpening inside beforeAddress : List Char) (uri : Address) :
    conditionText beforeOpening inside beforeAddress uri ≠ [] :=
  List.append_ne_nil_of_left_ne_nil (by decide) _

private theorem edge_after_conditionText (beforeOpening inside beforeAddress : List Char) (uri : Address)
    (last : Option Char) :
    ((conditionText beforeOpening inside beforeAddress uri).getLast?.or last).any isWordChar = false := by
  have ends : conditionText beforeOpening inside beforeAddress uri = ("if".toList ++ (beforeOpening ++ '(' ::
      (inside ++ ')' :: (beforeAddress ++ uri.quote.char :: uri.text)))) ++ [uri.quote.char] := by
    simp [conditionText, Address.written]
  rw [ends, List.getLast?_concat]
  cases uri.quote <;> rfl

/-- The tokens of a condition are one place of its pattern, after white space. -/
private theorem exists_conditionText {condition : Condition} {pieces : List (List Char × Token)}
    (same : pieces.map (·.2) = condition.tokens) (blank : ∀ piece ∈ pieces, ∀ c ∈ piece.1, isBlank c) :
    ∃ gap beforeOpening inside beforeAddress,
      written pieces = gap ++ conditionText beforeOpening inside beforeAddress condition.uri ∧
      (∀ c ∈ gap, isBlank c) ∧ (∀ c ∈ beforeOpening, isBlank c) ∧ ')' ∉ inside ∧
      ∀ c ∈ beforeAddress, isBlank c := by
  obtain ⟨⟨gap, -⟩, _, rfl, rfl, afterWord⟩ := List.map_eq_cons_iff.mp same
  obtain ⟨⟨beforeOpening, -⟩, _, rfl, rfl, afterOpening⟩ := List.map_eq_cons_iff.mp afterWord
  obtain ⟨⟨beforeName, -⟩, _, rfl, rfl, afterName⟩ := List.map_eq_cons_iff.mp afterOpening
  obtain ⟨⟨beforeClosing, -⟩, _, rfl, rfl, afterClosing⟩ := List.map_eq_cons_iff.mp afterName
  obtain ⟨⟨beforeAddress, -⟩, _, rfl, rfl, afterAddress⟩ := List.map_eq_cons_iff.mp afterClosing
  obtain rfl := List.map_eq_nil_iff.mp afterAddress
  simp only [List.forall_mem_cons] at blank
  obtain ⟨blankFirst, blankOpening, blankName, blankClosing, blankAddress, -⟩ := blank
  refine ⟨gap, beforeOpening, beforeName ++ (condition.name.text ++ beforeClosing), beforeAddress, ?_, blankFirst,
    blankOpening, ?_, blankAddress⟩
  · simp [written, conditionText, Token.text, Keyword.word, Keyword.spelling]
  · rw [List.mem_append, List.mem_append, not_or, not_or]
    exact ⟨notMem_of_accepts blankName rfl, notMem_of_accepts condition.name.isWordPart_of_mem rfl,
      notMem_of_accepts blankClosing rfl⟩

private theorem requires_opening : conditionPattern.Requires (· = '(') := by
  have opening : (lit "(").Requires (· = '(') := .inl fun c same => eq_of_beq same
  exact .inl (.inl (.inl (.inl (.inl (.inl (.inr opening))))))

private theorem first?_conditionPattern_blank {c : Char} (blank : isBlank c) (offset : Nat) (last : Option Char)
    (after : List Char) : conditionPattern.first? ⟨offset, last, c :: after, []⟩ = none := by
  have word : (lit "if").first? ⟨offset, last, c :: after, []⟩ = none := by
    refine first?_lit_none rfl fun d head => ?_
    obtain rfl : c = d := Option.some.inj head
    exact ne_of_accepts blank rfl
  have begins : (wordEdge ++ lit "if").first? ⟨offset, last, c :: after, []⟩ = none := by
    rw [first?_eq_none_iff, List.eq_nil_iff_forall_not_mem]
    intro next member
    obtain ⟨middle, one, two⟩ := List.mem_flatMap.mp member
    rw [wordEdge, outcomes] at one
    split at one
    · rw [List.mem_singleton.mp one, first?_eq_none_iff.mp word] at two
      exact absurd two List.not_mem_nil
    · exact absurd one List.not_mem_nil
  unfold conditionPattern
  iterate 8 apply first?_append_none
  exact begins

private theorem edge_after_gap {gap : List Char} {last : Option Char} (blank : ∀ c ∈ gap, isBlank c)
    (edge : last.any isWordChar = false) : (gap.getLast?.or last).any isWordChar = false := by
  cases ends : gap.getLast? with
  | none => exact edge
  | some c => exact isWordChar_of_isBlank (blank c (List.mem_of_getLast? ends))

/-- Around a place that is found after a text where there is none, the text before it is kept. -/
private theorem outside_place {pattern : Pattern} (before gap : List Char) {taken rest : List Char} {resume : Nat}
    {last : Option Char} {next : Reading} (reached : resume ≤ byteLength before)
    (none : ∀ c ∈ gap, ∀ offset last after, pattern.first? ⟨offset, last, c :: after, []⟩ = none)
    (nonempty : taken ≠ [])
    (found : pattern.first? ⟨byteLength before + byteLength gap, gap.getLast?.or last, taken ++ rest, []⟩ = some next)
    (reads : next.offset = byteLength before + byteLength gap + byteLength taken) :
    outside (before ++ (gap ++ (taken ++ rest))) (byteLength before)
        (findAllFrom pattern resume (byteLength before) last (gap ++ (taken ++ rest))) =
      gap ++ outside ((before ++ (gap ++ taken)) ++ rest) (byteLength (before ++ (gap ++ taken)))
        (findAllFrom pattern (byteLength (before ++ (gap ++ taken))) (byteLength (before ++ (gap ++ taken)))
          (taken.getLast?.or (gap.getLast?.or last)) rest) := by
  have between : slice (before ++ (gap ++ (taken ++ rest))) (byteLength before)
      (byteLength before + byteLength gap) = gap := by
    rw [slice, Nat.add_sub_cancel_left, dropBytes_append, takeBytes_append]
  have size : byteLength (before ++ (gap ++ taken)) = next.offset := by
    rw [reads, byteLength_append, byteLength_append, Nat.add_assoc]
  rw [findAllFrom_miss gap reached none, findAllFrom_find nonempty (Nat.le_add_right_of_le reached) found reads,
    outside,
    between, size]
  simp only [List.append_assoc]

/-- Outside of its places, a row of conditional addresses leaves only the white space before each. -/
private theorem exists_outside_conditions {conditions : List Condition} {pieces : List (List Char × Token)}
    (same : pieces.map (·.2) = conditions.flatMap Condition.tokens)
    (blank : ∀ piece ∈ pieces, ∀ c ∈ piece.1, isBlank c) {tail : List Char} (unopened : '(' ∉ tail)
    (before : List Char) {resume : Nat} {last : Option Char} (reached : resume ≤ byteLength before)
    (edge : last.any isWordChar = false) :
    ∃ gaps, (∀ c ∈ gaps, isBlank c) ∧
      outside (before ++ (written pieces ++ tail)) (byteLength before)
        (findAllFrom conditionPattern resume (byteLength before) last (written pieces ++ tail)) = gaps ++ tail := by
  induction conditions generalizing pieces before resume last with
  | nil =>
    obtain rfl := List.map_eq_nil_iff.mp same
    have nowhere : ∀ c ∈ written [] ++ tail, ¬ c = '(' := fun c member is => unopened (is ▸ member)
    refine ⟨[], fun c member => absurd member List.not_mem_nil, ?_⟩
    rw [findAllFrom_of_requires requires_opening nowhere, outside, dropBytes_append]
    rfl
  | cons condition conditions ih =>
    -- the text before the search is part of the statement, because places are positions in the whole text
    obtain ⟨here, later, rfl, sameHere, sameLater⟩ := List.map_eq_append_iff.mp same
    obtain ⟨blankHere, blankLater⟩ := List.forall_mem_append.mp blank
    obtain ⟨gap, beforeOpening, inside, beforeAddress, text, blankGap, blankOpening, unclosed, blankAddress⟩ :=
      exists_conditionText sameHere blankHere
    have edgeHere : (gap.getLast?.or last).any isWordChar = false := edge_after_gap blankGap edge
    obtain ⟨next, found, reads⟩ := exists_first?_conditionPattern condition.uri edgeHere blankOpening unclosed
      blankAddress (byteLength before + byteLength gap) (written later ++ tail)
    have place := outside_place before gap reached (fun c member => first?_conditionPattern_blank (blankGap c member))
      (conditionText_ne_nil _ _ _ _) found reads
    obtain ⟨gaps, blankGaps, rest⟩ := ih sameLater blankLater
      (before ++ (gap ++ conditionText beforeOpening inside beforeAddress condition.uri)) (Nat.le_refl _)
      (edge_after_conditionText ..)
    refine ⟨gap ++ gaps, List.forall_mem_append.mpr ⟨blankGap, blankGaps⟩, ?_⟩
    rw [written_append, text, List.append_assoc, List.append_assoc, place, rest, List.append_assoc]

theorem exists_withoutConditions {conditions : List Condition} {pieces : List (List Char × Token)}
    (same : pieces.map (·.2) = conditions.flatMap Condition.tokens)
    (blank : ∀ piece ∈ pieces, ∀ c ∈ piece.1, isBlank c) {tail : List Char} (unopened : '(' ∉ tail) :
    ∃ gaps, (∀ c ∈ gaps, isBlank c) ∧ withoutConditions (written pieces ++ tail) = gaps ++ tail :=
  exists_outside_conditions same blank unopened [] (Nat.le_refl _) rfl

/-! ### The words of the clauses -/

/-- What separates the words of the clauses. -/
def separatesWords (c : Char) : Bool := isBlank c || c == ','

def Token.word? : Token → Option (List Char)
  | word w => some w.text
  | _ => none

/-- A token that the clauses after the conditional addresses are made of. -/
def Token.isListed : Token → Bool
  | word _ | comma => true
  | _ => false

private theorem Word.not_separatesWords (word : Word) : ∀ c ∈ word.text, separatesWords c = false := by
  intro c member
  have part := word.isWordPart_of_mem c member
  rw [separatesWords, Bool.or_eq_false_iff, beq_eq_false_iff_ne]
  refine ⟨?_, ne_of_accepts part rfl⟩
  by_contra blank
  rw [isWordPart_of_isBlank (Bool.of_not_eq_false blank)] at part
  cases part

private theorem separatesWords_of_isBlank {c : Char} (blank : isBlank c) : separatesWords c := by
  rw [separatesWords, blank, Bool.true_or]

/-- A word ends where the next token begins. -/
private theorem separatesWords_of_isSpaced {word : Word} {spaced : List (List Char × Token)} {gap : List Char}
    (fits : isSpaced (.word word) spaced) (listed : ∀ piece ∈ spaced, piece.2.isListed)
    (blank : ∀ c ∈ gap, isBlank c) : ∀ c ∈ (written spaced ++ gap).head?, separatesWords c := by
  intro c head
  cases spaced with
  | nil => exact separatesWords_of_isBlank (blank c (List.mem_of_head? head))
  | cons piece spaced =>
    obtain ⟨between, token⟩ := piece
    obtain ⟨blankBetween, needed, -⟩ := isSpaced_cons.mp fits
    rw [written_cons, List.append_assoc] at head
    cases between with
    | cons d between =>
      obtain rfl : d = c := Option.some.inj head
      exact separatesWords_of_isBlank (blankBetween d List.mem_cons_self)
    | nil =>
      have isListed := (List.forall_mem_cons.mp listed).1
      cases token with
      | word w => exact absurd rfl (needed rfl)
      | comma =>
        obtain rfl : ',' = c := Option.some.inj head
        rfl
      | _ => cases isListed

theorem fields_written {before : Token} {spaced : List (List Char × Token)} {gap : List Char}
    (fits : isSpaced before spaced) (listed : ∀ piece ∈ spaced, piece.2.isListed) (blank : ∀ c ∈ gap, isBlank c) :
    fields separatesWords (written spaced ++ gap) = (spaced.map (·.2)).filterMap Token.word? := by
  induction spaced generalizing before with
  | nil =>
    have whole : fields separatesWords (gap ++ []) = fields separatesWords [] :=
      fields_gap fun c member => separatesWords_of_isBlank (blank c member)
    rw [List.append_nil] at whole
    exact whole
  | cons piece spaced ih =>
    obtain ⟨between, token⟩ := piece
    obtain ⟨blankBetween, -, later⟩ := isSpaced_cons.mp fits
    obtain ⟨isListed, listedLater⟩ := List.forall_mem_cons.mp listed
    rw [written_cons, List.append_assoc, List.append_assoc,
      fields_gap fun c member => separatesWords_of_isBlank (blankBetween c member)]
    cases token with
    | word w =>
      have ends := separatesWords_of_isSpaced later listedLater blank
      exact (fields_word w.nonempty w.not_separatesWords ends).trans (congrArg (w.text :: ·) (ih later listedLater))
    | comma =>
      have comma : ∀ c ∈ [','], separatesWords c := List.forall_mem_singleton.mpr (by decide)
      exact (fields_gap comma).trans (ih later listedLater)
    | _ => cases isListed

/-! ### The clauses -/

section
variable {clauses : Clauses}

private theorem Name.ne_of_mem (name : Name) {word : String} (member : word ∈ reserved) : name.string ≠ word := by
  rintro rfl
  have free := name.free
  rw [← Bool.not_eq_true, List.contains_iff_mem] at free
  exact free member

/-- A name goes to the clause that is open. -/
private theorem Clauses.read_name (name : Name) :
    clauses.read name.string =
      match clauses.current with
      | .renaming => { clauses with asName := some name.string, current := .idle }
      | .showing => { clauses with shown := clauses.shown ++ [name.string] }
      | .hiding => { clauses with hidden := clauses.hidden ++ [name.string] }
      | .idle => clauses := by
  unfold Clauses.read
  split
  case h_1 same => exact absurd same (name.ne_of_mem (by decide))
  case h_2 same => exact absurd same (name.ne_of_mem (by decide))
  case h_3 same => exact absurd same (name.ne_of_mem (by decide))
  case h_4 same => exact absurd same (name.ne_of_mem (by decide))
  case h_5 => rfl

private def Clauses.adding (clauses : Clauses) (names : List String) : Clauses :=
  if clauses.current = .showing then { clauses with shown := clauses.shown ++ names }
  else { clauses with hidden := clauses.hidden ++ names }

private theorem foldl_read_names (names : List Name)
    (listing : clauses.current = .showing ∨ clauses.current = .hiding) :
    (names.map Name.string).foldl Clauses.read clauses = clauses.adding (names.map Name.string) := by
  induction names generalizing clauses with
  | nil =>
    simp only [Clauses.adding, List.map_nil, List.append_nil]
    split <;> rfl
  | cons name names ih =>
    have here : clauses.read name.string = clauses.adding [name.string] := by
      rw [Clauses.read_name]
      rcases listing with current | current <;> simp [Clauses.adding, current]
    have stays : (clauses.adding [name.string]).current = clauses.current := by
      unfold Clauses.adding
      split <;> rfl
    rw [List.map_cons, List.foldl_cons, here, ih (by rwa [stays])]
    rcases listing with current | current <;> simp [Clauses.adding, current]

end

def wordsOf (tokens : List Token) : List String := (tokens.filterMap Token.word?).map String.ofList

private theorem wordsOf_append (first second : List Token) :
    wordsOf (first ++ second) = wordsOf first ++ wordsOf second := by
  rw [wordsOf, List.filterMap_append, List.map_append]
  rfl

private theorem wordsOf_names (keyword : Keyword) (first : Name) (others : List Name) :
    wordsOf (namesTokens keyword (first :: others)) = keyword.spelling :: (first :: others).map Name.string := by
  have each : wordsOf (others.flatMap fun name => [.comma, .word name.toWord]) = others.map Name.string := by
    induction others with
    | nil => rfl
    | cons name others ih => exact congrArg (name.string :: ·) ih
  show String.ofList keyword.spelling.toList :: first.string ::
    wordsOf (others.flatMap fun name => [.comma, .word name.toWord]) = _
  rw [each, String.ofList_toList]
  rfl

section
variable (asName : Option String) (shown hidden : List String) (current : Clause) (names : List Name)

private theorem exists_foldl_shown :
    ∃ after, (wordsOf (namesTokens .showWord names)).foldl Clauses.read ⟨asName, shown, hidden, current⟩ =
      ⟨asName, shown ++ names.map Name.string, hidden, after⟩ := by
  cases names with
  | nil => exact ⟨current, by simp [namesTokens, wordsOf]⟩
  | cons first others =>
    rw [wordsOf_names, List.foldl_cons]
    exact ⟨_, foldl_read_names _ (.inl rfl)⟩

private theorem exists_foldl_hidden :
    ∃ after, (wordsOf (namesTokens .hideWord names)).foldl Clauses.read ⟨asName, shown, hidden, current⟩ =
      ⟨asName, shown, hidden ++ names.map Name.string, after⟩ := by
  cases names with
  | nil => exact ⟨current, by simp [namesTokens, wordsOf]⟩
  | cons first others =>
    rw [wordsOf_names, List.foldl_cons]
    exact ⟨_, foldl_read_names _ (.inr rfl)⟩

end

/-- The words of the clauses are read back as what they say. -/
theorem exists_foldl_clauseTokens (link : Link) :
    ∃ current, (wordsOf link.clauseTokens).foldl Clauses.read ⟨none, [], [], .idle⟩ =
      ⟨link.asName.map Name.string, link.shown.map Name.string, link.hidden.map Name.string, current⟩ := by
  have named : (wordsOf (nameTokens .asWord link.asName)).foldl Clauses.read ⟨none, [], [], .idle⟩ =
      ⟨link.asName.map Name.string, [], [], .idle⟩ := by
    cases link.asName with
    | none => rfl
    | some name => exact Clauses.read_name name
  have deferred : (wordsOf (if link.isDeferred then [Token.word Keyword.deferredWord.word] else [])).foldl Clauses.read
      ⟨none, [], [], .idle⟩ = ⟨none, [], [], .idle⟩ := by
    cases link.isDeferred <;> rfl
  obtain ⟨afterShown, shown⟩ := exists_foldl_shown (link.asName.map Name.string) [] [] .idle link.shown
  obtain ⟨afterHidden, hidden⟩ := exists_foldl_hidden (link.asName.map Name.string) (link.shown.map Name.string) []
    afterShown link.hidden
  refine ⟨afterHidden, ?_⟩
  rw [Link.clauseTokens, wordsOf_append, wordsOf_append, wordsOf_append, List.foldl_append, deferred, List.foldl_append,
    named, List.foldl_append, shown, List.nil_append, hidden, List.nil_append]

/-! ### Statements -/

private theorem isListed_namesTokens (keyword : Keyword) (names : List Name) :
    ∀ token ∈ namesTokens keyword names, token.isListed := by
  cases names with
  | nil => exact fun token member => absurd member List.not_mem_nil
  | cons first others =>
    refine List.forall_mem_cons.mpr ⟨rfl, List.forall_mem_cons.mpr ⟨rfl, fun token member => ?_⟩⟩
    obtain ⟨name, -, inPair⟩ := List.mem_flatMap.mp member
    rcases List.mem_pair.mp inPair with rfl | rfl <;> rfl

theorem Link.isListed_of_mem_clauseTokens (link : Link) : ∀ token ∈ link.clauseTokens, token.isListed := by
  refine List.forall_mem_append.mpr ⟨?_, List.forall_mem_append.mpr ⟨?_, List.forall_mem_append.mpr
    ⟨isListed_namesTokens _ _, isListed_namesTokens _ _⟩⟩⟩
  · cases link.isDeferred <;> simp [Token.isListed]
  · cases link.asName <;> simp [nameTokens, Token.isListed]

private theorem notMem_text_of_isListed {token : Token} (listed : token.isListed) {c : Char}
    (part : isWordPart c = false) (comma : c ≠ ',') : c ∉ token.text := by
  cases token with
  | word w => exact notMem_of_accepts w.isWordPart_of_mem part
  | comma => exact fun member => comma (List.mem_singleton.mp member)
  | _ => cases listed

private theorem notMem_written {spaced : List (List Char × Token)} {c : Char} (visible : isBlank c = false)
    (blank : ∀ piece ∈ spaced, ∀ d ∈ piece.1, isBlank d) (free : ∀ token ∈ spaced.map (·.2), c ∉ token.text) :
    c ∉ written spaced := by
  intro member
  obtain ⟨piece, inSpaced, inPiece⟩ := List.mem_flatMap.mp member
  rcases List.mem_append.mp inPiece with inGap | inToken
  · exact ne_of_accepts (blank piece inSpaced c inGap) visible rfl
  · exact free piece.2 (List.mem_map_of_mem inSpaced) inToken

private theorem Condition.semicolon_notMem (condition : Condition) : ∀ token ∈ condition.tokens, ';' ∉ token.text := by
  have inAddress : ';' ∉ condition.uri.written := by
    have free := condition.free
    rw [← Bool.not_eq_true, List.contains_iff_mem] at free
    have quote : condition.uri.quote.char ≠ ';' := by cases condition.uri.quote <;> decide
    simp [Address.written, free, quote.symm]
  have inName : ';' ∉ condition.name.text := notMem_of_accepts condition.name.isWordPart_of_mem rfl
  simp [Condition.tokens, Token.text, inAddress, inName]
  decide

/-- A layout taken apart: after the keyword and the address, the conditional addresses, the clauses and the
white space before the semicolon. -/
structure Link.Pieces (link : Link) where
  gap : List Char
  conditions : List (List Char × Token)
  clauses : List (List Char × Token)
  last : List Char
  nonempty : gap ≠ []
  blankGap : ∀ c ∈ gap, isBlank c
  conditionTokens : conditions.map (·.2) = link.conditions.flatMap Condition.tokens
  blankConditions : ∀ piece ∈ conditions, ∀ c ∈ piece.1, isBlank c
  clauseTokens : clauses.map (·.2) = link.clauseTokens
  fits : ∃ before, isSpaced before clauses
  blankLast : ∀ c ∈ last, isBlank c

namespace Link.Pieces
variable {link : Link} (pieces : link.Pieces)

def tail : List Char := written pieces.clauses ++ pieces.last

def text : List Char :=
  link.keyword.word.text ++ (pieces.gap ++ (link.uri.written ++
    ((written pieces.conditions ++ pieces.tail) ++ [';'])))

private theorem isListed : ∀ piece ∈ pieces.clauses, piece.2.isListed := by
  intro piece member
  apply link.isListed_of_mem_clauseTokens
  rw [← pieces.clauseTokens]
  exact List.mem_map_of_mem member

private theorem notMem_tail {c : Char} (visible : isBlank c = false) (part : isWordPart c = false) (comma : c ≠ ',') :
    c ∉ pieces.tail := by
  obtain ⟨before, fits⟩ := pieces.fits
  refine mt List.mem_append.mp (not_or.mpr ⟨?_, notMem_of_accepts pieces.blankLast visible⟩)
  refine notMem_written visible (isBlank_of_isSpaced fits) fun token member => ?_
  obtain ⟨piece, inClauses, rfl⟩ := List.mem_map.mp member
  exact notMem_text_of_isListed (pieces.isListed piece inClauses) part comma

private theorem semicolon_notMem : ';' ∉ written pieces.conditions ++ pieces.tail := by
  refine mt List.mem_append.mp (not_or.mpr ⟨?_, pieces.notMem_tail rfl rfl (by decide)⟩)
  refine notMem_written rfl pieces.blankConditions fun token member => ?_
  rw [pieces.conditionTokens] at member
  obtain ⟨condition, -, inCondition⟩ := List.mem_flatMap.mp member
  exact condition.semicolon_notMem token inCondition

private theorem ofText :
    Clauses.ofText (withoutConditions (written pieces.conditions ++ pieces.tail)) =
      (wordsOf link.clauseTokens).foldl Clauses.read ⟨none, [], [], .idle⟩ := by
  obtain ⟨before, fits⟩ := pieces.fits
  obtain ⟨gaps, blankGaps, kept⟩ := exists_withoutConditions pieces.conditionTokens pieces.blankConditions
    (pieces.notMem_tail rfl rfl (by decide))
  have words : fields separatesWords (gaps ++ pieces.tail) = link.clauseTokens.filterMap Token.word? := by
    rw [fields_gap fun c member => separatesWords_of_isBlank (blankGaps c member), tail,
      fields_written fits pieces.isListed pieces.blankLast, pieces.clauseTokens]
  rw [kept]
  exact congrArg (fun words => (words.map String.ofList).foldl Clauses.read ⟨none, [], [], .idle⟩) words

end Link.Pieces

theorem Link.Layout.exists_pieces {link : Link} (layout : link.Layout) :
    ∃ pieces : link.Pieces, layout.text = pieces.text := by
  obtain ⟨⟨gap, -⟩, _, whole, rfl, afterAddress⟩ := List.map_eq_cons_iff.mp layout.tokens
  obtain ⟨conditions, _, rfl, sameConditions, afterConditions⟩ := List.map_eq_append_iff.mp afterAddress
  obtain ⟨clauses, _, rfl, sameClauses, afterClauses⟩ := List.map_eq_append_iff.mp afterConditions
  obtain ⟨⟨last, -⟩, _, rfl, rfl, ended⟩ := List.map_eq_cons_iff.mp afterClauses
  obtain rfl := List.map_eq_nil_iff.mp ended
  have fits := layout.isSpaced
  rw [whole] at fits
  obtain ⟨blankGap, needed, later⟩ := isSpaced_cons.mp fits
  obtain ⟨fromConditions, _, fromClauses⟩ := isSpaced_append later
  obtain ⟨inClauses, _, fromLast⟩ := isSpaced_append fromClauses
  refine ⟨⟨gap, conditions, clauses, last, needed rfl, blankGap, sameConditions, isBlank_of_isSpaced fromConditions,
    sameClauses, ⟨_, inClauses⟩, (isSpaced_cons.mp fromLast).1⟩, ?_⟩
  rw [Link.Layout.text, whole, written_cons, written_append, written_append]
  simp [written, Token.text, Link.Pieces.text, Link.Pieces.tail]

/-- A layout of a link is read as what the link says. -/
theorem readStatement_layout {link : Link} (layout : link.Layout) (packages : PackageLayout)
    (directives : FileDirectives) :
    readStatement packages directives layout.text = directives.adding (link.fact packages directives.file) := by
  obtain ⟨pieces, text⟩ := layout.exists_pieces
  obtain ⟨reading, found, word, uri, clauses⟩ :=
    exists_atStart?_linkPattern link pieces.nonempty pieces.blankGap pieces.semicolon_notMem
  obtain ⟨current, clausesRead⟩ := exists_foldl_clauseTokens link
  have isExport : (link.keyword.word.text == "export".toList) = link.isExport := by
    rcases link.keyword_cases with ⟨same, keyword⟩ | ⟨same, keyword⟩ <;> rw [same, keyword] <;> rfl
  rw [text, readStatement]
  simp only [Link.Pieces.text, found, word, uri, clauses, pieces.ofText, clausesRead, isExport]
  rfl

end DeadCode.Directive
