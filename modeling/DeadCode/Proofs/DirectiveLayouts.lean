import DeadCode.Proofs.DirectiveLines

/-!
The links of a file are read back as they were written. A layout of a link adds what the link says to what
follows it, however its tokens are spaced, as long as it takes no more lines than a directive may. So a file
that is printed from links, blank lines and comments is read as exactly these links.
-/
namespace DeadCode

def FileDirectives.following (directives : FileDirectives) (link : UriDirective) : FileDirectives :=
  if link.isExport then { directives with exports := link :: directives.exports }
  else { directives with imports := link :: directives.imports }

end DeadCode

namespace DeadCode.Directive
open DeadCode.Text DeadCode.Text.Pattern DeadCode.Source

/-! ### Layouts as atoms -/

def Token.atoms : Token → List Atom
  | .address a => [.address a]
  | token => token.text.map .char

def atomsOf (spaced : List (List Char × Token)) : List Atom :=
  spaced.flatMap fun piece => piece.1.map .char ++ piece.2.atoms

theorem atomsOf_cons (gap : List Char) (token : Token) (rest : List (List Char × Token)) :
    atomsOf ((gap, token) :: rest) = gap.map .char ++ (token.atoms ++ atomsOf rest) :=
  (List.flatMap_cons ..).trans (List.append_assoc ..)

theorem Token.textOf_atoms (token : Token) : textOf token.atoms = token.text := by
  cases token with
  | address a => simp [atoms, text]
  | _ => exact textOf_chars _

theorem textOf_atomsOf (spaced : List (List Char × Token)) : textOf (atomsOf spaced) = written spaced := by
  induction spaced with
  | nil => rfl
  | cons piece spaced ih =>
    obtain ⟨gap, token⟩ := piece
    rw [atomsOf_cons, written_cons, textOf_append, textOf_append, textOf_chars, token.textOf_atoms, ih]

private theorem isCalm_token {token : Token} {rest : List Atom} (calm : IsCalm rest)
    (apart : (∃ word, token = .word word) → startsWithAddress rest = false) : IsCalm (token.atoms ++ rest) := by
  cases token with
  | address a => exact calm
  | word w =>
    have quiet : ∀ c ∈ w.text, isQuiet c := fun c member =>
      isQuiet_of isWordPart (by decide) (w.isWordPart_of_mem c member)
    exact calm.chars quiet (.inr (apart ⟨w, rfl⟩))
  | _ => exact IsCalm.chars calm (List.forall_mem_singleton.mpr (by decide)) (.inl (by decide))

/-- The code of a layout is calm, because there is white space between a word and an address. -/
theorem isCalm_atomsOf {before : Token} {spaced : List (List Char × Token)} (fits : isSpaced before spaced) :
    IsCalm (before.atoms ++ atomsOf spaced) := by
  induction spaced generalizing before with
  | nil => exact isCalm_token trivial fun _ => rfl
  | cons piece spaced ih =>
    obtain ⟨gap, token⟩ := piece
    obtain ⟨blank, needed, later⟩ := isSpaced_cons.mp fits
    have quiet : ∀ c ∈ gap, isQuiet c := fun c member => isQuiet_of_isBlank (blank c member)
    rw [atomsOf_cons]
    -- an `r` before an address would make it a raw literal, and only a word ends with one
    refine isCalm_token ((ih later).chars quiet (.inl (notMem_of_accepts blank (by decide)))) ?_
    rintro ⟨word, rfl⟩
    cases gap with
    | cons c gap => rfl
    | nil =>
      cases token with
      | address a => exact absurd rfl (needed rfl)
      | word w =>  exact absurd rfl (needed rfl)
      | _ => rfl

theorem atomsOf_append (first second : List (List Char × Token)) :
    atomsOf (first ++ second) = atomsOf first ++ atomsOf second :=
  List.flatMap_append

/-! ### The last token -/

private theorem semicolon_notMem_atoms {token : Token} (other : token ≠ .semicolon) : .char ';' ∉ token.atoms := by
  cases token with
  | semicolon => exact absurd rfl other
  | word w =>
    intro member
    obtain ⟨c, inText, same⟩ := List.mem_map.mp member
    exact ne_of_accepts (w.isWordPart_of_mem c inText) (by decide) (Atom.char.inj same)
  | _ => simp [Token.atoms, Token.text]

private theorem semicolon_notMem_gap {gap : List Char} (blank : ∀ c ∈ gap, isBlank c) :
    .char ';' ∉ gap.map Atom.char := by
  intro member
  obtain ⟨c, inGap, same⟩ := List.mem_map.mp member
  exact ne_of_accepts (blank c inGap) (by decide) (Atom.char.inj same)

private theorem semicolon_notMem_atomsOf {before : Token} {spaced : List (List Char × Token)}
    (fits : isSpaced before spaced) (others : ∀ token ∈ spaced.map (·.2), token ≠ .semicolon) :
    .char ';' ∉ atomsOf spaced := by
  intro member
  obtain ⟨piece, inSpaced, inPiece⟩ := List.mem_flatMap.mp member
  rcases List.mem_append.mp inPiece with inGap | inToken
  · exact semicolon_notMem_gap (isBlank_of_isSpaced fits piece inSpaced) inGap
  · exact semicolon_notMem_atoms (others piece.2 (List.mem_map_of_mem inSpaced)) inToken

private theorem ne_semicolon_of_isListed {token : Token} (listed : token.isListed) : token ≠ .semicolon := by
  rintro rfl
  cases listed

/-- The tokens of a link between the address and the semicolon. -/
private theorem Link.exists_tokens (link : Link) :
    ∃ tokens, link.tokens = .address link.uri :: (tokens ++ [.semicolon]) ∧ ∀ token ∈ tokens, token ≠ .semicolon := by
  refine ⟨link.conditions.flatMap Condition.tokens ++ link.clauseTokens, by simp [tokens],
    List.forall_mem_append.mpr ⟨fun token member => ?_, fun token member =>
      ne_semicolon_of_isListed (link.isListed_of_mem_clauseTokens token member)⟩⟩
  obtain ⟨condition, -, inCondition⟩ := List.mem_flatMap.mp member
  rintro rfl
  simp [Condition.tokens] at inCondition

/-- A layout as calm text: the keyword, white space and more, up to the only semicolon. -/
structure Link.Spelling (link : Link) where
  gap : Char
  more : List Atom
  blank : isBlank gap
  calm : IsCalm (link.keyword.word.text.map .char ++ .char gap :: (more ++ [.char ';']))
  only : .char ';' ∉ more

def Link.Spelling.front {link : Link} (spelling : link.Spelling) : List Atom :=
  link.keyword.word.text.map .char ++ .char spelling.gap :: spelling.more

theorem Link.Layout.exists_spelling {link : Link} (layout : link.Layout) :
    ∃ spelling : link.Spelling, layout.text = textOf (spelling.front ++ [.char ';']) := by
  obtain ⟨tokens, whole, others⟩ := link.exists_tokens
  obtain ⟨⟨gap, -⟩, _, spaced, rfl, afterAddress⟩ := List.map_eq_cons_iff.mp (layout.tokens.trans whole)
  obtain ⟨between, _, rfl, sameBetween, afterBetween⟩ := List.map_eq_append_iff.mp afterAddress
  obtain ⟨⟨last, -⟩, _, rfl, rfl, ended⟩ := List.map_eq_cons_iff.mp afterBetween
  obtain rfl := List.map_eq_nil_iff.mp ended
  have fits := layout.isSpaced
  rw [spaced] at fits
  obtain ⟨blankGap, needed, later⟩ := isSpaced_cons.mp fits
  obtain ⟨fromBetween, _, fromLast⟩ := isSpaced_append later
  obtain ⟨c, gap, rfl⟩ := List.exists_cons_of_ne_nil (needed rfl)
  obtain ⟨blank, blankRest⟩ := List.forall_mem_cons.mp blankGap
  have atoms : Token.atoms (.word link.keyword.word) ++ atomsOf layout.spaced =
      link.keyword.word.text.map .char ++ .char c :: (gap.map .char ++ .address link.uri :: (atomsOf between ++
        last.map .char) ++ [.char ';']) := by
    rw [spaced, atomsOf_cons, atomsOf_append]
    simp [atomsOf, Token.atoms, Token.text]
  have calm := isCalm_atomsOf layout.isSpaced
  rw [atoms] at calm
  refine ⟨⟨c, _, blank, calm, ?_⟩, ?_⟩
  · have inBetween := semicolon_notMem_atomsOf fromBetween (sameBetween ▸ others)
    have inLast := semicolon_notMem_gap (isSpaced_cons.mp fromLast).1
    have inGap := semicolon_notMem_gap blankRest
    rw [List.mem_append, List.mem_cons, List.mem_append]
    rintro (inside | is | inside | inside)
    · exact inGap inside
    · cases is
    · exact inBetween inside
    · exact inLast inside
  · rw [Layout.text, ← textOf_atomsOf, ← textOf_chars link.keyword.word.text, ← textOf_append]
    exact congrArg textOf (atoms.trans (by simp [Spelling.front]))

/-! ### Layouts without line breaks -/

private theorem Token.newline_notMem_text (token : Token) : '\n' ∉ token.text := by
  cases token with
  | word w => exact notMem_of_accepts w.isWordPart_of_mem (by decide)
  | address a => exact newline_notMem_written a
  | _ => decide

private theorem Token.text_ne_nil (token : Token) : token.text ≠ [] := by
  cases token with
  | word w => exact w.nonempty
  | _ => exact List.cons_ne_nil _ _

private theorem Token.getLast?_text (token : Token) : token.text.getLast? ≠ some '\r' := by
  cases token with
  | word w => exact fun ends => notMem_of_accepts w.isWordPart_of_mem (by decide) (List.mem_of_getLast? ends)
  | address a =>
    rw [Token.text, getLast?_written]
    cases a.quote <;> decide
  | _ => decide

theorem unbroken_written (spaced : List (List Char × Token)) :
    written (spaced.map fun piece => (unbroken piece.1, piece.2)) = unbroken (written spaced) := by
  induction spaced with
  | nil => rfl
  | cons piece spaced ih =>
    obtain ⟨gap, token⟩ := piece
    have head : (token.text ++ written spaced).head? ≠ some '\n' := by
      obtain ⟨c, rest, text⟩ := List.exists_cons_of_ne_nil token.text_ne_nil
      rw [text]
      intro same
      exact token.newline_notMem_text (text ▸ List.mem_cons.mpr (.inl (Option.some.inj same).symm))
    rw [List.map_cons, written_cons, written_cons, unbroken_append (.inr head),
      unbroken_append (.inl token.getLast?_text),
      unbroken_of_notMem token.newline_notMem_text, ih]

private theorem isSpaced_unbroken {before : Token} {spaced : List (List Char × Token)} (fits : isSpaced before spaced) :
    isSpaced before (spaced.map fun piece => (unbroken piece.1, piece.2)) := by
  induction spaced generalizing before with
  | nil => rfl
  | cons piece spaced ih =>
    obtain ⟨blank, needed, later⟩ := isSpaced_cons.mp fits
    exact isSpaced_cons.mpr ⟨isBlank_unbroken blank, fun runs => unbroken_ne_nil (needed runs), ih later⟩

/-- The layout with its line breaks replaced by blanks. -/
def Link.Layout.joined {link : Link} (layout : link.Layout) : link.Layout where
  spaced := layout.spaced.map fun piece => (unbroken piece.1, piece.2)
  tokens := by rw [List.map_map]; exact layout.tokens
  isSpaced := isSpaced_unbroken layout.isSpaced

theorem Link.Layout.joined_text {link : Link} (layout : link.Layout) : layout.joined.text = unbroken layout.text := by
  have keyword : (Token.word link.keyword.word).text = link.keyword.word.text := rfl
  have ends := (Token.word link.keyword.word).getLast?_text
  have whole := (Token.word link.keyword.word).newline_notMem_text
  rw [keyword] at ends whole
  rw [Layout.text, Layout.text, unbroken_append (.inl ends), unbroken_of_notMem whole, ← unbroken_written]
  rfl

/-! ### A layout is one statement -/

private theorem count_newline (atoms : List Atom) : (textOf atoms).count '\n' = atoms.count (.char '\n') := by
  induction atoms with
  | nil => rfl
  | cons atom atoms ih =>
    cases atom with
    | char c => simp [List.count_cons, ih]
    | address a =>
      rw [textOf_address, List.count_append, List.count_eq_zero.mpr (newline_notMem_written a), ih]
      simp

theorem codeOf_chars_append (text : List Char) (rest : List Atom) :
    codeOf (spelledOf (text.map .char ++ rest)) = text ++ codeOf (spelledOf rest) := by
  induction text with
  | nil => rfl
  | cons c text ih => exact congrArg (c :: ·) ih

/-- After the keyword, a line of a layout shows nothing or a blank. -/
private theorem isDirectiveLine_of_keyword (link : Link) {line : List Atom} {gap : Char} (blank : isBlank gap)
    (shown : ∀ atom ∈ line.head?, atom = .char gap) :
    isDirectiveLine (codeOf (spelledOf (link.keyword.word.text.map .char ++ line))) := by
  rw [codeOf_chars_append]
  refine isDirectiveLine_keyword link fun c head => ?_
  cases line with
  | nil => cases head
  | cons atom line =>
    obtain rfl := shown atom rfl
    obtain rfl : gap = c := Option.some.inj head
    exact isWordChar_of_isBlank blank

/-- The first line of calm text goes on after its first word with what follows that, if with anything. -/
private theorem exists_first_line {word rest : List Atom} {gap : Char} (calm : IsCalm (word ++ .char gap :: rest))
    (inWord : .char '\n' ∉ word) (after : List Char) :
    ∃ line others, readLines (textOf (word ++ .char gap :: rest) ++ '\n' :: after) = calmLine (word ++ line) :: others ∧
      ∀ atom ∈ line.head?, atom = .char gap := by
  by_cases member : .char '\n' ∈ .char gap :: rest
  · obtain ⟨line, later, split, inLine⟩ := List.eq_append_cons_of_mem member
    rw [split, ← List.append_assoc] at calm ⊢
    have whole : .char '\n' ∉ word ++ line := mt List.mem_append.mp (not_or.mpr ⟨inWord, inLine⟩)
    refine ⟨line, readLines (textOf later ++ '\n' :: after), ?_, fun atom head => ?_⟩
    · rw [textOf_append, textOf_char, List.append_assoc, List.cons_append, readLines_calm calm.left whole]
    · obtain ⟨others, rfl⟩ := List.head?_eq_some_iff.mp head
      exact (List.cons.inj split).1.symm
  · have whole : .char '\n' ∉ word ++ .char gap :: rest := mt List.mem_append.mp (not_or.mpr ⟨inWord, member⟩)
    exact ⟨_, readLines after, readLines_calm calm whole after, fun atom head => (Option.some.inj head).symm⟩

private theorem getLast?_keyword (link : Link) :
    (link.keyword.word.text.map Atom.char).getLast? ≠ some (.char '\r') := by
  rcases link.keyword_cases with ⟨-, same⟩ | ⟨-, same⟩ <;> rw [same] <;> decide

private theorem newline_notMem_keyword (link : Link) : .char '\n' ∉ link.keyword.word.text.map Atom.char := by
  rcases link.keyword_cases with ⟨-, same⟩ | ⟨-, same⟩ <;> rw [same] <;> decide

def Link.Layout.lineCount {link : Link} (layout : link.Layout) : Nat := layout.text.count '\n' + 1

/-- A statement whose first line begins one is taken as a whole, and the rest is read from its end on. -/
private theorem statementsFrom_run {entries rest : List (List Char × SanitizedLine)} {statement : List Char}
    {skip : Nat}
    (joined : joinStatement lineLimit [] 0 (entries ++ rest) = (statement, skip)) (length : entries.length = skip + 1)
    (begins : ∀ entry ∈ (entries ++ rest).head?, isDirectiveLine entry.2.code) :
    statementsFrom 0 (entries ++ rest) = statement :: statementsFrom 0 rest := by
  obtain ⟨entry, entries, rfl⟩ := List.exists_cons_of_length_eq_add_one length
  obtain rfl : entries.length = skip := Nat.succ.inj length
  rw [List.cons_append] at joined begins ⊢
  rw [statementsFrom, if_pos (begins entry rfl), joined]
  exact congrArg (statement :: ·) (statementsFrom_skip entries rest)

namespace Link.Spelling
variable {link : Link} (spelling : link.Spelling)

private theorem front_concat : spelling.front ++ [.char ';'] =
    link.keyword.word.text.map .char ++ .char spelling.gap :: (spelling.more ++ [.char ';']) := by
  rw [front, List.append_assoc, List.cons_append]

private theorem semicolon_notMem_front : .char ';' ∉ spelling.front := by
  have inKeyword : .char ';' ∉ link.keyword.word.text.map Atom.char :=
    semicolon_notMem_atoms (show Token.word link.keyword.word ≠ .semicolon from Token.noConfusion)
  have gap : Atom.char ';' ≠ .char spelling.gap := fun same =>
    ne_of_accepts spelling.blank (by decide) (Atom.char.inj same).symm
  refine mt List.mem_append.mp (not_or.mpr ⟨inKeyword, mt List.mem_cons.mp (not_or.mpr ⟨gap, spelling.only⟩)⟩)

private theorem head?_front : ∃ c ∈ (textOf spelling.front).head?, c ≠ '\n' ∧ c ≠ '\r' := by
  rw [front, textOf_append, textOf_chars]
  rcases link.keyword_cases with ⟨-, same⟩ | ⟨-, same⟩ <;> rw [same]
  · exact ⟨'i', rfl, by decide⟩
  · exact ⟨'e', rfl, by decide⟩

private theorem head?_readLines (after : List Char) :
    ∀ entry ∈ (readLines (textOf (spelling.front ++ [.char ';']) ++ '\n' :: after)).head?,
      isDirectiveLine entry.2.code := by
  obtain ⟨line, others, lines, shown⟩ := exists_first_line spelling.calm (newline_notMem_keyword link) after
  rw [spelling.front_concat, lines]
  intro entry head
  obtain rfl := Option.some.inj head
  rw [calmLine, keptOf_append (getLast?_keyword link)]
  exact isDirectiveLine_of_keyword link spelling.blank fun atom head => shown atom (head?_keptOf atom head)

end Link.Spelling

/-- A layout of at most as many lines as a directive may take is one statement, and what follows on later lines
is read as if it stood alone. -/
theorem statements_layout {link : Link} (layout : link.Layout) (short : layout.lineCount ≤ lineLimit)
    (after : List Char) :
    statements (layout.text ++ '\n' :: after) = layout.joined.text :: statements after := by
  obtain ⟨spelling, text⟩ := layout.exists_spelling
  have calm : IsCalm (spelling.front ++ [.char ';']) := spelling.front_concat ▸ spelling.calm
  have count : layout.text.count '\n' = spelling.front.count (.char '\n') := by
    rw [text, count_newline, List.count_append]
    rfl
  have enough : spelling.front.count (.char '\n') < lineLimit := by
    rw [Link.Layout.lineCount, count] at short
    omega
  have joined :=
    joinStatement_run calm spelling.semicolon_notMem_front enough [] 0 (fun _ => spelling.head?_front) after
  have begins := spelling.head?_readLines after
  obtain ⟨entries, split, length⟩ := exists_readLines calm after
  rw [← text] at joined begins split
  rw [split] at joined begins
  have statement : glue [] (unbroken layout.text) = layout.joined.text := layout.joined_text.symm
  rw [statements_eq, split, statementsFrom_run joined ?_ begins, statement]
  · rfl
  · rw [length, List.count_append]
    simp

/-! ### Reading a layout -/

section
variable {link : Link} (packages : PackageLayout) (file : Path)

/-- What a statement adds comes after what was there. -/
private theorem readStatement_following (fact : UriDirective) (directives : FileDirectives) (statement : List Char) :
    readStatement packages (directives.following fact) statement =
      (readStatement packages directives statement).following fact := by
  unfold FileDirectives.following
  cases fact.isExport <;> simp only [readStatement, if_true, Bool.false_eq_true, if_false] <;>
    (cases linkPattern.atStart? statement with
    | some reading => dsimp only; split <;> rfl
    | none =>
      cases partOfUriPattern.atStart? statement with
      | some reading => rfl
      | none =>
        cases partOfNamePattern.atStart? statement with
        | some reading => rfl
        | none =>
          cases partPattern.atStart? statement with
          | some reading => rfl
          | none => cases libraryPattern.atStart? statement <;> rfl)

private theorem foldl_readStatement_following (fact : UriDirective) (directives : FileDirectives)
    (statements : List (List Char)) :
    statements.foldl (readStatement packages) (directives.following fact) =
      (statements.foldl (readStatement packages) directives).following fact := by
  induction statements generalizing directives with
  | nil => rfl
  | cons statement statements ih => rw [List.foldl_cons, readStatement_following, ih, List.foldl_cons]

/-- A layout adds what its link says in front of what follows on later lines. -/
theorem read_layout_append (layout : link.Layout) (short : layout.lineCount ≤ lineLimit) (after : List Char) :
    read packages file (layout.text ++ '\n' :: after) =
      (read packages file after).following (link.fact packages file) := by
  have first : readStatement packages (.empty file) layout.joined.text =
      (FileDirectives.empty file).following (link.fact packages file) := by
    rw [readStatement_layout]
    unfold FileDirectives.adding FileDirectives.following
    cases link.isExport <;> rfl
  rw [read, statements_layout layout short, List.foldl_cons, first, foldl_readStatement_following]
  rfl

theorem read_layout (layout : link.Layout) (short : layout.lineCount ≤ lineLimit) :
    read packages file layout.text = (FileDirectives.empty file).following (link.fact packages file) := by
  obtain ⟨spelling, text⟩ := layout.exists_spelling
  have ended : lines (layout.text ++ ['\n']) = lines layout.text := by
    rw [text, textOf_append, List.append_assoc]
    exact lines_concat_newline (by decide) (by decide) _
  have alone := read_layout_append packages file layout short []
  rw [read, statements, ended] at alone
  exact alone

end

/-! ### Layout does not matter -/

private theorem isSpaced_stacked {before : Token} (tokens : List Token) :
    isSpaced before (tokens.map fun token => (['\n'], token)) := by
  induction tokens generalizing before with
  | nil => rfl
  | cons token tokens ih =>
    exact isSpaced_cons.mpr ⟨List.forall_mem_singleton.mpr (by decide), fun _ => List.cons_ne_nil _ _, ih⟩

/-- Two layouts of a link, neither of more lines than a directive may take, are read as the same single link, and
what follows them on later lines is read the same. -/
theorem read_of_layouts {link : Link} (one two : link.Layout) (oneFits : one.lineCount ≤ lineLimit)
    (twoFits : two.lineCount ≤ lineLimit) (packages : PackageLayout) (file : Path) :
    read packages file one.text = (FileDirectives.empty file).following (link.fact packages file) ∧
    read packages file two.text = read packages file one.text ∧
    ∀ after, read packages file (one.text ++ '\n' :: after) =
        (read packages file after).following (link.fact packages file) ∧
      read packages file (two.text ++ '\n' :: after) = read packages file (one.text ++ '\n' :: after) := by
  refine ⟨read_layout packages file one oneFits, ?_,
    fun after => ⟨read_layout_append packages file one oneFits after, ?_⟩⟩
  · rw [read_layout packages file one oneFits, read_layout packages file two twoFits]
  · rw [read_layout_append packages file one oneFits, read_layout_append packages file two twoFits]

def Link.stacked (link : Link) : link.Layout where
  spaced := link.tokens.map fun token => (['\n'], token)
  tokens := by rw [List.map_map]; exact List.map_id _
  isSpaced := isSpaced_stacked _

def lettersLink (shown : List Name) : Link where
  isExport := false
  uri := ⟨.single, "a.dart".toList, by decide, by decide⟩
  conditions := []
  isDeferred := false
  asName := none
  shown := shown
  hidden := []

def letters : List Name :=
  [⟨⟨['A'], by decide, by decide⟩, by decide⟩, ⟨⟨['B'], by decide, by decide⟩, by decide⟩,
    ⟨⟨['C'], by decide, by decide⟩, by decide⟩, ⟨⟨['D'], by decide, by decide⟩, by decide⟩,
    ⟨⟨['E'], by decide, by decide⟩, by decide⟩]

/-- Names on lines of their own, and another import after them. -/
theorem read_of_layouts_fourNames :
    (lettersLink (letters.take 4)).printed.lineCount = 1 ∧ (lettersLink (letters.take 4)).stacked.lineCount = 11 ∧
    (read (.libSegment ⟨.empty⟩) ⟨"/app/lib/b.dart"⟩
      ((lettersLink (letters.take 4)).stacked.text ++ '\n' :: "import 'c.dart';".toList)).imports.map (·.shown) =
        [["A", "B", "C", "D"], []] := by
  have printedFits : (lettersLink (letters.take 4)).printed.lineCount ≤ lineLimit := by decide +kernel
  have stackedFits : (lettersLink (letters.take 4)).stacked.lineCount ≤ lineLimit := by decide +kernel
  refine ⟨by decide +kernel, by decide +kernel, ?_⟩
  have followed := (read_of_layouts _ _ printedFits stackedFits (.libSegment ⟨.empty⟩) ⟨"/app/lib/b.dart"⟩).2.2
  rw [(followed _).2, (followed _).1]
  decide +kernel

/-- With one name more, a line for each token is one line too many, and the import is not read at all. -/
theorem read_stacked_lost :
    (lettersLink letters).stacked.lineCount = lineLimit + 1 ∧
    read (.libSegment ⟨.empty⟩) ⟨"/app/lib/b.dart"⟩ (lettersLink letters).stacked.text = .empty ⟨"/app/lib/b.dart"⟩ ∧
    (read (.libSegment ⟨.empty⟩) ⟨"/app/lib/b.dart"⟩ (lettersLink letters).printed.text).imports.map (·.shown) =
      [["A", "B", "C", "D", "E"]] := by
  decide +kernel

/-! ### Files of links -/

inductive HeaderLine where
  | link (written : Link)
  | blank (text : List Char) (blank : ∀ c ∈ text, isBlank c) (whole : '\n' ∉ text)
  | comment (indent text : List Char) (blank : ∀ c ∈ indent, isBlank c) (whole : '\n' ∉ indent ++ text)

namespace HeaderLine

def text : HeaderLine → List Char
  | link written => written.rendered
  | blank text _ _ => text
  | comment indent text _ _ => indent ++ '/' :: '/' :: text

def link? : HeaderLine → Option Link
  | link written => some written
  | _ => none

end HeaderLine

def headerText (header : List HeaderLine) : List Char := header.flatMap fun line => line.text ++ ['\n']

def linksOf (header : List HeaderLine) : List Link := header.filterMap HeaderLine.link?

private theorem newline_notMem_spaceOut {before : Token} (tokens : List Token) :
    '\n' ∉ written (spaceOut before tokens) := by
  induction tokens generalizing before with
  | nil => exact List.not_mem_nil
  | cons token tokens ih =>
    have gap : '\n' ∉ blankBetween before token := by
      rcases blankBetween_cases before token with gap | ⟨gap, -⟩ <;> rw [gap] <;> decide
    rw [spaceOut, written_cons, List.mem_append, List.mem_append, not_or, not_or]
    exact ⟨gap, token.newline_notMem_text, ih⟩

theorem Link.lineCount_printed (link : Link) : link.printed.lineCount = 1 := by
  have whole : '\n' ∉ link.printed.text := mt List.mem_append.mp
    (not_or.mpr ⟨(Token.word link.keyword.word).newline_notMem_text, newline_notMem_spaceOut link.tokens⟩)
  rw [Layout.lineCount, List.count_eq_zero.mpr whole]

/-- A line of a link adds what it says, and other lines add nothing. -/
theorem read_headerLine (packages : PackageLayout) (file : Path) (line : HeaderLine) (after : List Char) :
    read packages file (line.text ++ '\n' :: after) =
      match line.link? with
      | some link => (read packages file after).following (link.fact packages file)
      | none => read packages file after := by
  cases line with
  | link written =>
    rw [HeaderLine.text, ← written.printed_text]
    exact read_layout_append packages file written.printed (by rw [written.lineCount_printed]; decide) after
  | blank text blank whole => rw [HeaderLine.text, read, statements_blankLine whole blank]; rfl
  | comment indent text blank whole =>
    have noBreak : '\n' ∉ indent ++ '/' :: '/' :: text := by simpa using whole
    rw [HeaderLine.text, read, statements_commentLine blank noBreak]
    rfl

/-- Reading undoes printing: a file of links, with any blank lines and comments between, is read as these links,
imports and exports each in order, and as nothing else. -/
theorem read_header (packages : PackageLayout) (file : Path) (header : List HeaderLine) :
    read packages file (headerText header) = {
      file := file
      libraryName := none
      imports := ((linksOf header).filter (!·.isExport)).map (·.fact packages file)
      exports := ((linksOf header).filter (·.isExport)).map (·.fact packages file)
      parts := []
      partOf := none } ∧
    ∀ link : Link, (link.fact packages file).isWildcard ↔ link.shown = [] ∧ link.hidden = [] := by
  constructor
  · induction header with
    | nil => rfl
    | cons line header ih =>
      have text : headerText (line :: header) = line.text ++ '\n' :: headerText header := by
        rw [headerText, List.flatMap_cons, List.append_assoc]
        rfl
      rw [text, read_headerLine, ih]
      cases found : line.link? with
      | none =>
        have same : linksOf (line :: header) = linksOf header := List.filterMap_cons_none found
        rw [same]
      | some link =>
        have first : linksOf (line :: header) = link :: linksOf header := List.filterMap_cons_some found
        rw [first]
        unfold FileDirectives.following
        cases isExport : link.isExport <;> simp [isExport, Link.fact]
  · intro link
    simp [UriDirective.isWildcard, Link.fact]

end DeadCode.Directive
