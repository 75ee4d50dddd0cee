import DeadCode.Proofs.Declarations
import DeadCode.Proofs.Definitions
import DeadCode.Proofs.Visits

/-!
What is recorded of a file, compared with its text. Every recorded name stands at its position. A live class
begins in visible code, a live function is visible as a whole, and a class with a name counts as commented out when
its name stands in a comment or a class around it counts so; for a function the start of its line decides instead.
-/
namespace DeadCode.Source
open DeadCode.Text DeadCode.Text.Pattern

/-! ### Lines that begin as code -/

theorem LineAt.exists_nest {contents raw : List Char} {number : Nat} {clean : SanitizedLine}
    (here : LineAt contents number raw clean) : ∃ nest : Nest, nest.IsQuoted ∧ clean = (sanitizeLine nest raw).1 := by
  obtain ⟨index, -, rawHere, cleanHere⟩ := here
  exact exists_nest_of_mem_zip (List.mem_of_getElem? (List.getElem?_zip_eq_some.mpr ⟨rawHere, cleanHere⟩))

private theorem commented_ofClean (number : Nat) (raw : List Char) (clean : SanitizedLine) :
    (SourceLine.ofClean number raw clean).commented = (startsWithComment (trimStart raw) ||
      (!isBlankText raw && clean.isCommentAt (byteLength (indent raw)))) := by
  unfold SourceLine.ofClean
  dsimp only
  split
  case isTrue commented => exact commented.symm
  case isFalse live => exact (Bool.not_eq_true _ ▸ live).symm

section
variable {nest : Nest} {before rest : List Char} {c : Char}

/-- Where quiet text leads to a name that is code, the first character that is not blank is code. -/
private theorem exists_first_code (quoted : nest.IsQuoted) (quiet : ∀ d ∈ before, isQuiet d) (starts : isNameStart c)
    (code : MarkAt (markLine nest (before ++ c :: rest)) (byteLength before) c .code) :
    ∃ margin d more, before ++ c :: rest = margin ++ d :: more ∧ (∀ b ∈ margin, isBlank b) ∧ isBlank d = false ∧
      isQuiet d ∧ MarkAt (markLine nest (before ++ c :: rest)) (byteLength margin) d .code := by
  have quietName : isQuiet c := isQuiet_of_isNameStart starts
  have split : before = before.takeWhile isBlank ++ before.dropWhile isBlank := List.takeWhile_append_dropWhile.symm
  have blank : ∀ b ∈ before.takeWhile isBlank, isBlank b := fun b member => List.mem_takeWhile_imp member
  cases written : before.dropWhile isBlank with
  | nil =>
    rw [written, List.append_nil] at split
    rw [← split] at blank
    exact ⟨before, c, rest, rfl, blank, isBlank_of_isNameStart starts, quietName, code⟩
  | cons d others =>
    rw [written] at split
    have notBlank : isBlank d = false := by
      have head := List.head?_dropWhile_not isBlank before
      rwa [written] at head
    obtain ⟨tail, marks⟩ : ∃ tail, markLine nest (before ++ c :: rest) = marked .code before ++ tail := by
      have marks := (reads_of_quiet_start quoted quiet quietName code).markLine_eq
      rw [map_fst_marked] at marks
      exact ⟨_, marks⟩
    generalize before.takeWhile isBlank = margin at split blank
    subst split
    refine ⟨margin, d, others ++ c :: rest, by simp, blank, notBlank, quiet d (by simp), ?_⟩
    rw [marks]
    refine ⟨marked .code margin, marked .code others ++ tail, ?_, by rw [map_fst_marked]⟩
    rw [marked_append, marked_cons, List.append_assoc, List.cons_append]

/-- A line that leads to live code in quiet text is not commented. -/
private theorem commented_of_code (number : Nat) (quoted : nest.IsQuoted) (quiet : ∀ d ∈ before, isQuiet d)
    (starts : isNameStart c) (code : MarkAt (markLine nest (before ++ c :: rest)) (byteLength before) c .code) :
    (SourceLine.ofClean number (before ++ c :: rest) (sanitizeLine nest (before ++ c :: rest)).1).commented = false := by
  obtain ⟨margin, d, more, line, blank, notBlank, quietFirst, codeFirst⟩ := exists_first_code quoted quiet starts code
  have indented : indent (margin ++ d :: more) = margin := by
    rw [indent, List.takeWhile_append_of_pos blank, List.takeWhile_cons_of_neg (by simp [notBlank]), List.append_nil]
  have trimmed : trimStart (margin ++ d :: more) = d :: more := by
    rw [trimStart, List.dropWhile_append_of_pos blank, List.dropWhile_cons_of_neg (by simp [notBlank])]
  have slash : startsWithComment (d :: more) = false := by
    have other : d ≠ '/' := by
      rintro rfl
      cases quietFirst
    simp [startsWithComment, startsWith, List.isPrefixOf, other.symm]
  have visible := codeFirst.isCommentAt
  rw [line] at visible ⊢
  rw [commented_ofClean, trimmed, indented, slash, visible]
  simp

end

/-! ### Classes -/

private theorem lineDeclaration?_cases {widgets : List String} {line : SourceLine} {decl : Declaration}
    {fromCode : Bool} (found : lineDeclaration? widgets line = some (decl, fromCode)) :
    fromCode = false ∧ declaration? widgets line.raw = some decl ∧ insideString line decl.offset = false ∨
      fromCode = true ∧ declaration? widgets line.clean.code = some decl := by
  unfold lineDeclaration? at found
  split at found
  · cases found
  split at found
  case h_1 other fits =>
    cases found
    obtain ⟨read, outside⟩ := Option.filter_eq_some_iff.mp fits
    exact .inl ⟨rfl, read, by simpa using outside⟩
  case h_2 =>
    obtain ⟨other, read, same⟩ := Option.map_eq_some_iff.mp found
    cases same
    exact .inr ⟨rfl, read⟩

structure SourceLine.IsRead (line : SourceLine) (nest : Nest) : Prop where
  quoted : nest.IsQuoted
  shape : line = .ofClean line.number line.raw line.clean
  clean : line.clean = (sanitizeLine nest line.raw).1

section
variable {nest : Nest} {line : SourceLine} {widgets : List String} {decl : Declaration}

/-- A name found in the code of a line is code. -/
private theorem SourceLine.IsRead.standsAsCode (isRead : line.IsRead nest)
    (found : declaration? widgets line.clean.code = some decl) (named : decl.name.toList.head? ≠ some '<') :
    StandsAsCode decl.name (markLine nest line.raw) decl.offset := by
  obtain ⟨lead, head, rest, -, -, isName, split, offset⟩ := namedIn_of_declaration? found named
  rw [isRead.clean, sanitizeLine_fst, ← List.append_assoc] at split
  rw [offset]
  exact standsAsCode_of_codeOf_eq isName.ne_nil isName.blank_notMem split

/-- A name that begins as code stands on a line that is not commented. -/
private theorem SourceLine.IsRead.commented_eq_false (isRead : line.IsRead nest) (namedIn : decl.NamedIn line.raw)
    {c : Char} {word : List Char} (begins : decl.name.toList = c :: word)
    (code : MarkAt (markLine nest line.raw) decl.offset c .code) : line.commented = false := by
  obtain ⟨lead, head, rest, isLead, quiet, isName, split, offset⟩ := namedIn
  have starts : isNameStart c := by
    obtain ⟨d, others, same, starts, -⟩ := isName
    rwa [(List.cons.inj (begins.symm.trans same)).1]
  rw [begins, List.cons_append, ← List.append_assoc] at split
  rw [split, offset] at code
  have quietLine : ∀ d ∈ lead ++ head, isQuiet d := by
    cases isLead with
    | indent blank =>
      exact fun d member => (List.mem_append.mp member).elim (fun inLead => isQuiet_of_isBlank (blank d inLead)) (quiet d)
    | @marker margin inner fill count blank filler innerBlank =>
      have quietMargin : ∀ d ∈ margin, isQuiet d := fun d member => isQuiet_of_isBlank (blank d member)
      have quietText : ∀ d ∈ inner ++ head, isQuiet d := fun d member =>
        (List.mem_append.mp member).elim (fun inInner => isQuiet_of_isBlank (innerBlank d inInner)) (quiet d)
      have shape : margin ++ ('/' :: List.replicate (count + 1) fill ++ inner) ++ head =
          margin ++ ('/' :: List.replicate (count + 1) fill ++ (inner ++ head)) := by simp
      exact absurd rfl (ne_code_of_marker isRead.quoted filler quietMargin quietText (isQuiet_of_isNameStart starts)
        shape code)
  rw [isRead.shape, isRead.clean, split]
  exact commented_of_code line.number isRead.quoted quietLine starts code

/-- A name found in a line, and not in a literal, begins as code or in a comment. -/
private theorem SourceLine.IsRead.exists_mark (isRead : line.IsRead nest)
    (found : declaration? widgets line.raw = some decl) (named : decl.name.toList.head? ≠ some '<')
    (outside : insideString line decl.offset = false) :
    ∃ c word mark, decl.name.toList = c :: word ∧ MarkAt (markLine nest line.raw) decl.offset c mark ∧
      (mark = .code ∧ line.commented = false ∨ mark = .comment) := by
  have namedIn := namedIn_of_declaration? found named
  have ⟨lead, head, rest, _, _, isName, split, offset⟩ := namedIn
  obtain ⟨c, word, begins, starts, -⟩ := isName
  have stands : StandsAt (c :: word) line.raw decl.offset :=
    ⟨lead ++ head, rest, by rw [split, begins, List.append_assoc], offset.symm⟩
  obtain ⟨mark, marked⟩ := stands.exists_markAt nest
  refine ⟨c, word, mark, begins, marked, ?_⟩
  by_cases comment : mark = .comment
  · exact .inr comment
  have notComment : line.clean.isCommentAt decl.offset = false := by
    rw [isRead.clean, marked.isCommentAt]
    exact beq_false_of_ne comment
  have shown : charAt? line.raw decl.offset = charAt? line.clean.code decl.offset := by
    simpa [insideString, notComment] using outside
  rw [isRead.clean] at shown
  have notBlank : c ≠ ' ' := by
    rintro rfl
    exact absurd starts (by decide)
  obtain rfl := marked.eq_code_of_charAt? notBlank shown
  exact .inl ⟨rfl, isRead.commented_eq_false namedIn begins marked⟩

end

section
variable {withFunctions : Bool} {file : Path} {contents : List Char} {visit : Visit}

theorem Visit.exists_isRead (member : visit ∈ visits withFunctions file contents) :
    ∃ nest, visit.line.IsRead nest := by
  obtain ⟨here, shape⟩ := of_mem_sourceLines (visit.line_mem member)
  obtain ⟨nest, quoted, clean⟩ := here.exists_nest
  exact ⟨nest, quoted, shape, clean⟩

/-- A class with a name stands in its line and begins with a character that is code or in a comment. Only in the
first case can what is around it make it count as commented out. -/
structure StandsMarked (nest : Nest) (visit : Visit) (entity : ClassEntity) (mark : Mark) : Prop where
  isName : IsName entity.name.toList
  stands : StandsAt entity.name.toList visit.line.raw entity.offset
  marked : ∃ c word, entity.name.toList = c :: word ∧ MarkAt (markLine nest visit.line.raw) entity.offset c mark
  commentedOut : entity.commentedOut = (mark == .comment || visit.before.scope.abandon.commentedOut)

theorem Visit.exists_standsMarked {entity : ClassEntity} {nest : Nest}
    (member : visit ∈ visits withFunctions file contents) (isRead : visit.line.IsRead nest)
    (adds : visit.Adds (·.classes) entity) (named : entity.isAnonymous = false) :
    ∃ mark, mark ≠ .literal ∧ StandsMarked nest visit entity mark := by
  obtain ⟨decl, fromCode, found, name, -, -, offset, commentedOut⟩ := visit.exists_declaration member adds
  have named : decl.name.toList.head? ≠ some '<' := by
    rw [← name]
    exact ne_of_beq_false named
  rcases lineDeclaration?_cases found with ⟨rfl, read, outside⟩ | ⟨rfl, read⟩
  · obtain ⟨lead, head, rest, -, -, isName, split, place⟩ := namedIn_of_declaration? read named
    obtain ⟨c, word, mark, begins, marked, live⟩ := isRead.exists_mark read named outside
    have comment : visit.line.clean.isCommentAt decl.offset = (mark == .comment) := by
      rw [isRead.clean, marked.isCommentAt]
    refine ⟨mark, ?_, by rwa [name], ?_, ⟨c, word, by rw [name, begins], by rwa [offset]⟩, ?_⟩
    · rcases live with ⟨rfl, -⟩ | rfl <;> nofun
    · rw [name, offset, place]
      exact ⟨lead ++ head, rest, by rw [split, List.append_assoc], rfl⟩
    · rw [commentedOut, comment]
      rcases live with ⟨rfl, plain⟩ | rfl
      · simp [plain, Bool.or_comm]
      · simp
  · have code := isRead.standsAsCode read named
    obtain ⟨-, -, -, -, -, isName, -⟩ := namedIn_of_declaration? read named
    have ⟨c, word, begins, _⟩ := isName
    refine ⟨.code, nofun, by rwa [name], ?_, ⟨c, word, by rw [name, begins], ?_⟩, ?_⟩
    · rw [name, offset]
      exact code.standsAt_raw
    · rw [offset]
      exact code.markAt begins
    · rw [commentedOut]
      simp

/-! ### Functions -/

private theorem text_ofClean (number : Nat) (raw : List Char) (clean : SanitizedLine) :
    ((SourceLine.ofClean number raw clean).text, (SourceLine.ofClean number raw clean).base) =
      if (SourceLine.ofClean number raw clean).commented then stripMarker raw else (clean.code, 0) := by
  unfold SourceLine.ofClean
  dsimp only
  split <;> rfl

/-- A function stands in its line. It is visible as a whole unless the line is commented. -/
theorem Visit.function_stands {entity : FunctionEntity} {nest : Nest}
    (member : visit ∈ visits withFunctions file contents) (isRead : visit.line.IsRead nest)
    (adds : visit.Adds (·.functions) entity) :
    StandsAt (firstPart entity.name) visit.line.raw entity.offset ∧
      (visit.line.commented = false → StandsAt (firstPart entity.name) visit.line.clean.code entity.offset) ∧
      entity.commentedOut = (visit.line.commented || visit.before.scope.commentedOut) := by
  obtain ⟨context, above, below, definition, -, found, name, -, -, -, offset, -, commentedOut⟩ :=
    visit.exists_definition member adds
  obtain ⟨stands, nonempty, noBlank, -⟩ := standsAt_of_definitionAt? found
  rw [← name] at stands nonempty noBlank
  have text := text_ofClean visit.line.number visit.line.raw visit.line.clean
  rw [← isRead.shape] at text
  cases commented : visit.line.commented with
  | true =>
    rw [commented, if_pos rfl] at text
    obtain ⟨before, after, split, start⟩ := exists_stripMarker visit.line.raw
    rw [← text] at split start
    dsimp only at split start
    refine ⟨?_, nofun, by rw [commentedOut, commented]; rfl⟩
    rw [split, offset, ← start]
    exact stands.append_left before after
  | false =>
    rw [commented, if_neg nofun] at text
    obtain ⟨same, base⟩ := Prod.mk.inj text
    rw [base, Nat.zero_add] at offset
    rw [same, isRead.clean, sanitizeLine_fst, ← offset] at stands
    obtain ⟨before, after, split, start⟩ := stands
    have code : StandsAsCode (String.ofList (firstPart entity.name)) (markLine nest visit.line.raw) entity.offset := by
      rw [← start]
      apply standsAsCode_of_codeOf_eq <;> rwa [String.toList_ofList]
    have raw := code.standsAt_raw
    have visible := code.standsAt_code
    rw [String.toList_ofList] at raw visible
    refine ⟨raw, fun _ => by rwa [isRead.clean, sanitizeLine_fst], ?_⟩
    obtain ⟨c, word, begins⟩ := List.exists_cons_of_ne_nil nonempty
    have marked := code.markAt (by rw [String.toList_ofList, begins])
    rw [commentedOut, commented, isRead.clean, marked.isCommentAt]
    rfl

end

/-! ### What counts as commented out -/

/-- Whether a declaration is read from a line with its comments, and not only from its code. -/
def Visit.readsComments (visit : Visit) : Bool :=
  (declaration? visit.before.widgets visit.line.raw).any (!insideString visit.line ·.offset)

private theorem Visit.readsComments_eq {visit : Visit} {decl : Declaration} {fromCode : Bool}
    (found : lineDeclaration? visit.before.widgets visit.line = some (decl, fromCode)) :
    visit.readsComments = !fromCode := by
  unfold lineDeclaration? at found
  split at found
  · cases found
  rw [readsComments, ← Option.isSome_filter]
  split at found
  case h_1 read =>
    cases found
    rw [read]
    rfl
  case h_2 unread =>
    obtain ⟨_, _, same⟩ := Option.map_eq_some_iff.mp found
    cases same
    rw [unread]
    rfl

/-- A class counts as commented out exactly when its name begins in a comment or a class around it counts so. For an
extension without a name, if it is not read from the code only, the start of the line counts too; and for a function it
decides in place of the name. What is around a line was recorded before. -/
theorem commentedOut_of_recorded (withFunctions : Bool) (file : Path) (contents : List Char) :
    (∀ entity ∈ (scan withFunctions file contents).classes,
      ∃ visit ∈ visits withFunctions file contents, visit.line.number = entity.line ∧
        (entity.isAnonymous = false → entity.commentedOut =
          (visit.line.clean.isCommentAt entity.offset || visit.before.scope.abandon.commentedOut)) ∧
        (entity.isAnonymous → entity.commentedOut =
          (visit.readsComments && (visit.line.clean.isCommentAt entity.offset || visit.line.commented) ||
            visit.before.scope.abandon.commentedOut))) ∧
    (∀ entity ∈ (scan withFunctions file contents).functions,
      ∃ visit ∈ visits withFunctions file contents, visit.line.number = entity.line ∧
        entity.commentedOut = (visit.line.commented || visit.before.scope.commentedOut)) ∧
    ∀ visit ∈ visits withFunctions file contents, ∀ entry ∈ visit.before.scope.entries,
      ∃ outer ∈ (scan withFunctions file contents).classes, outer.line < visit.line.number ∧
        outer.name = entry.name ∧ outer.commentedOut = entry.commentedOut := by
  refine ⟨?_, ?_, fun visit member entry around => visit.exists_class_of_mem_entries member around⟩
  · intro entity recorded
    obtain ⟨visit, member, adds⟩ := mem_classes_iff.mp recorded
    obtain ⟨decl, fromCode, found, -, -, number, offset, commentedOut⟩ := visit.exists_declaration member adds
    refine ⟨visit, member, number.symm, fun named => ?_, fun _ => ?_⟩
    · obtain ⟨nest, isRead⟩ := visit.exists_isRead member
      obtain ⟨mark, -, marked⟩ := visit.exists_standsMarked member isRead adds named
      obtain ⟨c, word, -, here⟩ := marked.marked
      rw [marked.commentedOut, isRead.clean, here.isCommentAt]
    · rw [commentedOut, ← offset, visit.readsComments_eq found, Bool.or_comm, Bool.or_comm visit.line.commented]
  · intro entity recorded
    obtain ⟨visit, member, adds⟩ := mem_functions_iff.mp recorded
    obtain ⟨nest, isRead⟩ := visit.exists_isRead member
    obtain ⟨_, _, _, _, _, _, _, _, _, number, _⟩ := visit.exists_definition member adds
    exact ⟨visit, member, number.symm, (visit.function_stands member isRead adds).2.2⟩

/-- A function after a closed comment, one below a comment that begins like a declaration, and an extension whose
parameters close a comment, stand in live code and count as commented out. -/
theorem live_counted_as_commentedOut :
    (scan true ⟨"a.dart"⟩ "/* note */ void foo() \x7b\x7d".toList).functions.map
        (fun entity => (entity.name, entity.line, entity.offset, entity.commentedOut)) = [("foo", 1, 16, true)] ∧
      (sanitize (lines "/* note */ void foo() \x7b\x7d".toList)).map (·.isCommentAt 16) = [false] ∧
    (scan true ⟨"a.dart"⟩ "// class helpers live here\nvoid foo() \x7b\x7d".toList).functions.map
        (fun entity => (entity.name, entity.line, entity.offset, entity.commentedOut)) = [("foo", 2, 5, true)] ∧
      (sanitize (lines "// class helpers live here\nvoid foo() \x7b\x7d".toList)).map (·.isCommentAt 5) = [true, false] ∧
    (scan true ⟨"a.dart"⟩ "/* extension<*/ T> on A \x7b\x7d".toList).classes.map
        (fun entity => (entity.name, entity.line, entity.offset, entity.commentedOut)) =
          [("<extension on A>", 1, 22, true)] ∧
      (sanitize (lines "/* extension<*/ T> on A \x7b\x7d".toList)).map (·.isCommentAt 22) = [false] := by
  decide +kernel

/-! ### Hidden declarations -/

/-- The declaration that the code of a line shows is hidden: the line counts as documentation, or another
declaration, or the same one in a comment, is read from the line with its comments. -/
def Hidden (widgets : List String) (line : SourceLine) (decl : Declaration) : Prop :=
  isDocComment (trim line.raw) ∨
    ∃ other, declaration? widgets line.raw = some other ∧ insideString line other.offset = false ∧
      ¬ (other.name = decl.name ∧ other.offset = decl.offset ∧ line.commented = false ∧
        line.clean.isCommentAt other.offset = false)

section
variable {withFunctions : Bool} {file : Path} {contents : List Char} {visit : Visit}

private theorem Visit.map_filter_classes {decl : Declaration} {fromCode : Bool}
    (member : visit ∈ visits withFunctions file contents)
    (found : lineDeclaration? visit.before.widgets visit.line = some (decl, fromCode)) :
    ((scan withFunctions file contents).classes.filter (·.line == visit.line.number)).map
        (fun entity => (entity.name, entity.offset, entity.commentedOut)) =
      [(decl.name, decl.offset, visit.before.scope.abandon.commentedOut ||
        !fromCode && (visit.line.commented || visit.line.clean.isCommentAt decl.offset))] := by
  obtain ⟨entity, adds⟩ := visit.exists_adds member found
  obtain ⟨other, otherFromCode, again, name, -, -, offset, commentedOut⟩ := visit.exists_declaration member adds
  obtain ⟨rfl, rfl⟩ := Prod.mk.inj (Option.some.inj (found.symm.trans again))
  rw [visit.filter_classes_of_adds member adds, List.map_singleton, name, offset, commentedOut]

/-- For a line whose code shows a declaration, outside of what is commented out, that declaration is recorded as a
live one, and nothing else is, exactly when it is not hidden. -/
theorem classes_of_line_iff {decl : Declaration} (member : visit ∈ visits withFunctions file contents)
    (shown : declaration? visit.before.widgets visit.line.clean.code = some decl)
    (live : visit.before.scope.abandon.commentedOut = false) :
    ((scan withFunctions file contents).classes.filter (·.line == visit.line.number)).map
        (fun entity => (entity.name, entity.offset, entity.commentedOut)) = [(decl.name, decl.offset, false)] ↔
      ¬ Hidden visit.before.widgets visit.line decl := by
  by_cases documents : isDocComment (trim visit.line.raw)
  · have none : lineDeclaration? visit.before.widgets visit.line = none := by rw [lineDeclaration?, if_pos documents]
    rw [visit.filter_classes_of_none member none]
    exact iff_of_false nofun fun visible => visible (.inl documents)
  cases read : (declaration? visit.before.widgets visit.line.raw).filter (!insideString visit.line ·.offset) with
  | none =>
    have found : lineDeclaration? visit.before.widgets visit.line = some (decl, true) := by
      rw [lineDeclaration?, if_neg documents, read, shown]
      rfl
    rw [visit.map_filter_classes member found, live]
    refine iff_of_true rfl ?_
    rintro (documented | ⟨other, raw, outside, -⟩)
    · exact documents documented
    · rw [raw, Option.filter_some, if_pos (by simp [outside])] at read
      cases read
  | some other =>
    have found : lineDeclaration? visit.before.widgets visit.line = some (other, false) := by
      rw [lineDeclaration?, if_neg documents, read]
    obtain ⟨raw, outside⟩ := Option.filter_eq_some_iff.mp read
    have outside : insideString visit.line other.offset = false := by simpa using outside
    have hidden : Hidden visit.before.widgets visit.line decl ↔ ¬ (other.name = decl.name ∧ other.offset = decl.offset ∧
        visit.line.commented = false ∧ visit.line.clean.isCommentAt other.offset = false) := by
      simp [Hidden, documents, raw, outside]
    rw [visit.map_filter_classes member found, hidden, live]
    simp

end

theorem class_after_comment_shown :
    ∃ visit ∈ visits true ⟨"a.dart"⟩ "/* x */ class Foo \x7b\x7d".toList, ∃ decl : Declaration,
      decl.name = "Foo" ∧ declaration? visit.before.widgets visit.line.clean.code = some decl ∧
      visit.before.scope.abandon.commentedOut = false ∧
      (((scan true ⟨"a.dart"⟩ "/* x */ class Foo \x7b\x7d".toList).classes.filter (·.line == visit.line.number)).map
          (fun entity => (entity.name, entity.offset, entity.commentedOut)) = [(decl.name, decl.offset, false)] ↔
        ¬ Hidden visit.before.widgets visit.line decl) :=
  ⟨(visits true ⟨"a.dart"⟩ "/* x */ class Foo \x7b\x7d".toList).head (by decide +kernel), List.head_mem _,
    ⟨"Foo", .plainClass, 14, false⟩, rfl, by decide +kernel, by decide +kernel,
    classes_of_line_iff (List.head_mem _) (by decide +kernel) (by decide +kernel)⟩

/-- Live classes that are not recorded, behind a comment that holds another declaration and behind a closed
documentation comment. -/
theorem classes_hidden_by_comment :
    (scan true ⟨"a.dart"⟩ "/* class A */ class Foo \x7b\x7d".toList).classes.map
        (fun entity => (entity.name, entity.offset, entity.commentedOut)) = [("A", 9, true)] ∧
      (sanitize (lines "/* class A */ class Foo \x7b\x7d".toList)).map (fun line => declaration? [] line.code) =
        [some ⟨"Foo", .plainClass, 20, false⟩] ∧
    (scan true ⟨"a.dart"⟩ "/** doc */ class Foo \x7b\x7d".toList).classes = [] ∧
      (sanitize (lines "/** doc */ class Foo \x7b\x7d".toList)).map (fun line => declaration? [] line.code) =
        [some ⟨"Foo", .plainClass, 17, false⟩] := by
  decide +kernel

/-! ### Positions -/

/-- A name without blanks is visible exactly where it is code as a whole. -/
private theorem standsAt_code_iff {name : String} {marks : List (Char × Mark)} {column : Nat}
    (isName : IsName name.toList) : StandsAt name.toList (codeOf marks) column ↔ StandsAsCode name marks column := by
  refine ⟨?_, StandsAsCode.standsAt_code⟩
  rintro ⟨before, after, shown, rfl⟩
  exact standsAsCode_of_codeOf_eq isName.ne_nil isName.blank_notMem shown

/-- Every recorded class with a name, and every recorded function with the part of its name before a dot, stands at
its position. If it is live, the function is visible there; the class begins there in visible code and is visible as
a whole unless its last letter makes a literal a raw one. -/
theorem recorded_stands (withFunctions : Bool) (file : Path) (contents : List Char) :
    (∀ entity ∈ (scan withFunctions file contents).classes, entity.isAnonymous = false →
      ∃ raw clean, LineAt contents entity.line raw clean ∧ StandsAt entity.name.toList raw entity.offset ∧
        (entity.commentedOut = false → charAt? clean.code entity.offset = entity.name.toList.head? ∧
          (StandsAt entity.name.toList clean.code entity.offset ↔
            ¬ EndsRaw entity.name.toList raw entity.offset))) ∧
    ∀ entity ∈ (scan withFunctions file contents).functions,
      ∃ raw clean, LineAt contents entity.line raw clean ∧ StandsAt (firstPart entity.name) raw entity.offset ∧
        (entity.commentedOut = false → StandsAt (firstPart entity.name) clean.code entity.offset) := by
  constructor
  · intro entity recorded named
    obtain ⟨visit, member, adds⟩ := mem_classes_iff.mp recorded
    obtain ⟨nest, isRead⟩ := visit.exists_isRead member
    obtain ⟨_, _, _, _, _, number, _⟩ := visit.exists_declaration member adds
    obtain ⟨mark, notLiteral, marked⟩ := visit.exists_standsMarked member isRead adds named
    refine ⟨visit.line.raw, visit.line.clean, ?_, marked.stands, fun live => ?_⟩
    · rw [number]
      exact (of_mem_sourceLines (visit.line_mem member)).1
    obtain ⟨c, word, begins, here⟩ := marked.marked
    obtain rfl : mark = .code := by
      have notComment := marked.commentedOut.symm.trans live
      cases mark with
      | code => rfl
      | literal => exact absurd rfl notLiteral
      | comment => simp at notComment
    obtain ⟨before, after, split, start⟩ := marked.stands
    rw [isRead.clean]
    refine ⟨by rw [here.charAt?_code, begins]; rfl, ?_⟩
    rw [sanitizeLine_fst, standsAt_code_iff marked.isName, ← start]
    rw [← start] at here
    exact standsAsCode_iff isRead.quoted (isQuiet_of_isName marked.isName) begins split here
  · intro entity recorded
    obtain ⟨visit, member, adds⟩ := mem_functions_iff.mp recorded
    obtain ⟨nest, isRead⟩ := visit.exists_isRead member
    obtain ⟨_, _, _, _, _, _, _, _, _, number, _⟩ := visit.exists_definition member adds
    obtain ⟨stands, visible, commentedOut⟩ := visit.function_stands member isRead adds
    refine ⟨visit.line.raw, visit.line.clean, ?_, stands, fun live => visible ?_⟩
    · rw [number]
      exact (of_mem_sourceLines (visit.line_mem member)).1
    · exact (Bool.or_eq_false_iff.mp (commentedOut.symm.trans live)).1

/-- A live class whose last letter is not visible. -/
theorem class_ends_in_literal :
    (scan true ⟨"a.dart"⟩ "class Aér'x' \x7b\x7d".toList).classes.map
        (fun entity => (entity.name, entity.offset, entity.commentedOut)) = [("Aér", 6, false)] ∧
      (sanitize (lines "class Aér'x' \x7b\x7d".toList)).map (·.code) = ["class Aé     \x7b\x7d".toList] := by
  decide +kernel

end DeadCode.Source
