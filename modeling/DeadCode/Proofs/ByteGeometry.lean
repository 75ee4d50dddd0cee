import DeadCode.Proofs.ByteReader

/-!
Blanking keeps bytes in place. From one character to the next the reader of bytes does what the reader of characters
does, so it never blanks a part of a character, although an escape may leave it inside of one. Main statement: the
blanked lines of a file are as long as the lines, byte by byte the same or blank, and what the reader of bytes leaves of
the lines is their text.
-/
namespace DeadCode.Source
open DeadCode.Text

namespace ByteReader

/-! ### Steps -/

/-- The reader does not stand between the mark of a raw literal and its quote. -/
def Apart (nest : Nest) (before : List (Char × Mark)) (text : List Char) : Prop :=
  readsCode nest.mode → ∀ c ∈ text.head?, isQuote c → endsRaw before = false

structure Follows (nest : Nest) (before : List (Char × Mark)) (c : Char) (rest : List Char) (now : Step) : Prop where
  passes : Passes nest before ((c, now.mark) :: rest.zip now.ahead) now.nest (rest.drop now.ahead.length)
  apart : Apart now.nest (before ++ (c, now.mark) :: rest.zip now.ahead) (rest.drop now.ahead.length)

section
variable {nest after : Nest} {before : List (Char × Mark)} {c : Char} {rest : List Char} {mark : Mark}

theorem Apart.of_last (spelled : List (Char × Mark)) {last : Char} (other : last ≠ 'r') (mark : Mark)
    (text : List Char) : Apart nest (before ++ (spelled ++ [(last, mark)])) text := by
  intro _ _ _ _
  have isLast : lastOf none (before ++ (spelled ++ [(last, mark)])) = some last := by
    rw [lastOf, ← List.append_assoc, List.getLast?_concat]
    rfl
  rw [endsRaw, isLast, beq_eq_false_iff_ne.mpr (mt Option.some.inj other), Bool.false_and]

theorem Apart.of_mode (inside : readsCode nest.mode = false) (text : List Char) : Apart nest before text :=
  fun code => absurd code (inside ▸ Bool.false_ne_true)

/-- What is taken together has the same mark. -/
theorem Follows.token (others follow : List Char) (passes : Passes nest before (marked mark (c :: others)) after follow)
    (apart : Apart after (before ++ marked mark (c :: others)) follow) :
    Follows nest before c (others ++ follow) ⟨mark, others.map fun _ => mark, after⟩ := by
  have pairs : (others ++ follow).zip (others.map fun _ => mark) = marked mark others := by
    rw [← List.append_nil (others.map _), List.zip_append (by simp), List.zip_nil_right, List.append_nil,
      ← List.map_prod_left_eq_zip, marked]
  have left : (others ++ follow).drop (others.map fun _ => mark).length = follow := by
    rw [List.length_map, List.drop_left]
  constructor
  · rw [pairs, left]
    exact passes
  · rw [pairs, left]
    exact apart

/-- A round that passes over ASCII characters. -/
theorem Follows.of_pass (others follow : List Char) (ascii : ∀ d ∈ c :: others, IsAscii d)
    (now : readMode (between nest before (c :: (others ++ follow))) =
      (between nest before (c :: (others ++ follow))).pass (others.length + 1) mark after)
    (apart : Apart after (before ++ marked mark (c :: others)) follow) :
    Follows nest before c (others ++ follow) ⟨mark, others.map fun _ => mark, after⟩ :=
  .token others follow (.round (now.trans (pass_between (c :: others) follow ascii))) apart

/-! ### Comments -/

private theorem readMode_comment (before : List (Char × Mark)) (text : List Char) {depth : Nat}
    (mode : nest.mode = .comment depth) :
    readMode (between nest before text) = readComment (between nest before text) depth := by
  have same : (between nest before text).nest.mode = .comment depth := mode
  rw [readMode, same]

private theorem follows_comment {depth : Nat} (mode : nest.mode = .comment depth) (ascii : IsAscii c) :
    Follows nest before c rest (commentStep nest depth c rest) := by
  have reads := readMode_comment before (c :: rest) mode
  have opens_iff := sees_two nest before c rest (d := '/') (e := '*') (by decide) (by decide)
  have closes_iff := sees_two nest before c rest (d := '*') (e := '/') (by decide) (by decide)
  by_cases opens : c = '/' ∧ rest.head? = some '*'
  · have now := reads.trans (if_pos (opens_iff.mpr opens))
    obtain ⟨rfl, next⟩ := opens
    obtain ⟨more, rfl⟩ := List.head?_eq_some_iff.mp next
    exact Follows.of_pass ['*'] more (isAscii_of_all (by decide)) now (.of_mode rfl more)
  by_cases closes : c = '*' ∧ rest.head? = some '/'
  · have now := reads.trans ((if_neg (mt opens_iff.mp opens)).trans (if_pos (closes_iff.mpr closes)))
    obtain ⟨rfl, next⟩ := closes
    obtain ⟨more, rfl⟩ := List.head?_eq_some_iff.mp next
    exact Follows.of_pass ['/'] more (isAscii_of_all (by decide)) now
      (.of_last [('*', .comment)] (by decide) .comment more)
  · have now := reads.trans ((if_neg (mt opens_iff.mp opens)).trans (if_neg (mt closes_iff.mp closes)))
    rw [commentStep_plain opens closes]
    exact Follows.of_pass [] rest (List.forall_mem_singleton.mpr ascii) now (.of_mode (by rw [mode]; rfl) rest)

/-! ### Literals -/

private theorem isAscii_of_mem_run (quote : Quote) (triple : Bool) : ∀ c ∈ quote.run triple, IsAscii c := by
  cases quote <;> cases triple <;> exact isAscii_of_all (by decide)

private theorem exists_quote {c : Char} (quotes : isQuote c) : ∃ quote : Quote, quote.char = c := by
  rcases Bool.or_eq_true_iff.mp quotes with single | double
  · exact ⟨.single, (beq_iff_eq.mp single).symm⟩
  · exact ⟨.double, (beq_iff_eq.mp double).symm⟩

private theorem quoteTail_eq (quote : Quote) (triple : Bool) :
    quoteTail triple = (quote.others triple).map fun _ => .literal := by
  rw [← map_snd_others quote triple, marked, List.map_map]
  rfl

/-- After the quotes of a literal no `r` was read last. -/
private theorem Apart.of_quotes (quote : Quote) (triple : Bool) (text : List Char) :
    Apart nest (before ++ marked .literal (quote.run triple)) text := by
  have other : quote.char ≠ 'r' := by cases quote <;> decide
  cases triple with
  | false => exact .of_last [] other .literal text
  | true => exact .of_last [(quote.char, .literal), (quote.char, .literal)] other .literal text

private theorem readMode_string (before : List (Char × Mark)) (text : List Char) {quote : Char} {triple raw : Bool}
    (mode : nest.mode = .string quote triple raw) :
    readMode (between nest before text) = readString (between nest before text) quote triple raw := by
  have same : (between nest before text).nest.mode = .string quote triple raw := mode
  rw [readMode, same]

/-- An escape passes over the backslash and one byte. Where that is not all of a character, the other bytes are those of
the literal. -/
private theorem passes_cut (quoted : nest.IsQuoted) {quote : Char} {triple : Bool}
    (mode : nest.mode = .string quote triple false) {d : Char} (other : ¬ IsAscii d) {more : List Char}
    (now : readMode (between nest before ('\\' :: d :: more)) =
      (between nest before ('\\' :: d :: more)).pass 2 .literal nest) :
    Passes nest before (marked .literal ['\\', d]) nest more := by
  obtain ⟨byte, others, bytes⟩ := List.exists_cons_of_ne_nil (String.utf8EncodeChar_ne_nil (c := d))
  have high : ∀ byte ∈ others, 128 ≤ byte.toNat := fun byte member =>
    high_of_mem_encode other (bytes ▸ List.mem_cons_of_mem _ member)
  have size : others.length + 1 = d.utf8Size := by rw [← String.length_utf8EncodeChar, bytes, List.length_cons]
  have cut : (between nest before ('\\' :: d :: more)).pass 2 .literal nest =
      ⟨nest, (byte, .literal) :: ('\\'.toUInt8, .literal) :: (bytesOf before).reverse, others ++ utf8 more⟩ := by
    rw [pass, between, utf8_cons, utf8_cons, bytes]
    rfl
  have inside : nest.mode.mark = .literal := by rw [mode]; rfl
  refine ⟨others.length + 1, ?_, ?_⟩
  · rw [map_fst_marked, byteLength_cons, byteLength_cons, size]
    omega
  · rw [map_fst_marked, Function.iterate_succ_apply]
    show next^[others.length] (next (between nest before ('\\' :: d :: more))) = _
    rw [next_between, now, cut, iterate_next_high _ _ quoted high, inside, between, bytesOf_append, bytesOf_marked,
      utf8_cons, utf8_cons, bytes, encode_of_isAscii (c := '\\') (by decide)]
    simp

private theorem follows_escape (quoted : nest.IsQuoted) {quote : Char} {triple : Bool}
    (mode : nest.mode = .string quote triple false) :
    Follows nest before '\\' rest ⟨.literal, [.literal], nest⟩ := by
  have inside : readsCode nest.mode = false := by rw [mode]; rfl
  have now := (readMode_string before ('\\' :: rest) mode).trans
    (if_pos (by rw [Bool.not_false, Bool.true_and]; exact (sees_one nest before '\\' rest (by decide)).mpr rfl))
  cases rest with
  | nil =>
    have alone : Passes nest before (marked .literal ['\\']) nest [] := .round (now.trans (pass_all (by decide)))
    exact ⟨alone, .of_mode inside _⟩
  | cons d more =>
    by_cases ascii : IsAscii d
    · exact Follows.of_pass [d] more (List.forall_mem_cons.mpr ⟨by decide, List.forall_mem_singleton.mpr ascii⟩) now
        (.of_mode inside _)
    · exact Follows.token [d] more (passes_cut quoted mode ascii now) (.of_mode inside _)

/-- Inside of a literal bytes tell what comes next as characters do. -/
private theorem readString_between (quote : Quote) (triple raw : Bool) :
    readString (between nest before (c :: rest)) quote.char triple raw =
      if !raw && c == '\\' then (between nest before (c :: rest)).pass 2 .literal nest
      else if !raw && c == '$' && rest.head? == some '{' then
        (between nest before (c :: rest)).pass 2 .literal (.interpolation 0 :: nest)
      else if c == quote.char && (!triple || opensTriple quote.char rest) then
        (between nest before (c :: rest)).pass (quote.run triple).length .literal nest.tail
      else (between nest before (c :: rest)).pass 1 .literal nest := by
  have escapes : (between nest before (c :: rest)).sees ['\\'] = (c == '\\') := by
    rw [Bool.eq_iff_iff, sees_one _ _ _ _ (by decide), beq_iff_eq]
  have expression : (between nest before (c :: rest)).sees ['$', '{'] = (c == '$' && rest.head? == some '{') := by
    rw [Bool.eq_iff_iff, sees_two _ _ _ _ (by decide) (by decide), Bool.and_eq_true, beq_iff_eq, beq_iff_eq]
  have run : (if triple then [quote.char, quote.char, quote.char] else [quote.char]) = quote.run triple := by
    cases triple <;> rfl
  have width : (if triple then 3 else 1) = (quote.run triple).length := by cases triple <;> rfl
  rw [readString, escapes, expression, run, sees_between (isAscii_of_mem_run quote triple), isPrefixOf_run, width,
    ← Bool.and_assoc]
  rfl

private theorem follows_string (quoted : nest.IsQuoted) {quote : Quote} {triple raw : Bool}
    (mode : nest.mode = .string quote.char triple raw) (ascii : IsAscii c) :
    Follows nest before c rest (stringStep nest quote.char triple raw c rest) := by
  have reads := (readMode_string before (c :: rest) mode).trans (readString_between quote triple raw)
  unfold stringStep
  split
  case isTrue escape =>
    obtain ⟨plain, same⟩ := Bool.and_eq_true_iff.mp escape
    obtain rfl : raw = false := by simpa using plain
    obtain rfl := beq_iff_eq.mp same
    exact follows_escape quoted mode
  case isFalse escape =>
  rw [if_neg escape] at reads
  split
  case isTrue opens =>
    rw [if_pos opens] at reads
    obtain ⟨plain, next⟩ := Bool.and_eq_true_iff.mp opens
    obtain ⟨-, same⟩ := Bool.and_eq_true_iff.mp plain
    obtain rfl := beq_iff_eq.mp same
    obtain ⟨more, rfl⟩ := List.head?_eq_some_iff.mp (beq_iff_eq.mp next)
    exact Follows.of_pass ['{'] more (isAscii_of_all (by decide)) reads
      (.of_last [('$', .literal)] (by decide) .literal more)
  case isFalse opens =>
  rw [if_neg opens] at reads
  split
  case isTrue closes =>
    rw [if_pos closes] at reads
    rw [← isPrefixOf_run, List.isPrefixOf_iff_prefix] at closes
    obtain ⟨follow, split⟩ := closes
    obtain ⟨rfl, rfl⟩ := List.cons.inj split
    rw [quoteTail_eq quote]
    exact Follows.of_pass (quote.others triple) follow (isAscii_of_mem_run quote triple) reads
      (.of_quotes quote triple _)
  case isFalse closes =>
    have inside : readsCode nest.mode = false := by rw [mode]; rfl
    rw [if_neg closes] at reads
    exact Follows.of_pass [] rest (List.forall_mem_singleton.mpr ascii) reads (.of_mode inside rest)

/-! ### Code -/

private theorem readMode_code (before : List (Char × Mark)) (text : List Char) (code : readsCode nest.mode) :
    readMode (between nest before text) = readCode (between nest before text) := by
  have same : readsCode (between nest before text).nest.mode := code
  rw [readMode]
  split
  · rfl
  · rfl
  case h_3 mode => rw [mode] at same; cases same
  case h_4 mode => rw [mode] at same; cases same

/-- Quotes open a literal, with the mark that was found in front of them. -/
private theorem readCode_quote (quote : Quote) (before : List (Char × Mark)) (rest : List Char) :
    readCode (between nest before (quote.char :: rest)) =
      openLiteral (between nest before (quote.char :: rest)) quote := by
  have slashes : ¬ (between nest before (quote.char :: rest)).sees ['/', '/'] := by
    rw [sees_two _ _ _ _ (by decide) (by decide)]
    cases quote <;> simp [Quote.char]
  have star : ¬ (between nest before (quote.char :: rest)).sees ['/', '*'] := by
    rw [sees_two _ _ _ _ (by decide) (by decide)]
    cases quote <;> simp [Quote.char]
  rw [readCode, if_neg slashes, if_neg star]
  cases quote with
  | single => exact if_pos ((sees_one _ _ _ _ (by decide)).mpr rfl)
  | double =>
    refine (if_neg ?_).trans (if_pos ((sees_one _ _ _ _ (by decide)).mpr rfl))
    rw [sees_one _ _ _ _ (by decide)]
    decide

private theorem exists_others (quote : Quote) (rest : List Char) :
    ∃ follow, rest = quote.others (opensTriple quote.char rest) ++ follow := by
  have run : (quote.run (opensTriple quote.char rest)).isPrefixOf (quote.char :: rest) := by
    rw [isPrefixOf_run]
    cases opensTriple quote.char rest <;> simp
  obtain ⟨follow, split⟩ := List.isPrefixOf_iff_prefix.mp run
  exact ⟨follow, (List.cons.inj split).2.symm⟩

private theorem sees_triple (quote : Quote) (before : List (Char × Mark)) (rest : List Char) :
    (between nest before (quote.char :: rest)).sees (quote.run true) = opensTriple quote.char rest := by
  rw [sees_between (isAscii_of_mem_run quote true), isPrefixOf_run, beq_self_eq_true]
  rfl

private theorem openLiteral_plain (quote : Quote) (rest : List Char) (plain : endsRaw before = false) :
    openLiteral (between nest before (quote.char :: rest)) quote =
      (between nest before (quote.char :: rest)).pass (quote.run (opensTriple quote.char rest)).length .literal
        (.string quote.char (opensTriple quote.char rest) false :: nest) := by
  rw [openLiteral, afterRaw_between, plain, sees_triple]
  rfl

/-- The mark of a raw literal is blanked with its quotes. -/
private theorem openLiteral_raw (quote : Quote) (rest : List Char)
    (free : (lastOf none before).any isNameChar = false) :
    openLiteral (between nest (before ++ [('r', .code)]) (quote.char :: rest)) quote =
      (between nest (before ++ [('r', .literal)]) (quote.char :: rest)).pass
        (quote.run (opensTriple quote.char rest)).length .literal
        (.string quote.char (opensTriple quote.char rest) true :: nest) := by
  have isRaw : endsRaw (before ++ [('r', .code)]) := by
    rw [endsRaw, List.dropLast_concat, free, lastOf, List.getLast?_concat]
    rfl
  have blanked : blankLast (between nest (before ++ [('r', .code)]) (quote.char :: rest)) =
      between nest (before ++ [('r', .literal)]) (quote.char :: rest) := by
    rw [between, between, bytesOf_append, bytesOf_append, List.reverse_append, List.reverse_append]
    rfl
  rw [openLiteral, afterRaw_between, isRaw, sees_triple, if_pos rfl, blanked]
  rfl

private def plainCode (nest : Nest) (c : Char) : Mark × Nest :=
  match nest.mode with
  | .interpolation depth =>
    if c = '{' then (.code, nest.withMode (.interpolation (depth + 1)))
    else if c = '}' then
      if depth = 0 then (.literal, nest.tail) else (.code, nest.withMode (.interpolation (depth - 1)))
    else (.code, nest)
  | _ => (.code, nest)

section
variable (comments : ¬ (c = '/' ∧ rest.head? = some '/')) (opens : ¬ (c = '/' ∧ rest.head? = some '*'))
  (plain : isQuote c = false)
include comments opens plain

private theorem readCode_plain : readCode (between nest before (c :: rest)) =
    (between nest before (c :: rest)).pass 1 (plainCode nest c).1 (plainCode nest c).2 := by
  have notSingle : c ≠ '\'' := by rintro rfl; cases plain
  have notDouble : c ≠ '"' := by rintro rfl; cases plain
  have opening := sees_one nest before c rest (d := '{') (by decide)
  have closing := sees_one nest before c rest (d := '}') (by decide)
  rw [readCode, if_neg (mt (sees_two _ _ _ _ (by decide) (by decide)).mp comments),
    if_neg (mt (sees_two _ _ _ _ (by decide) (by decide)).mp opens),
    if_neg (mt (sees_one _ _ _ _ (by decide)).mp notSingle), if_neg (mt (sees_one _ _ _ _ (by decide)).mp notDouble),
    plainCode]
  show (match nest.mode with | .interpolation _ => _ | _ => _) = _
  cases nest.mode with
  | interpolation depth =>
    simp only [opening, closing]
    split_ifs <;> rfl
  | _ => rfl

private theorem codeStep_other {last : Option Char}
    (raw : ¬ (c = 'r' ∧ rest.head?.any isQuote ∧ last.any isNameChar = false)) :
    codeStep nest last c rest = ⟨(plainCode nest c).1, [], (plainCode nest c).2⟩ := by
  unfold codeStep
  split
  · exact absurd ⟨rfl, rfl⟩ comments
  · exact absurd ⟨rfl, rfl⟩ opens
  rw [if_neg (by simp [plain]), plainCode]
  split
  case h_1 quote after _ _ =>
    have named : ¬ (isQuote quote && !last.any isNameChar) := by
      intro both
      rw [Bool.and_eq_true, Bool.not_eq_true'] at both
      exact raw ⟨rfl, both.1, both.2⟩
    rw [if_neg named]
    cases nest.mode <;> rfl
  case h_2 =>
    cases nest.mode with
    | interpolation depth =>
      by_cases opening : c = '{'
      · subst opening
        rfl
      by_cases closing : c = '}'
      · subst closing
        cases depth <;> rfl
      · dsimp only
        rw [if_neg opening, if_neg closing]
        split <;> first | rfl | contradiction
    | _ => rfl

end

/-- The mark of a raw literal is passed over as code, and blanked in the next round. -/
private theorem passes_raw (code : readsCode nest.mode) (quote : Quote) (rest : List Char)
    (free : (lastOf none before).any isNameChar = false) {follow : List Char}
    (split : rest = quote.others (opensTriple quote.char rest) ++ follow) :
    Passes nest before (marked .literal ('r' :: quote.run (opensTriple quote.char rest)))
      (.string quote.char (opensTriple quote.char rest) true :: nest) follow := by
  have first : next (between nest before ('r' :: quote.char :: rest)) =
      between nest (before ++ [('r', .code)]) (quote.char :: rest) := by
    have keeps : plainCode nest 'r' = (.code, nest) := by
      unfold plainCode
      cases nest.mode <;> rfl
    rw [next_between, readMode_code _ _ code, readCode_plain (fun slash => absurd slash.1 (by decide))
      (fun slash => absurd slash.1 (by decide)) (by decide), keeps]
    exact pass_between ['r'] (quote.char :: rest) (isAscii_of_all (by decide))
  have second : next (between nest (before ++ [('r', .code)]) (quote.char :: rest)) =
      between (.string quote.char (opensTriple quote.char rest) true :: nest)
        (before ++ [('r', .literal)] ++ marked .literal (quote.run (opensTriple quote.char rest))) follow := by
    rw [next_between, readMode_code _ _ code, readCode_quote, openLiteral_raw quote rest free]
    generalize opensTriple quote.char rest = triple at split ⊢
    rw [split]
    exact pass_between (quote.run triple) follow (isAscii_of_mem_run quote triple)
  have whole : 'r' :: quote.run (opensTriple quote.char rest) ++ follow = 'r' :: quote.char :: rest :=
    congrArg ('r' :: quote.char :: ·) split.symm
  refine ⟨2, ?_, ?_⟩
  · rw [map_fst_marked, Quote.run, byteLength_cons, byteLength_cons]
    have := Char.utf8Size_pos 'r'
    have := quote.char.utf8Size_pos
    omega
  · rw [map_fst_marked, whole]
    show next (next (between nest before ('r' :: quote.char :: rest))) = _
    rw [first, second, List.append_assoc]
    rfl

section
variable (code : readsCode nest.mode)
include code

private theorem follows_lineComment (last : Option Char) (more : List Char) :
    Follows nest before '/' ('/' :: more) (codeStep nest last '/' ('/' :: more)) := by
  have comments := (sees_two nest before '/' ('/' :: more) (d := '/') (e := '/') (by decide) (by decide)).mpr ⟨rfl, rfl⟩
  have whole : Passes nest before (marked .comment ('/' :: '/' :: more)) nest [] := by
    refine .round ?_
    rw [List.append_nil]
    exact ((readMode_code before _ code).trans (if_pos comments)).trans (pass_all (Nat.le_refl _))
  have follows := Follows.token ('/' :: more) [] whole fun _ c member => by cases member
  rwa [List.append_nil] at follows

private theorem follows_blockComment (last : Option Char) (more : List Char) :
    Follows nest before '/' ('*' :: more) (codeStep nest last '/' ('*' :: more)) := by
  have comments : ¬ (between nest before ('/' :: '*' :: more)).sees ['/', '/'] := by
    rw [sees_two _ _ _ _ (by decide) (by decide), List.head?_cons]
    decide
  have opens := (sees_two nest before '/' ('*' :: more) (d := '/') (e := '*') (by decide) (by decide)).mpr ⟨rfl, rfl⟩
  have now := (readMode_code before _ code).trans ((if_neg comments).trans (if_pos opens))
  exact Follows.of_pass ['*'] more (isAscii_of_all (by decide)) now (.of_mode rfl more)

private theorem follows_quote (quote : Quote) (last : Option Char) (apart : Apart nest before (quote.char :: rest)) :
    Follows nest before quote.char rest (codeStep nest last quote.char rest) := by
  have quotes : isQuote quote.char := by cases quote <;> rfl
  have now := ((readMode_code before _ code).trans (readCode_quote quote before rest)).trans
    (openLiteral_plain quote rest (apart code _ rfl quotes))
  obtain ⟨follow, split⟩ := exists_others quote rest
  rw [codeStep_quote, quoteTail_eq quote]
  generalize opensTriple quote.char rest = triple at now split ⊢
  subst split
  exact Follows.of_pass (quote.others triple) follow (isAscii_of_mem_run quote triple) now (.of_quotes quote triple _)

private theorem follows_raw (quote : Quote) (more : List Char) (free : (lastOf none before).any isNameChar = false) :
    Follows nest before 'r' (quote.char :: more) (codeStep nest (lastOf none before) 'r' (quote.char :: more)) := by
  obtain ⟨follow, split⟩ := exists_others quote more
  have passes := passes_raw code quote more free split
  rw [codeStep_raw quote nest more free, quoteTail_eq quote]
  generalize opensTriple quote.char more = triple at passes split ⊢
  subst split
  exact Follows.token (quote.run triple) follow passes (.of_mode rfl _)

/-- Any other character is taken alone. An `r` in front of a quote then ends a longer name. -/
private theorem follows_plain (ascii : IsAscii c) (comments : ¬ (c = '/' ∧ rest.head? = some '/'))
    (opens : ¬ (c = '/' ∧ rest.head? = some '*')) (plain : isQuote c = false)
    (raw : ¬ (c = 'r' ∧ rest.head?.any isQuote ∧ (lastOf none before).any isNameChar = false)) :
    Follows nest before c rest (codeStep nest (lastOf none before) c rest) := by
  have now := (readMode_code before _ code).trans (readCode_plain comments opens plain)
  have apart (after : Nest) (mark : Mark) : Apart after (before ++ marked mark [c]) rest := by
    by_cases isR : c = 'r'
    · intro _ d head quotes
      have next : rest.head?.any isQuote := (Option.any_eq_true _ _).mpr ⟨d, head, quotes⟩
      have named : (lastOf none before).any isNameChar = true := by simpa [isR, next] using raw
      show endsRaw (before ++ [(c, mark)]) = false
      rw [endsRaw, List.dropLast_concat, named, Bool.not_true, Bool.and_false]
    · exact .of_last [] isR mark rest
  rw [codeStep_other comments opens plain raw]
  exact Follows.of_pass [] rest (List.forall_mem_singleton.mpr ascii) now (apart _ _)

private theorem follows_code (ascii : IsAscii c) (apart : Apart nest before (c :: rest)) :
    Follows nest before c rest (codeStep nest (lastOf none before) c rest) := by
  by_cases comments : c = '/' ∧ rest.head? = some '/'
  · obtain ⟨rfl, next⟩ := comments
    obtain ⟨more, rfl⟩ := List.head?_eq_some_iff.mp next
    exact follows_lineComment code _ more
  by_cases opens : c = '/' ∧ rest.head? = some '*'
  · obtain ⟨rfl, next⟩ := opens
    obtain ⟨more, rfl⟩ := List.head?_eq_some_iff.mp next
    exact follows_blockComment code _ more
  cases plain : isQuote c with
  | true =>
    obtain ⟨quote, rfl⟩ := exists_quote plain
    exact follows_quote code quote _ apart
  | false =>
    by_cases raw : c = 'r' ∧ rest.head?.any isQuote ∧ (lastOf none before).any isNameChar = false
    · obtain ⟨rfl, next, free⟩ := raw
      obtain ⟨d, head, quotes⟩ := (Option.any_eq_true _ _).mp next
      obtain ⟨more, rfl⟩ := List.head?_eq_some_iff.mp head
      obtain ⟨quote, rfl⟩ := exists_quote quotes
      exact follows_raw code quote more free
    · exact follows_plain code ascii comments opens plain raw

end

/-! ### Any character -/

private theorem step_of_high (quoted : nest.IsQuoted) (other : ¬ IsAscii c) (last : Option Char) :
    step nest last c rest = ⟨nest.mode.mark, [], nest⟩ := by
  have ne {d : Char} (ascii : IsAscii d) : c ≠ d := by rintro rfl; exact other ascii
  have quiet : isQuiet c := by
    have all : ∀ d ∈ ['/', '*', '\'', '"', '\\', '{', '}'], IsAscii d :=
      isAscii_of_all (by decide)
    rw [isQuiet, Bool.not_eq_true', ← Bool.not_eq_true, List.contains_iff_mem]
    exact fun member => other (all c member)
  have plain : c = 'r' → rest.head?.any isQuote → last.any isNameChar := fun isR => absurd isR (ne (by decide))
  unfold step
  split
  case h_1 mode => rw [codeStep_quiet quiet plain, mode, Mode.mark]
  case h_2 mode => rw [codeStep_quiet quiet plain, mode, Mode.mark]
  case h_3 mode =>
    rw [commentStep_plain (fun opens => ne (by decide) opens.1) (fun closes => ne (by decide) closes.1), mode,
      Mode.mark]
  case h_4 quote triple raw mode =>
    have notQuote : c ≠ quote := ne (isAscii_of_isQuote (quoted quote triple raw (mem_of_mode mode)))
    have notEscape : c ≠ '\\' := ne (by decide)
    have notDollar : c ≠ '$' := ne (by decide)
    rw [mode]
    simp [stringStep, notEscape, notDollar, notQuote, Mode.mark]

theorem follows_step (quoted : nest.IsQuoted) (apart : Apart nest before (c :: rest)) :
    Follows nest before c rest (step nest (lastOf none before) c rest) := by
  by_cases ascii : IsAscii c
  · unfold step
    split
    case h_1 mode => exact follows_code (by rw [mode]; rfl) ascii apart
    case h_2 mode => exact follows_code (by rw [mode]; rfl) ascii apart
    case h_3 mode => exact follows_comment mode ascii
    case h_4 mode =>
      obtain ⟨quote, rfl⟩ := exists_quote (quoted _ _ _ (mem_of_mode mode))
      exact follows_string quoted mode ascii
  · have other : c ≠ 'r' := by rintro rfl; exact ascii (by decide)
    rw [step_of_high quoted ascii]
    exact Follows.token [] rest (.high quoted ascii) (.of_last [] other _ rest)

private theorem zip_ahead (line : List Char) (ahead others : List Mark) :
    line.zip ((line.zip ahead).map (·.2) ++ others) = line.zip ahead ++ (line.drop ahead.length).zip others := by
  induction ahead generalizing line with
  | nil => simp
  | cons mark ahead ih =>
    cases line with
    | nil => rfl
    | cons c line => simp [ih]

end

/-- To the end of a line the reader of bytes does what the reader of characters does. -/
theorem passes_marksFrom {nest : Nest} (quoted : nest.IsQuoted) (before : List (Char × Mark)) (text : List Char)
    (apart : Apart nest before text) :
    Passes nest before (text.zip (marksFrom [] nest (lastOf none before) text).1)
      (marksFrom [] nest (lastOf none before) text).2 [] := by
  match text with
  | [] => exact .nothing
  | c :: rest =>
    obtain ⟨passes, apartThen⟩ := follows_step quoted apart
    have quotedThen := quoted.step (lastOf none before) c rest
    generalize now_eq : step nest (lastOf none before) c rest = now at passes apartThen quotedThen
    have later := passes_marksFrom quotedThen _ (rest.drop now.ahead.length) apartThen
    have last : lastOf none (before ++ (c, now.mark) :: rest.zip now.ahead) = lastOf (some c) (rest.zip now.ahead) := by
      rw [← Reads.lastOf_append none before]
      exact (Reads.lastOf_append (lastOf none before) [(c, now.mark)] (rest.zip now.ahead)).symm
    have marks : marksFrom [] nest (lastOf none before) (c :: rest) =
        (marksFrom [] now.nest (lastOf (some c) (rest.zip now.ahead)) (rest.drop now.ahead.length)).map
          (now.mark :: (rest.zip now.ahead).map (·.2) ++ ·) id := by
      rw [marksFrom, now_eq, Reads.marksFrom_ahead]
      rfl
    rw [last] at later
    generalize read_eq : marksFrom [] now.nest (lastOf (some c) (rest.zip now.ahead)) (rest.drop now.ahead.length) =
      read at later marks
    have size : (rest.drop now.ahead.length).length = read.1.length := by rw [← read_eq, length_marksFrom]
    have pairs : (c :: rest).zip (now.mark :: (rest.zip now.ahead).map (·.2) ++ read.1) =
        (c, now.mark) :: rest.zip now.ahead ++ (rest.drop now.ahead.length).zip read.1 :=
      congrArg ((c, now.mark) :: ·) (zip_ahead rest now.ahead read.1)
    rw [marks, Prod.map_fst, Prod.map_snd, pairs]
    refine .append ?_ later
    rwa [List.map_fst_zip (Nat.le_of_eq size), List.append_nil]
termination_by text.length
decreasing_by
  rw [List.length_drop, List.length_cons]
  omega

/-! ### Lines -/

/-- Reads a line to its end: its bytes, with what they belong to, and the constructs around the start of the next
line. -/
def blankLine (nest : Nest) (line : List UInt8) : List (UInt8 × Mark) × Nest :=
  let ended := next^[line.length] ⟨nest, [], line⟩
  (ended.read.reverse, ended.nest.endLine)

def blankFrom : Nest → List (List UInt8) → List (List (UInt8 × Mark))
  | _, [] => []
  | nest, line :: rest =>
    let (bytes, after) := blankLine nest line
    bytes :: blankFrom after rest

def blank (lines : List (List UInt8)) : List (List (UInt8 × Mark)) := blankFrom .outermost lines

theorem blankLine_utf8 {nest : Nest} (quoted : nest.IsQuoted) (line : List Char) :
    blankLine nest (utf8 line) = (bytesOf (markLine nest line), (sanitizeLine nest line).2) := by
  obtain ⟨rounds, most, ended⟩ := passes_marksFrom quoted [] line fun _ _ _ _ => rfl
  have text : (markLine nest line).map (·.1) = line := map_fst_markLine nest line
  have last : lastOf none [] = none := rfl
  rw [last, ← markLine, text] at most ended
  have idle : next (between (marksFrom [] nest none line).2 (markLine nest line) []) =
      between (marksFrom [] nest none line).2 (markLine nest line) [] := rfl
  rw [List.append_nil, List.nil_append] at ended
  have all : next^[(utf8 line).length] ⟨nest, [], utf8 line⟩ =
      between (marksFrom [] nest none line).2 (markLine nest line) [] := by
    -- The line has a round for each byte. Those that are left over find nothing to read.
    obtain ⟨more, enough⟩ := Nat.exists_eq_add_of_le' most
    rw [length_utf8, enough, Function.iterate_add_apply]
    exact (congrArg _ ended).trans (Function.iterate_fixed idle more)
  rw [blankLine, all, between, List.reverse_reverse]
  rfl

end ByteReader

open ByteReader

def shownByte (byte : UInt8 × Mark) : UInt8 := if byte.2 = .code then byte.1 else ' '.toUInt8

/-- A line is blanked in place. The buffer has its bytes as the reader of bytes leaves them. -/
structure KeepsBytes (line : List Char) (buffer : List (UInt8 × Mark)) (clean : SanitizedLine) : Prop where
  codeLength : (utf8 clean.code).length = (utf8 line).length
  commentLength : clean.inComment.length = (utf8 line).length
  /-- Every byte is kept or blanked. -/
  kept : ∀ i : Nat, (utf8 clean.code)[i]? = (utf8 line)[i]? ∨ (utf8 clean.code)[i]? = some ' '.toUInt8
  /-- The bytes of comments are blanked. -/
  comments : ∀ i : Nat, clean.inComment[i]? = some true → (utf8 clean.code)[i]? = some ' '.toUInt8
  /-- In the buffer the bytes of a character are all kept or all blanked. -/
  whole : ∃ marks, marks.length = line.length ∧ buffer = bytesOf (line.zip marks)
  code : buffer.map shownByte = utf8 clean.code
  inComment : buffer.map (·.2 == .comment) = clean.inComment
  /-- What is left in the buffer is text. -/
  decoded : (buffer.map shownByte).toByteArray.utf8Decode? = some clean.code.toArray

private theorem map_bytesOf {α : Type} (f : UInt8 × Mark → α) (spelled : List (Char × Mark)) :
    (bytesOf spelled).map f = spelled.flatMap fun c => (String.utf8EncodeChar c.1).map fun byte => f (byte, c.2) := by
  rw [bytesOf, List.map_flatMap]
  simp only [List.map_map, Function.comp_def]

private theorem map_fst_bytesOf (spelled : List (Char × Mark)) :
    (bytesOf spelled).map (·.1) = utf8 (spelled.map (·.1)) := by
  rw [map_bytesOf, utf8, List.flatMap_map]
  simp only [List.map_id']

private theorem map_isComment (spelled : List (Char × Mark)) :
    (bytesOf spelled).map (·.2 == .comment) = commentBytesOf spelled := by
  rw [map_bytesOf, commentBytesOf]
  simp only [List.map_const', String.length_utf8EncodeChar]

private theorem utf8_replicate {c : Char} (ascii : IsAscii c) (n : Nat) :
    utf8 (List.replicate n c) = List.replicate n c.toUInt8 := by
  induction n with
  | zero => rfl
  | succ n ih => rw [List.replicate_succ, List.replicate_succ, utf8_cons, encode_of_isAscii ascii, ih]; rfl

private theorem map_shownByte (spelled : List (Char × Mark)) :
    (bytesOf spelled).map shownByte = utf8 (codeOf spelled) := by
  rw [map_bytesOf, utf8, codeOf, List.flatMap_assoc]
  refine List.flatMap_congr fun ⟨c, mark⟩ _ => ?_
  have blanks : utf8 (List.replicate c.utf8Size ' ') = (String.utf8EncodeChar c).map fun _ => ' '.toUInt8 := by
    rw [utf8_replicate (by decide), List.map_const', String.length_utf8EncodeChar]
  cases mark with
  | code => exact (List.map_id' _).trans (List.append_nil _).symm
  | literal => exact blanks.symm
  | comment => exact blanks.symm

/-- A line is blanked in place, whatever it is inside of. -/
theorem keepsBytes_sanitizeLine (nest : Nest) (line : List Char) :
    KeepsBytes line (bytesOf (markLine nest line)) (sanitizeLine nest line).1 := by
  have raw := map_fst_bytesOf (markLine nest line)
  have code := map_shownByte (markLine nest line)
  have inComment := map_isComment (markLine nest line)
  rw [map_fst_markLine] at raw
  rw [sanitizeLine_fst]
  generalize buffer_eq : bytesOf (markLine nest line) = buffer at raw code inComment ⊢
  refine ⟨?_, ?_, ?_, ?_, ?_, code, inComment, ?_⟩
  · rw [← code, ← raw, List.length_map, List.length_map]
  · rw [← inComment, ← raw, List.length_map, List.length_map]
  · intro i
    rw [← code, ← raw, List.getElem?_map, List.getElem?_map]
    cases buffer[i]? with
    | none => exact .inl rfl
    | some byte =>
      rw [Option.map_some, Option.map_some, shownByte]
      split
      case isTrue => exact .inl rfl
      case isFalse => exact .inr rfl
  · intro i comment
    rw [← inComment, List.getElem?_map, Option.map_eq_some_iff] at comment
    obtain ⟨⟨byte, mark⟩, here, isComment⟩ := comment
    obtain rfl : mark = .comment := beq_iff_eq.mp isComment
    rw [← code, List.getElem?_map, here]
    rfl
  · exact ⟨_, length_marksFrom [] nest none line, buffer_eq.symm⟩
  · rw [code]
    exact List.utf8Decode?_utf8Encode

/-- Blanking keeps the bytes of a file in place: a reader that blanks them one by one, and that may stand inside of a
character, leaves the bytes of the blanked lines. -/
theorem sanitize_keepsBytes (lines : List (List Char)) :
    (sanitize lines).length = lines.length ∧
      List.Forall₂ (fun (line : List Char × List (UInt8 × Mark)) clean => KeepsBytes line.1 line.2 clean)
        (lines.zip (blank (lines.map utf8))) (sanitize lines) := by
  suffices ∀ nest : Nest, nest.IsQuoted → (sanitizeFrom nest lines).length = lines.length ∧
      List.Forall₂ (fun (line : List Char × List (UInt8 × Mark)) clean => KeepsBytes line.1 line.2 clean)
        (lines.zip (blankFrom nest (lines.map utf8))) (sanitizeFrom nest lines) from this _ .outermost
  induction lines with
  | nil => exact fun _ _ => ⟨rfl, .nil⟩
  | cons line rest ih =>
    intro nest quoted
    obtain ⟨count, others⟩ := ih (sanitizeLine nest line).2 (quoted.sanitizeLine line)
    rw [List.map_cons, blankFrom, blankLine_utf8 quoted]
    exact ⟨congrArg (· + 1) count, .cons (keepsBytes_sanitizeLine nest line) others⟩

-- The escape leaves the reader inside of a character.
example : (blank [utf8 "'\\é' é".toList]).map (·.map shownByte) = [utf8 "      é".toList] := by decide +kernel

end DeadCode.Source
