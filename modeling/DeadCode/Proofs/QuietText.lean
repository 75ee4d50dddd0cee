import DeadCode.Proofs.Visible

/-!
Text that the reader of a line passes over. Characters other than quotes, braces, backslashes, slashes and
stars leave the constructs around them alone; all of them belong to what the innermost one is. After the
marker of a comment such text is never code, and a name that begins as code is code to its end, except for
an `r` right before a quote that follows a letter beyond ASCII.
-/
namespace DeadCode.Source
open DeadCode.Text

/-- A character that neither begins nor ends a comment, a literal or an interpolation. -/
def isQuiet (c : Char) : Bool := !(['/', '*', '\'', '"', '\\', '{', '}'].contains c)

def Mode.mark : Mode → Mark
  | .code | .interpolation _ => .code
  | .comment _ => .comment
  | .string _ _ _ => .literal

/-- The literals around a point were opened by quotes. -/
def Nest.IsQuoted (nest : Nest) : Prop :=
  ∀ quote triple raw, Mode.string quote triple raw ∈ nest → isQuote quote

namespace Nest.IsQuoted
variable {nest : Nest}

theorem outermost : Nest.IsQuoted .outermost := by
  intro quote triple raw member
  cases List.mem_singleton.mp member

theorem tail (quoted : nest.IsQuoted) : Nest.IsQuoted nest.tail :=
  fun quote triple raw member => quoted quote triple raw (List.mem_of_mem_tail member)

theorem cons {mode : Mode} (quoted : nest.IsQuoted)
    (first : ∀ quote triple raw, mode = .string quote triple raw → isQuote quote) :
    Nest.IsQuoted (mode :: nest) := by
  intro quote triple raw member
  rcases List.mem_cons.mp member with same | member
  · exact first quote triple raw same.symm
  · exact quoted quote triple raw member

theorem withMode {mode : Mode} (quoted : nest.IsQuoted)
    (first : ∀ quote triple raw, mode = .string quote triple raw → isQuote quote) :
    Nest.IsQuoted (nest.withMode mode) :=
  quoted.tail.cons first

theorem comment (quoted : nest.IsQuoted) (depth : Nat) : Nest.IsQuoted (.comment depth :: nest) := by
  apply quoted.cons
  intro quote triple raw same
  cases same

theorem withComment (quoted : nest.IsQuoted) (depth : Nat) : Nest.IsQuoted (nest.withMode (.comment depth)) :=
  quoted.tail.comment depth

private theorem codeStep (quoted : nest.IsQuoted) (last : Option Char) (c : Char) (rest : List Char) :
    (codeStep nest last c rest).nest.IsQuoted := by
  unfold Source.codeStep
  split
  · exact quoted
  · exact quoted.comment 1
  split
  case isTrue quote =>
    refine quoted.cons ?_
    rintro _ _ _ same
    obtain ⟨rfl, -, -⟩ := Mode.string.inj same
    exact quote
  split
  · split
    case isTrue raw =>
      refine quoted.cons ?_
      rintro _ _ _ same
      obtain ⟨rfl, -, -⟩ := Mode.string.inj same
      exact (Bool.and_eq_true_iff.mp raw).1
    · exact quoted
  · split
    · exact quoted.withMode nofun
    · exact quoted.tail
    · exact quoted.withMode nofun
    · exact quoted

private theorem commentStep (quoted : nest.IsQuoted) (depth : Nat) (c : Char) (rest : List Char) :
    (commentStep nest depth c rest).nest.IsQuoted := by
  unfold Source.commentStep
  split
  · exact quoted.withComment _
  · by_cases last : depth ≤ 1
    · simp only [last, if_true]
      exact quoted.tail
    · simp only [last, if_false]
      exact quoted.withComment _
  · exact quoted

private theorem stringStep (quoted : nest.IsQuoted) (quote : Char) (triple raw : Bool) (c : Char)
    (rest : List Char) : (stringStep nest quote triple raw c rest).nest.IsQuoted := by
  unfold Source.stringStep
  split
  · exact quoted
  split
  · exact quoted.cons nofun
  split
  · exact quoted.tail
  · exact quoted

theorem step (quoted : nest.IsQuoted) (last : Option Char) (c : Char) (rest : List Char) :
    (step nest last c rest).nest.IsQuoted := by
  unfold Source.step
  split
  · exact quoted.codeStep last c rest
  · exact quoted.codeStep last c rest
  · exact quoted.commentStep _ c rest
  · exact quoted.stringStep _ _ _ c rest

private theorem marksFrom (quoted : nest.IsQuoted) (ahead : List Mark) (last : Option Char) (line : List Char) :
    (marksFrom ahead nest last line).2.IsQuoted := by
  fun_induction Source.marksFrom ahead nest last line with
  | case1 => exact quoted
  | case2 _ _ _ _ _ _ _ _ same ih => simpa [same] using ih quoted
  | case3 _ _ _ _ _ _ _ same ih => simpa [same] using ih (quoted.step _ _ _)

private theorem endLine (quoted : nest.IsQuoted) : nest.endLine.IsQuoted := by
  simp only [Nest.endLine]
  split
  · exact .outermost
  · intro quote triple raw member
    exact quoted quote triple raw ((List.dropWhile_sublist _).mem member)

theorem sanitizeLine (quoted : nest.IsQuoted) (line : List Char) : (sanitizeLine nest line).2.IsQuoted :=
  (quoted.marksFrom [] none line).endLine

end Nest.IsQuoted

theorem exists_nest_of_mem_zip {lines : List (List Char)} {raw : List Char} {clean : SanitizedLine}
    (member : (raw, clean) ∈ lines.zip (sanitize lines)) :
    ∃ nest : Nest, nest.IsQuoted ∧ clean = (sanitizeLine nest raw).1 := by
  suffices ∀ nest : Nest, nest.IsQuoted → (raw, clean) ∈ lines.zip (sanitizeFrom nest lines) →
      ∃ nest : Nest, nest.IsQuoted ∧ clean = (sanitizeLine nest raw).1 from this _ .outermost member
  clear member
  induction lines with
  | nil => intro nest _ member; cases member
  | cons line rest ih =>
    intro nest quoted member
    rcases List.mem_cons.mp member with same | member
    · obtain ⟨rfl, rfl⟩ := Prod.mk.inj same
      exact ⟨nest, quoted, rfl⟩
    · exact ih _ (quoted.sanitizeLine line) member

/-! ### Quiet text -/

section
variable {nest : Nest} {last : Option Char} {c : Char} {rest : List Char}

theorem mark_eq_code_iff {mode : Mode} : mode.mark = .code ↔ readsCode mode := by
  cases mode <;> simp [Mode.mark, readsCode]

private theorem quiet_ne (quiet : isQuiet c) :
    c ≠ '/' ∧ c ≠ '*' ∧ isQuote c = false ∧ c ≠ '\\' ∧ c ≠ '{' ∧ c ≠ '}' := by
  simp only [isQuiet, List.contains_cons, List.contains_nil, Bool.not_eq_true', Bool.or_eq_false_iff,
    beq_eq_false_iff_ne] at quiet
  simp only [isQuote, Bool.or_eq_false_iff, beq_eq_false_iff_ne]
  tauto

/-- In code a quiet character is code, unless it makes the literal after it a raw one. -/
theorem codeStep_quiet (quiet : isQuiet c)
    (plain : c = 'r' → rest.head?.any isQuote → last.any isNameChar) :
    codeStep nest last c rest = ⟨.code, [], nest⟩ := by
  obtain ⟨slash, -, quote, -, opens, closes⟩ := quiet_ne quiet
  unfold codeStep
  split
  · contradiction
  · contradiction
  rw [if_neg (by simp [quote])]
  split
  case h_1 =>
    rw [if_neg]
    simp only [Bool.and_eq_true, Bool.not_eq_true', not_and, Bool.not_eq_false]
    exact plain rfl
  · split <;> first | rfl | contradiction

private theorem commentStep_quiet (depth : Nat) (quiet : isQuiet c) :
    commentStep nest depth c rest = ⟨.comment, [], nest⟩ := by
  obtain ⟨slash, star, -⟩ := quiet_ne quiet
  exact commentStep_plain (fun opens => slash opens.1) (fun closes => star closes.1)

private theorem stringStep_quiet {quote : Char} (isQuote : isQuote quote) (triple raw : Bool) (quiet : isQuiet c)
    (next : rest.head? ≠ some '{') : stringStep nest quote triple raw c rest = ⟨.literal, [], nest⟩ := by
  obtain ⟨-, -, notQuote, escape, -⟩ := quiet_ne quiet
  have other : c ≠ quote := by
    rintro rfl
    rw [isQuote] at notQuote
    cases notQuote
  simp [stringStep, escape, next, other]

theorem mem_of_mode {quote : Char} {triple raw : Bool} (mode : nest.mode = .string quote triple raw) :
    Mode.string quote triple raw ∈ nest := by
  cases nest with
  | nil => cases mode
  | cons head tail => exact List.mem_cons.mpr (.inl mode.symm)

/-- What may follow quiet text without changing what it is. -/
def Continues (follow : List Char) : Prop := ∀ c ∈ follow.head?, isQuote c = false ∧ c ≠ '{'

theorem Continues.of_quiet (quiet : isQuiet c) : Continues (c :: rest) := by
  intro d same
  obtain rfl : c = d := Option.some.inj same
  obtain ⟨-, -, quote, -, opens, -⟩ := quiet_ne quiet
  exact ⟨quote, opens⟩

theorem step_quiet (quoted : nest.IsQuoted) (quiet : isQuiet c) (next : Continues rest) :
    step nest last c rest = ⟨nest.mode.mark, [], nest⟩ := by
  have plain : c = 'r' → rest.head?.any isQuote → last.any isNameChar := by
    intro _ quote
    obtain ⟨d, head, isQuote⟩ := (Option.any_eq_true _ _).mp quote
    rw [(next d head).1] at isQuote
    cases isQuote
  unfold step
  split
  case h_1 mode => rw [codeStep_quiet quiet plain, mode, Mode.mark]
  case h_2 mode => rw [codeStep_quiet quiet plain, mode, Mode.mark]
  case h_3 mode => rw [commentStep_quiet _ quiet, mode, Mode.mark]
  case h_4 quote triple raw mode =>
    have isQuote := quoted quote triple raw (mem_of_mode mode)
    rw [stringStep_quiet isQuote triple raw quiet fun brace => (next _ brace).2 rfl, mode, Mode.mark]

/-- Quiet text belongs to what is around it. -/
theorem reads_quiet {text follow : List Char} (quoted : nest.IsQuoted) (quiet : ∀ c ∈ text, isQuiet c)
    (next : Continues follow) : Reads nest last (marked nest.mode.mark text) nest follow := by
  induction text generalizing last with
  | nil => exact .nothing
  | cons c text ih =>
    obtain ⟨first, others⟩ := List.forall_mem_cons.mp quiet
    rw [marked_cons]
    refine .char ?_ (ih others)
    rw [map_fst_marked]
    apply step_quiet quoted first
    cases text with
    | nil => exact next
    | cons d text => exact .of_quiet (others d List.mem_cons_self)

end

/-! ### The mark of a character -/

section
variable {nest : Nest} {last : Option Char} {c : Char} {mark : Mark} {before rest : List Char}

theorem getElem?_marksFrom_of_markAt
    (marked : MarkAt (markLine nest (before ++ c :: rest)) (byteLength before) c mark) :
    (marksFrom [] nest none (before ++ c :: rest)).1[before.length]? = some mark := by
  obtain ⟨first, after, split, start⟩ := marked
  have text := map_fst_markLine nest (before ++ c :: rest)
  rw [split, List.map_append, List.map_cons] at text
  have same : first.map (·.1) = before := by
    rw [← takeBytes_append (first.map (·.1)) (c :: after.map (·.1)), text, start, takeBytes_append]
  have size : first.length = before.length := by rw [← same, List.length_map]
  have here : (markLine nest (before ++ c :: rest))[before.length]? = some (c, mark) := by
    rw [split, ← size, List.getElem?_append_right (Nat.le_refl _), Nat.sub_self, List.getElem?_cons_zero]
  rw [markLine, List.getElem?_zip_eq_some] at here
  exact here.2

/-- After characters that are read, the next one is marked by one more step. -/
theorem Reads.mark_eq {spelled : List (Char × Mark)} {after : Nest}
    (reads : Reads nest none spelled after (c :: rest))
    (marked : MarkAt (markLine nest (spelled.map (·.1) ++ c :: rest)) (byteLength (spelled.map (·.1))) c mark) :
    mark = (step after (lastOf none spelled) c rest).mark := by
  have here := getElem?_marksFrom_of_markAt marked
  have size : (spelled.map (·.1)).length = (spelled.map (·.2)).length := by
    rw [List.length_map, List.length_map]
  rw [reads, Prod.map_fst, size, List.getElem?_append_right (Nat.le_refl _), Nat.sub_self, marksFrom,
    List.getElem?_cons_zero] at here
  exact (Option.some.inj here).symm

theorem Reads.markLine_eq {spelled : List (Char × Mark)} {after : Nest} {follow : List Char}
    (reads : Reads nest none spelled after follow) :
    markLine nest (spelled.map (·.1) ++ follow) =
      spelled ++ follow.zip (marksFrom [] after (lastOf none spelled) follow).1 := by
  have pairs : (spelled.map (·.1)).zip (spelled.map (·.2)) = spelled := by
    rw [List.zip_map', List.map_id']
  rw [markLine, reads, Prod.map_fst, List.zip_append (by simp), pairs]

theorem step_of_readsCode (code : readsCode nest.mode) : step nest last c rest = codeStep nest last c rest := by
  rw [step]
  cases mode : nest.mode <;> first | rfl | (rw [mode] at code; cases code)

theorem readsCode_of_step (code : (step nest last c rest).mark = .code) : readsCode nest.mode := by
  unfold step at code
  split at code
  case h_1 mode => rw [mode]; rfl
  case h_2 mode => rw [mode]; rfl
  case h_3 =>
    unfold commentStep at code
    split at code <;> cases code
  case h_4 =>
    unfold stringStep at code
    split at code
    · cases code
    split at code
    · cases code
    split at code <;> cases code

/-- Before a character that is code, quiet text is code from the start of the line. -/
theorem reads_of_quiet_start {text : List Char} (quoted : nest.IsQuoted) (quiet : ∀ d ∈ text, isQuiet d)
    (first : isQuiet c) (marked : MarkAt (markLine nest (text ++ c :: rest)) (byteLength text) c .code) :
    Reads nest none (Source.marked .code text) nest (c :: rest) := by
  have reads : Reads nest none (Source.marked nest.mode.mark text) nest (c :: rest) :=
    reads_quiet quoted quiet (.of_quiet first)
  have code : (step nest (lastOf none (Source.marked nest.mode.mark text)) c rest).mark = .code :=
    (reads.mark_eq (by rwa [map_fst_marked])).symm
  rwa [mark_eq_code_iff.mpr (readsCode_of_step code)] at reads

/-! ### After the marker of a comment -/

private theorem marksFrom_comments (nest : Nest) (last : Option Char) (text : List Char) :
    (marksFrom (text.map fun _ => .comment) nest last text).1 = text.map fun _ => .comment := by
  induction text generalizing last with
  | nil => rfl
  | cons c text ih => exact congrArg (_ :: ·) (ih (some c))

private theorem marksFrom_lineComment (code : readsCode nest.mode) (last : Option Char) (others : List Char) :
    (marksFrom [] nest last ('/' :: '/' :: others)).1 = ('/' :: '/' :: others).map fun _ => .comment := by
  have now : step nest last '/' ('/' :: others) = ⟨.comment, ('/' :: others).map fun _ => .comment, nest⟩ := by
    rw [step]
    cases mode : nest.mode <;> first | rfl | (rw [mode] at code; cases code)
  rw [marksFrom, now]
  exact congrArg (_ :: ·) (marksFrom_comments nest (some '/') ('/' :: others))

/-- In a literal slashes and stars stand for themselves. -/
private theorem step_fill_string {fill quote : Char} {triple raw : Bool} (filler : fill = '/' ∨ fill = '*')
    (quoted : nest.IsQuoted) (mode : nest.mode = .string quote triple raw) :
    step nest last fill rest = ⟨.literal, [], nest⟩ := by
  have isQuote := quoted _ _ _ (mem_of_mode mode)
  have other : fill ≠ quote := by
    rintro rfl
    rcases filler with rfl | rfl <;> cases isQuote
  have plain : fill ≠ '\\' ∧ fill ≠ '$' := by
    rcases filler with rfl | rfl <;> decide
  rw [step, mode]
  simp [stringStep, other, plain]

/-- Slashes or stars change nothing where no code is read. -/
private theorem reads_fill {fill : Char} {count : Nat} {follow : List Char} (filler : fill = '/' ∨ fill = '*')
    (quoted : nest.IsQuoted) (inside : readsCode nest.mode = false) (next : ∀ d ∈ follow.head?, isQuiet d) :
    Reads nest last (marked nest.mode.mark (List.replicate count fill)) nest follow := by
  induction count generalizing last with
  | zero => exact .nothing
  | succ count ih =>
    have same : ∀ d ∈ (List.replicate count fill ++ follow).head?, d = fill ∨ isQuiet d := by
      intro d head
      cases count with
      | zero => exact .inr (next d head)
      | succ count => exact .inl (Option.some.inj head).symm
    rw [List.replicate_succ, marked_cons]
    refine .char ?_ ih
    rw [map_fst_marked]
    cases mode : nest.mode with
    | code => rw [mode] at inside; cases inside
    | interpolation depth => rw [mode] at inside; cases inside
    | comment depth =>
      rw [step, mode]
      refine commentStep_plain ?_ ?_
      · rintro ⟨rfl, star⟩
        rcases same _ star with other | quiet <;> contradiction
      · rintro ⟨rfl, slash⟩
        rcases same _ slash with other | quiet <;> contradiction
    | string quote triple raw => exact step_fill_string filler quoted mode

/-- After the marker of a block comment, or any marker where no code is read, no code is read. -/
private theorem exists_reads_marker (last : Option Char) {fill : Char} (count : Nat) {follow : List Char}
    (filler : fill = '/' ∨ fill = '*') (quoted : nest.IsQuoted) (inside : readsCode nest.mode = false ∨ fill = '*')
    (next : ∀ d ∈ follow.head?, isQuiet d) :
    ∃ spelled after, spelled.map (·.1) = '/' :: List.replicate (count + 1) fill ∧
      Reads nest last spelled after follow ∧ after.IsQuoted ∧ readsCode after.mode = false := by
  have opening (after : Nest) (depth : Nat) (quoted : after.IsQuoted) (comment : after.mode = .comment depth)
      (now : ∀ rest, step nest last '/' ('*' :: rest) = ⟨.comment, [.comment], after⟩) :
      ∃ spelled after, spelled.map (·.1) = '/' :: List.replicate (count + 1) '*' ∧
        Reads nest last spelled after follow ∧ after.IsQuoted ∧ readsCode after.mode = false := by
    have uncoded : readsCode after.mode = false := by rw [comment]; rfl
    refine ⟨('/', .comment) :: ('*', .comment) :: marked after.mode.mark (List.replicate count '*'), after, ?_, ?_,
      quoted, uncoded⟩
    · rw [List.map_cons, List.map_cons, map_fst_marked]
      rfl
    · exact .pair (now _) (reads_fill (.inr rfl) quoted uncoded next)
  cases mode : nest.mode with
  | code =>
    obtain rfl : fill = '*' := inside.resolve_left (by rw [mode]; intro none; cases none)
    exact opening (.comment 1 :: nest) 1 (quoted.comment 1) rfl fun _ => by rw [step, mode]; rfl
  | interpolation depth =>
    obtain rfl : fill = '*' := inside.resolve_left (by rw [mode]; intro none; cases none)
    exact opening (.comment 1 :: nest) 1 (quoted.comment 1) rfl fun _ => by rw [step, mode]; rfl
  | comment depth =>
    rcases filler with rfl | rfl
    · have uncoded : readsCode nest.mode = false := by rw [mode]; rfl
      refine ⟨marked nest.mode.mark (List.replicate (count + 2) '/'), nest, ?_, ?_, quoted, uncoded⟩
      · rw [map_fst_marked]
        rfl
      · exact reads_fill (.inl rfl) quoted uncoded next
    · exact opening (nest.withMode (.comment (depth + 1))) (depth + 1) (quoted.withComment _) rfl fun _ => by
        rw [step, mode]; rfl
  | string quote triple raw =>
    have uncoded : readsCode nest.mode = false := by rw [mode]; rfl
    refine ⟨('/', .literal) :: marked nest.mode.mark (List.replicate (count + 1) fill), nest, ?_, ?_, quoted, uncoded⟩
    · rw [List.map_cons, map_fst_marked]
    · exact .char (step_fill_string (.inl rfl) quoted mode) (reads_fill filler quoted uncoded next)

/-- A line comment takes the rest of the line. -/
private theorem ne_code_of_lineComment {margin text : List Char} (quoted : nest.IsQuoted) (code : readsCode nest.mode)
    (quiet : ∀ d ∈ margin, isQuiet d)
    (marked : MarkAt (markLine nest (margin ++ '/' :: '/' :: text ++ c :: rest))
      (byteLength (margin ++ '/' :: '/' :: text)) c mark) : mark ≠ .code := by
  have line : margin ++ '/' :: '/' :: text ++ c :: rest =
      (Source.marked nest.mode.mark margin).map (·.1) ++ '/' :: '/' :: (text ++ c :: rest) := by
    rw [map_fst_marked]
    simp
  have lead : Reads nest none (Source.marked nest.mode.mark margin) nest ('/' :: '/' :: (text ++ c :: rest)) :=
    reads_quiet quoted quiet fun d head => Option.some.inj head ▸ ⟨rfl, by decide⟩
  have marks : (marksFrom [] nest none (margin ++ '/' :: '/' :: text ++ c :: rest)).1 =
      (Source.marked nest.mode.mark margin).map (·.2) ++ ('/' :: '/' :: (text ++ c :: rest)).map fun _ => .comment := by
    rw [line, ← marksFrom_lineComment code (lastOf none (Source.marked nest.mode.mark margin))]
    exact congrArg Prod.fst lead
  have further : ((Source.marked nest.mode.mark margin).map (·.2)).length ≤ (margin ++ '/' :: '/' :: text).length := by
    rw [List.length_map, Source.marked, List.length_map, List.length_append]
    exact Nat.le_add_right _ _
  have here := getElem?_marksFrom_of_markAt marked
  rw [marks, List.getElem?_append_right further, List.getElem?_map, Option.map_eq_some_iff] at here
  obtain ⟨-, -, rfl⟩ := here
  intro code
  cases code

/-- Quiet text after the marker of a comment is not code, whatever the line begins in. -/
theorem ne_code_of_marker {margin text : List Char} {fill : Char} {count : Nat} (quoted : nest.IsQuoted)
    (filler : fill = '/' ∨ fill = '*') (quietMargin : ∀ d ∈ margin, isQuiet d) (quiet : ∀ d ∈ text, isQuiet d)
    (first : isQuiet c) (shape : before = margin ++ ('/' :: List.replicate (count + 1) fill ++ text))
    (marked : MarkAt (markLine nest (before ++ c :: rest)) (byteLength before) c mark) : mark ≠ .code := by
  by_cases inside : readsCode nest.mode = false ∨ fill = '*'
  · have next : ∀ d ∈ (text ++ c :: rest).head?, isQuiet d := by
      intro d head
      cases text with
      | nil => exact Option.some.inj head ▸ first
      | cons e text => exact Option.some.inj head ▸ quiet e List.mem_cons_self
    have lead : Reads nest none (Source.marked nest.mode.mark margin) nest
        ('/' :: List.replicate (count + 1) fill ++ (text ++ c :: rest)) :=
      reads_quiet quoted quietMargin fun d head => Option.some.inj head ▸ ⟨rfl, by decide⟩
    obtain ⟨spelled, after, written, marker, quotedAfter, uncoded⟩ :=
      exists_reads_marker (lastOf none (Source.marked nest.mode.mark margin)) count filler quoted inside next
    have whole : Reads nest none (Source.marked nest.mode.mark margin ++
        (spelled ++ Source.marked after.mode.mark text)) after (c :: rest) := by
      have body : Reads nest _ (spelled ++ Source.marked after.mode.mark text) after (c :: rest) :=
        .append (by rwa [map_fst_marked]) (reads_quiet quotedAfter quiet (.of_quiet first))
      refine .append ?_ body
      rwa [List.map_append, written, map_fst_marked, List.append_assoc]
    have text : (Source.marked nest.mode.mark margin ++
        (spelled ++ Source.marked after.mode.mark text)).map (·.1) = before := by
      rw [List.map_append, List.map_append, written, map_fst_marked, map_fst_marked, shape]
    rintro rfl
    have code := readsCode_of_step (whole.mark_eq (by rwa [text])).symm
    rw [uncoded] at code
    cases code
  · obtain ⟨code, other⟩ := not_or.mp inside
    obtain rfl := filler.resolve_right other
    have shape : before = margin ++ '/' :: '/' :: (List.replicate count '/' ++ text) := by
      rw [shape, List.replicate_succ]
      rfl
    subst shape
    exact ne_code_of_lineComment quoted (Bool.of_not_eq_false code) quietMargin marked

/-! ### Names -/

theorem code_notMem_ahead (nest : Nest) (last : Option Char) (c : Char) (rest : List Char) :
    Mark.code ∉ (step nest last c rest).ahead := by
  have quoteTail (triple : Bool) : Mark.code ∉ quoteTail triple := by cases triple <;> simp [Source.quoteTail]
  unfold step codeStep commentStep stringStep
  repeat' split
  all_goals simp [quoteTail]

/-- The reader after some characters of a line. Marks that it has settled ahead are never those of code. -/
private theorem exists_reader (ahead : List Mark) (quoted : nest.IsQuoted) (last : Option Char)
    (settled : Mark.code ∉ ahead) (before follow : List Char) :
    ∃ spelled left after, spelled.map (·.1) = before ∧ Mark.code ∉ left ∧ after.IsQuoted ∧
      marksFrom ahead nest last (before ++ follow) =
        (marksFrom left after (lastOf last spelled) follow).map (spelled.map (·.2) ++ ·) id := by
  induction before generalizing ahead nest last with
  | nil => exact ⟨[], ahead, nest, rfl, settled, quoted, rfl⟩
  | cons d before ih =>
    have grown (mark : Mark) (more : List Mark) (next : Nest) (quoted : next.IsQuoted) (settled : Mark.code ∉ more)
        (now : marksFrom ahead nest last (d :: (before ++ follow)) =
          (marksFrom more next (some d) (before ++ follow)).map (mark :: ·) id) :
        ∃ spelled left after, spelled.map (·.1) = d :: before ∧ Mark.code ∉ left ∧ after.IsQuoted ∧
          marksFrom ahead nest last (d :: before ++ follow) =
            (marksFrom left after (lastOf last spelled) follow).map (spelled.map (·.2) ++ ·) id := by
      obtain ⟨spelled, left, after, text, still, quotedAfter, later⟩ := ih more quoted (some d) settled
      have shifted : lastOf last ((d, mark) :: spelled) = lastOf (some d) spelled :=
        (Reads.lastOf_append last [(d, mark)] spelled).symm
      refine ⟨(d, mark) :: spelled, left, after, by rw [List.map_cons, text], still, quotedAfter, ?_⟩
      rw [List.cons_append, now, later, shifted]
      rfl
    cases ahead with
    | cons mark ahead => exact grown mark ahead nest quoted (fun member => settled (.tail _ member)) rfl
    | nil => exact grown _ _ _ (quoted.step last d _) (code_notMem_ahead nest last d _) rfl

theorem exists_reads_of_code (quoted : nest.IsQuoted)
    (marked : MarkAt (markLine nest (before ++ c :: rest)) (byteLength before) c .code) :
    ∃ spelled after, spelled.map (·.1) = before ∧ after.IsQuoted ∧ readsCode after.mode ∧
      Reads nest none spelled after (c :: rest) := by
  obtain ⟨spelled, left, after, rfl, still, quotedAfter, reads⟩ :=
    exists_reader [] quoted none List.not_mem_nil before (c :: rest)
  have nothing : left = [] := by
    have here := getElem?_marksFrom_of_markAt marked
    have size : (spelled.map (·.1)).length = (spelled.map (·.2)).length := by
      rw [List.length_map, List.length_map]
    rw [reads, Prod.map_fst, size, List.getElem?_append_right (Nat.le_refl _), Nat.sub_self] at here
    cases left with
    | nil => rfl
    | cons mark left =>
      obtain rfl : mark = .code := Option.some.inj here
      exact absurd List.mem_cons_self still
  rw [nothing] at reads
  have reads : Reads nest none spelled after (c :: rest) := reads
  exact ⟨spelled, after, rfl, quotedAfter, readsCode_of_step (reads.mark_eq marked).symm, reads⟩

private theorem mark_step_iff (code : readsCode nest.mode) (quiet : isQuiet c) :
    (step nest last c rest).mark = .code ↔
      ¬ (c = 'r' ∧ rest.head?.any isQuote ∧ last.any isNameChar = false) := by
  rw [step_of_readsCode code]
  constructor
  · rintro now ⟨rfl, quote, free⟩
    cases rest with
    | nil => cases quote
    | cons d rest =>
      have quote : isQuote d = true := quote
      have letter : isQuote 'r' = false := rfl
      have raw : (codeStep nest last 'r' (d :: rest)).mark = .literal := by simp [codeStep, letter, quote, free]
      rw [raw] at now
      cases now
  · intro plain
    rw [codeStep_quiet quiet]
    intro letter quote
    exact Bool.of_not_eq_false fun free => plain ⟨letter, quote, free⟩

end

/-- The name ends in an `r` right before a quote, after a letter beyond ASCII. Read as code, such an `r` belongs to
the literal. -/
def EndsRaw (name line : List Char) (column : Nat) : Prop :=
  ∃ stem c quote, name = stem ++ [c, 'r'] ∧ isNameChar c = false ∧ isQuote quote ∧
    StandsAt (name ++ [quote]) line column

section
variable {nest : Nest} {before after : List Char} {c : Char}

private theorem endsRaw_iff {stem : List Char} {e d : Char} :
    EndsRaw (stem ++ [e, d]) (before ++ (stem ++ [e, d] ++ after)) (byteLength before) ↔
      d = 'r' ∧ after.head?.any isQuote ∧ isNameChar e = false := by
  constructor
  · rintro ⟨other, c, quote, same, free, isQuote, first, last, split, start⟩
    obtain ⟨rfl, tail⟩ := List.append_inj' same rfl
    obtain ⟨rfl, rfl⟩ : e = c ∧ d = 'r' := by simpa using tail
    have prefixes : before = first := by
      rw [← takeBytes_append before (stem ++ [e, 'r'] ++ after), split, ← start, takeBytes_append]
    rw [prefixes, List.append_assoc (stem ++ [e, 'r'])] at split
    have follows : after = quote :: last := List.append_cancel_left (List.append_cancel_left split)
    exact ⟨rfl, by rw [follows]; exact isQuote, free⟩
  · rintro ⟨rfl, quote, free⟩
    cases after with
    | nil => cases quote
    | cons d after => exact ⟨stem, e, d, rfl, free, quote, before, after, by simp, rfl⟩

private theorem Reads.stem {spelled : List (Char × Mark)} {nest' : Nest} {stem : List Char} {d : Char}
    (reads : Reads nest none spelled nest' (stem ++ d :: after)) (quoted : nest'.IsQuoted) (code : readsCode nest'.mode)
    (quiet : ∀ c ∈ stem, isQuiet c) (quietLast : isQuiet d) :
    Reads nest none (spelled ++ Source.marked .code stem) nest' (d :: after) := by
  have name : Reads nest' (lastOf none spelled) (Source.marked nest'.mode.mark stem) nest' (d :: after) :=
    reads_quiet quoted quiet (.of_quiet quietLast)
  rw [mark_eq_code_iff.mpr code] at name
  refine .append ?_ name
  rwa [map_fst_marked]

/-- Of a name read as code all but the last character is code. That one is code when a step says so. -/
private theorem standsAsCode_append_iff {name : String} {spelled : List (Char × Mark)} {nest' : Nest}
    {stem : List Char} {e d : Char} (quoted : nest'.IsQuoted) (code : readsCode nest'.mode)
    (reads : Reads nest none spelled nest' (stem ++ [e, d] ++ after)) (text : name.toList = stem ++ [e, d])
    (quiet : ∀ c ∈ stem ++ [e, d], isQuiet c) :
    StandsAsCode name (markLine nest (spelled.map (·.1) ++ (stem ++ [e, d] ++ after)))
      (byteLength (spelled.map (·.1))) ↔ (step nest' (some e) d after).mark = .code := by
  have shape : stem ++ [e, d] ++ after = stem ++ [e] ++ d :: after := by simp
  have whole : Reads nest none (spelled ++ Source.marked .code (stem ++ [e])) nest' (d :: after) := by
    rw [List.append_cons] at quiet
    obtain ⟨quietStem, quietLast⟩ := List.forall_mem_append.mp quiet
    rw [shape] at reads
    exact reads.stem quoted code quietStem (quietLast d List.mem_cons_self)
  have last : lastOf none (spelled ++ Source.marked .code (stem ++ [e])) = some e := by
    simp [lastOf, Source.marked]
  have line : spelled.map (·.1) ++ (stem ++ [e, d] ++ after) =
      (spelled ++ Source.marked .code (stem ++ [e])).map (·.1) ++ d :: after := by
    rw [List.map_append, map_fst_marked, shape]
    exact (List.append_assoc ..).symm
  rw [line, ← last]
  constructor
  · intro stands
    refine (whole.mark_eq ?_).symm
    obtain ⟨first, word, rest, split, start, written, allCode⟩ := stands
    rw [text, List.append_cons] at written
    obtain ⟨body, tail, rfl, bodyText, tailText⟩ := List.map_eq_append_iff.mp written
    obtain ⟨head, rfl, rfl⟩ : ∃ head, tail = [head] ∧ head.1 = d := by simpa [List.map_eq_singleton_iff] using tailText
    have isCode : head.2 = .code := allCode head (by simp)
    refine ⟨first ++ body, rest, ?_, ?_⟩
    · rw [split, ← isCode]
      simp
    · rw [List.map_append, byteLength_append, start, bodyText, ← byteLength_append, List.map_append, map_fst_marked]
  · intro now
    let later := step nest' (lastOf none (spelled ++ Source.marked .code (stem ++ [e]))) d after
    have marks : (d :: after).zip
        (marksFrom [] nest' (lastOf none (spelled ++ Source.marked .code (stem ++ [e]))) (d :: after)).1 =
        (d, later.mark) :: after.zip (marksFrom later.ahead later.nest (some d) after).1 := rfl
    refine ⟨spelled, Source.marked .code (stem ++ [e, d]),
      after.zip (marksFrom later.ahead later.nest (some d) after).1, ?_, rfl, ?_, ?_⟩
    · rw [whole.markLine_eq, marks, now]
      simp [Source.marked]
    · rw [map_fst_marked, text]
    · intro c member
      obtain ⟨-, -, rfl⟩ := List.mem_map.mp member
      rfl

/-- A name that begins as code is code to its end, unless that makes a literal a raw one. -/
theorem standsAsCode_iff {name : String} {word line : List Char} (quoted : nest.IsQuoted)
    (quiet : ∀ d ∈ name.toList, isQuiet d) (begins : name.toList = c :: word)
    (shape : line = before ++ (name.toList ++ after))
    (marked : MarkAt (markLine nest line) (byteLength before) c .code) :
    StandsAsCode name (markLine nest line) (byteLength before) ↔
      ¬ EndsRaw name.toList line (byteLength before) := by
  subst shape
  have short : c :: word = [c] ∨ ∃ stem e d, c :: word = stem ++ [e, d] := by
    rcases List.eq_nil_or_concat word with rfl | ⟨others, d, rfl⟩
    · exact .inl rfl
    · rcases List.eq_nil_or_concat (c :: others) with empty | ⟨stem, e, split⟩
      · cases empty
      · exact .inr ⟨stem, e, d, by rw [List.concat_eq_append, ← List.cons_append, split]; simp⟩
  rcases short with short | ⟨stem, e, d, split⟩
  · rw [begins, short] at marked ⊢
    refine ⟨?_, fun _ => ?_⟩
    · rintro - ⟨stem, e, quote, same, -⟩
      have length := congrArg List.length same
      simp at length
    · obtain ⟨first, rest, split, start⟩ := marked
      refine ⟨first, [(c, .code)], rest, split, start, by rw [begins, short]; rfl, ?_⟩
      intro head member
      rw [List.mem_singleton.mp member]
  · rw [begins] at marked
    obtain ⟨spelled, nest', rfl, quoted', code, reads⟩ := exists_reads_of_code quoted marked
    rw [begins, split] at quiet ⊢
    have reads : Reads nest none spelled nest' (c :: word ++ after) := reads
    rw [split] at reads
    rw [standsAsCode_append_iff quoted' code reads (begins.trans split) quiet, endsRaw_iff,
      mark_step_iff code (quiet d (by simp)), Option.any_some]

end
end DeadCode.Source
