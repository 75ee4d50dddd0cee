import DeadCode.Proofs.Blanking

/-!
What a blanked line shows of the line itself. Positions stay, a word that is shown stands in the line as code,
and what is marked at a position of the line decides what is shown there.
-/
namespace DeadCode.Source
open DeadCode.Text

/-! ### What is visible of a line -/

def markedFrom : Nest → List (List Char) → List (List (Char × Mark))
  | _, [] => []
  | nest, line :: rest =>
    line.zip (marksFrom [] nest none line).1 :: markedFrom (sanitizeLine nest line).2 rest

def markedLines (lines : List (List Char)) : List (List (Char × Mark)) := markedFrom .outermost lines

def codeOf (line : List (Char × Mark)) : List Char := line.flatMap fun c => visible c.1 c.2

theorem codeOf_cons (head : Char × Mark) (line : List (Char × Mark)) :
    codeOf (head :: line) = visible head.1 head.2 ++ codeOf line := rfl

theorem length_marksFrom (ahead : List Mark) (nest : Nest) (last : Option Char) (line : List Char) :
    (marksFrom ahead nest last line).1.length = line.length := by
  fun_induction marksFrom ahead nest last line <;> simp_all

def markLine (nest : Nest) (line : List Char) : List (Char × Mark) :=
  line.zip (marksFrom [] nest none line).1

theorem map_fst_markLine (nest : Nest) (line : List Char) : (markLine nest line).map (·.1) = line :=
  List.map_fst_zip (Nat.le_of_eq (length_marksFrom _ _ _ _).symm)

theorem map_code_sanitize (lines : List (List Char)) :
    (sanitize lines).map (·.code) = (markedLines lines).map codeOf := by
  suffices ∀ nest, (sanitizeFrom nest lines).map (·.code) = (markedFrom nest lines).map codeOf from this _
  intro nest
  induction lines generalizing nest with
  | nil => rfl
  | cons line rest ih => exact congrArg (_ :: ·) (ih _)

def StandsAsCode (name : String) (line : List (Char × Mark)) (column : Nat) : Prop :=
  ∃ before word after, line = before ++ (word ++ after) ∧ byteLength (before.map (·.1)) = column ∧
    word.map (·.1) = name.toList ∧ ∀ c ∈ word, c.2 = .code

theorem visible_cases (c : Char) (mark : Mark) :
    mark = .code ∧ visible c mark = [c] ∨ ∃ n, c.utf8Size = n + 1 ∧ visible c mark = List.replicate (n + 1) ' ' := by
  obtain ⟨n, size⟩ : ∃ n, c.utf8Size = n + 1 := Nat.exists_eq_add_one.mpr c.utf8Size_pos
  cases mark with
  | code => exact .inl ⟨rfl, rfl⟩
  | literal => exact .inr ⟨n, size, congrArg (List.replicate · ' ') size⟩
  | comment => exact .inr ⟨n, size, congrArg (List.replicate · ' ') size⟩

private theorem code_of_codeOf_eq {line : List (Char × Mark)} {word after : List Char} (noBlank : ' ' ∉ word)
    (shown : codeOf line = word ++ after) :
    ∃ text rest, line = text ++ rest ∧ text.map (·.1) = word ∧ ∀ c ∈ text, c.2 = .code := by
  induction word generalizing line with
  | nil => exact ⟨[], line, rfl, rfl, nofun⟩
  | cons d word ih =>
    obtain ⟨notBlank, others⟩ := List.ne_and_not_mem_of_not_mem_cons noBlank
    cases line with
    | nil => cases shown
    | cons head line =>
      rw [codeOf_cons] at shown
      rcases visible_cases head.1 head.2 with ⟨code, char⟩ | ⟨n, _, blanks⟩
      · rw [char] at shown
        obtain ⟨rfl, shownLater⟩ := List.cons.inj shown
        obtain ⟨text, rest, rfl, written, allCode⟩ := ih others shownLater
        exact ⟨head :: text, rest, rfl, congrArg (head.1 :: ·) written, List.forall_mem_cons.mpr ⟨code, allCode⟩⟩
      · rw [blanks] at shown
        exact absurd (List.cons.inj shown).1 notBlank

private theorem StandsAsCode.cons {name : String} {line : List (Char × Mark)} {column : Nat}
    (stands : StandsAsCode name line column) (head : Char × Mark) :
    StandsAsCode name (head :: line) (head.1.utf8Size + column) := by
  obtain ⟨before, word, after, rfl, column, written, code⟩ := stands
  refine ⟨head :: before, word, after, rfl, ?_, written, code⟩
  rw [List.map_cons, byteLength_cons, column]

/-- A word without blanks does not begin among blanks. -/
private theorem exists_append_of_blanks {n : Nat} {shown before word after : List Char} (nonempty : word ≠ [])
    (noBlank : ' ' ∉ word) (same : List.replicate n ' ' ++ shown = before ++ (word ++ after)) :
    ∃ others, before = List.replicate n ' ' ++ others ∧ shown = others ++ (word ++ after) := by
  induction n generalizing before with
  | zero => exact ⟨before, rfl, same⟩
  | succ n ih =>
    cases before with
    | nil =>
      obtain ⟨c, rest, rfl⟩ := List.exists_cons_of_ne_nil nonempty
      have blank : ' ' = c := (List.cons.inj same).1
      exact absurd (blank ▸ List.mem_cons_self) noBlank
    | cons b before =>
      obtain ⟨rfl, later⟩ := List.cons.inj same
      obtain ⟨others, rfl, shown⟩ := ih later
      exact ⟨others, rfl, shown⟩

/-- A word without blanks that a blanked line shows stands in the line itself at the same position. -/
theorem standsAsCode_of_codeOf_eq {name : String} {line : List (Char × Mark)} {before after : List Char}
    (nonempty : name.toList ≠ []) (noBlank : ' ' ∉ name.toList)
    (shown : codeOf line = before ++ (name.toList ++ after)) : StandsAsCode name line (byteLength before) := by
  induction line generalizing before with
  | nil =>
    have := List.append_eq_nil_iff.mp shown.symm
    exact absurd (List.append_eq_nil_iff.mp this.2).1 nonempty
  | cons head line ih =>
    by_cases here : before = []
    · obtain ⟨text, rest, whole, written, code⟩ := code_of_codeOf_eq noBlank (here ▸ shown)
      exact ⟨[], text, rest, whole, here ▸ rfl, written, code⟩
    rw [codeOf_cons] at shown
    rcases visible_cases head.1 head.2 with ⟨_, char⟩ | ⟨n, size, blanks⟩
    · obtain ⟨b, others, rfl⟩ := List.exists_cons_of_ne_nil here
      rw [char] at shown
      obtain ⟨rfl, later⟩ := List.cons.inj shown
      exact (ih later).cons head
    · rw [blanks] at shown
      obtain ⟨others, rfl, later⟩ := exists_append_of_blanks nonempty noBlank shown
      rw [byteLength_append, byteLength_blanks, ← size]
      exact (ih later).cons head

/-! ### Positions -/

def StandsAt (text line : List Char) (column : Nat) : Prop :=
  ∃ before after, line = before ++ (text ++ after) ∧ byteLength before = column

theorem StandsAt.append_left {text line : List Char} {column : Nat} (stands : StandsAt text line column)
    (before after : List Char) : StandsAt text (before ++ (line ++ after)) (byteLength before + column) := by
  obtain ⟨first, last, rfl, rfl⟩ := stands
  exact ⟨before ++ first, last ++ after, by simp, byteLength_append before first⟩

def commentBytesOf (line : List (Char × Mark)) : List Bool :=
  line.flatMap fun c => List.replicate c.1.utf8Size (c.2 == .comment)

theorem sanitizeLine_fst (nest : Nest) (line : List Char) :
    (sanitizeLine nest line).1 = ⟨codeOf (markLine nest line), commentBytesOf (markLine nest line)⟩ := rfl

theorem codeOf_append (a b : List (Char × Mark)) : codeOf (a ++ b) = codeOf a ++ codeOf b :=
  List.flatMap_append

theorem codeOf_marked_code (text : List Char) : codeOf (marked .code text) = text := by
  induction text with
  | nil => rfl
  | cons c rest ih => exact congrArg (c :: ·) ih

private theorem byteLength_visible (c : Char) (mark : Mark) : byteLength (visible c mark) = c.utf8Size := by
  cases mark <;> simp [visible, byteLength_blanks]

theorem byteLength_codeOf (line : List (Char × Mark)) :
    byteLength (codeOf line) = byteLength (line.map (·.1)) := by
  induction line with
  | nil => rfl
  | cons head line ih => rw [codeOf_cons, byteLength_append, byteLength_visible, ih, List.map_cons, byteLength_cons]

private theorem length_commentBytesOf (line : List (Char × Mark)) :
    (commentBytesOf line).length = byteLength (line.map (·.1)) := by
  induction line with
  | nil => rfl
  | cons head line ih =>
    have first : commentBytesOf (head :: line) =
        List.replicate head.1.utf8Size (head.2 == .comment) ++ commentBytesOf line := rfl
    rw [first, List.length_append, List.length_replicate, ih, List.map_cons, byteLength_cons]

/-- A character begins at a position and has a mark. -/
def MarkAt (line : List (Char × Mark)) (column : Nat) (c : Char) (mark : Mark) : Prop :=
  ∃ before after, line = before ++ (c, mark) :: after ∧ byteLength (before.map (·.1)) = column

section
variable {nest : Nest} {line : List Char} {column : Nat} {c : Char} {mark : Mark}

theorem StandsAt.exists_markAt {word : List Char} (stands : StandsAt (c :: word) line column) (nest : Nest) :
    ∃ mark, MarkAt (markLine nest line) column c mark := by
  obtain ⟨before, after, split, start⟩ := stands
  have same := map_fst_markLine nest line
  rw [split] at same
  obtain ⟨first, others, whole, firstText, othersText⟩ := List.map_eq_append_iff.mp same
  obtain ⟨head, rest, rfl, headText, -⟩ := List.map_eq_cons_iff.mp othersText
  refine ⟨head.2, first, rest, ?_, by rw [firstText, start]⟩
  rw [split, whole, ← headText]

theorem MarkAt.isCommentAt (marked : MarkAt (markLine nest line) column c mark) :
    (sanitizeLine nest line).1.isCommentAt column = (mark == .comment) := by
  obtain ⟨before, after, split, start⟩ := marked
  have bytes : commentBytesOf (markLine nest line) =
      commentBytesOf before ++ (List.replicate c.utf8Size (mark == .comment) ++ commentBytesOf after) := by
    rw [split]
    exact List.flatMap_append
  have here : 0 < (List.replicate c.utf8Size (mark == .comment)).length := by
    rw [List.length_replicate]
    exact c.utf8Size_pos
  rw [sanitizeLine_fst, SanitizedLine.isCommentAt, bytes, ← start, ← length_commentBytesOf,
    List.getElem?_append_right (Nat.le_refl _), Nat.sub_self, List.getElem?_append_left here,
    List.getElem?_replicate_of_lt c.utf8Size_pos, Option.getD_some]

theorem MarkAt.charAt?_raw (marked : MarkAt (markLine nest line) column c mark) : charAt? line column = some c := by
  obtain ⟨before, after, split, rfl⟩ := marked
  have text := map_fst_markLine nest line
  rw [split, List.map_append, List.map_cons] at text
  rw [charAt?, ← text, dropBytes_append, List.head?_cons]

theorem MarkAt.charAt?_code (marked : MarkAt (markLine nest line) column c mark) :
    charAt? (sanitizeLine nest line).1.code column = some (if mark = .code then c else ' ') := by
  obtain ⟨before, after, split, rfl⟩ := marked
  obtain ⟨n, size⟩ : ∃ n, c.utf8Size = n + 1 := Nat.exists_eq_add_one.mpr c.utf8Size_pos
  rw [sanitizeLine_fst, split, codeOf_append, codeOf_cons, charAt?, ← byteLength_codeOf, dropBytes_append]
  cases mark <;> simp [visible, size, List.replicate_succ]

/-- What is shown and is not blank is code. -/
theorem MarkAt.eq_code_of_charAt? (marked : MarkAt (markLine nest line) column c mark) (notBlank : c ≠ ' ')
    (shown : charAt? line column = charAt? (sanitizeLine nest line).1.code column) : mark = .code := by
  rw [marked.charAt?_raw, marked.charAt?_code] at shown
  by_contra other
  rw [if_neg other] at shown
  exact notBlank (Option.some.inj shown)

end

theorem StandsAsCode.markAt {name : String} {line : List (Char × Mark)} {column : Nat} {c : Char}
    {rest : List Char} (stands : StandsAsCode name line column) (text : name.toList = c :: rest) :
    MarkAt line column c .code := by
  obtain ⟨before, word, after, rfl, start, written, code⟩ := stands
  rw [text] at written
  obtain ⟨head, others, rfl, rfl, -⟩ := List.map_eq_cons_iff.mp written
  have first : head.2 = .code := code head List.mem_cons_self
  exact ⟨before, others ++ after, by rw [List.cons_append, ← first], start⟩

theorem StandsAsCode.standsAt_raw {name : String} {nest : Nest} {line : List Char} {column : Nat}
    (stands : StandsAsCode name (markLine nest line) column) : StandsAt name.toList line column := by
  obtain ⟨before, word, after, split, start, written, -⟩ := stands
  have text := map_fst_markLine nest line
  rw [split, List.map_append, List.map_append, written] at text
  exact ⟨before.map (·.1), after.map (·.1), text.symm, start⟩

theorem StandsAsCode.standsAt_code {name : String} {line : List (Char × Mark)} {column : Nat}
    (stands : StandsAsCode name line column) : StandsAt name.toList (codeOf line) column := by
  obtain ⟨before, word, after, rfl, start, written, code⟩ := stands
  have shown : codeOf word = word.map (·.1) := by
    clear written
    induction word with
    | nil => rfl
    | cons head word ih =>
      rw [codeOf_cons, code head List.mem_cons_self, ih fun c member => code c (List.mem_cons_of_mem _ member)]
      rfl
  refine ⟨codeOf before, codeOf after, ?_, by rw [byteLength_codeOf, start]⟩
  rw [codeOf_append, codeOf_append, shown, written]

end DeadCode.Source
