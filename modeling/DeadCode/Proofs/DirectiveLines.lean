import DeadCode.Proofs.Declarations
import DeadCode.Proofs.LinkReading

/-!
Statements over several lines. A layout of a link is cut into lines; each of them is read outside of
literals and comments, only the last one shows the semicolon, and joining them again gives a layout of the
same link. Lines that are blank or hold only a comment begin no statement.
-/
namespace DeadCode.Text

/-! ### Lines -/

def withoutReturn (line : List Char) : List Char := (dropReturn line.reverse).reverse

theorem withoutReturn_concat (line : List Char) : withoutReturn (line ++ ['\r']) = line := by
  simp [withoutReturn, dropReturn]

theorem withoutReturn_of_ne {line : List Char} (ends : line.getLast? ≠ some '\r') : withoutReturn line = line := by
  have head : line.reverse.head? ≠ some '\r' := by rwa [List.head?_reverse]
  unfold withoutReturn dropReturn
  split
  case h_1 rest same => rw [same] at head; exact absurd rfl head
  case h_2 => rw [List.reverse_reverse]

/-- A line loses one carriage return at most. -/
theorem withoutReturn_cases (line : List Char) :
    line.getLast? ≠ some '\r' ∧ withoutReturn line = line ∨ line = withoutReturn line ++ ['\r'] := by
  by_cases ends : line.getLast? = some '\r'
  · obtain ⟨before, rfl⟩ := List.getLast?_eq_some_iff.mp ends
    rw [withoutReturn_concat]
    exact .inr rfl
  · exact .inl ⟨ends, withoutReturn_of_ne ends⟩

theorem withoutReturn_append {first : List Char} (ends : first.getLast? ≠ some '\r') (second : List Char) :
    withoutReturn (first ++ second) = first ++ withoutReturn second := by
  rcases withoutReturn_cases second with ⟨last, same⟩ | same
  · rw [same]
    apply withoutReturn_of_ne
    rw [List.getLast?_append]
    cases final : second.getLast? with
    | none => exact ends
    | some c => rwa [final] at last
  · nth_rewrite 1 [same]
    rw [← List.append_assoc, withoutReturn_concat]

theorem withoutReturn_ne_nil {line : List Char} {c : Char} (head : c ∈ line.head?) (kept : c ≠ '\r') :
    withoutReturn line ≠ [] := by
  intro none
  rcases withoutReturn_cases line with ⟨-, same⟩ | same
  · rw [← same, none] at head
    cases head
  · rw [none] at same
    rw [same] at head
    exact kept (Option.some.inj head).symm

private theorem linesAfter_char {c : Char} (other : c ≠ '\n') (read rest : List Char) :
    linesAfter read (c :: rest) = linesAfter (c :: read) rest := by
  rw [linesAfter]
  exact other

private theorem linesAfter_newline {line : List Char} (whole : '\n' ∉ line) (read rest : List Char) :
    linesAfter read (line ++ '\n' :: rest) = (dropReturn (line.reverse ++ read)).reverse :: linesAfter [] rest := by
  induction line generalizing read with
  | nil => rw [List.nil_append, linesAfter, List.reverse_nil, List.nil_append]
  | cons c line ih =>
    obtain ⟨other, later⟩ := List.ne_and_not_mem_of_not_mem_cons whole
    rw [List.cons_append, linesAfter_char other.symm, ih later, List.reverse_cons, List.append_assoc]
    rfl

theorem lines_newline {line : List Char} (whole : '\n' ∉ line) (rest : List Char) :
    lines (line ++ '\n' :: rest) = withoutReturn line :: lines rest := by
  rw [lines, linesAfter_newline whole, List.append_nil]
  rfl

/-- A line that is not empty may end with the text. -/
theorem lines_concat_newline {c : Char} (other : c ≠ '\n') (kept : c ≠ '\r') (text : List Char) :
    lines (text ++ c :: ['\n']) = lines (text ++ [c]) := by
  suffices ∀ read, linesAfter read (text ++ c :: ['\n']) = linesAfter read (text ++ [c]) from this []
  induction text with
  | nil =>
    intro read
    have same : dropReturn (c :: read) = c :: read := by
      rw [dropReturn]
      exact fun _ is => kept (List.cons.inj is).1
    rw [List.nil_append, List.nil_append, linesAfter_char other, linesAfter_char other]
    show (dropReturn (c :: read)).reverse :: [] = _
    rw [same]
    rfl
  | cons d text ih =>
    intro read
    by_cases newline : d = '\n'
    · rw [newline, List.cons_append, List.cons_append, linesAfter, linesAfter, ih]
    · rw [List.cons_append, List.cons_append, linesAfter_char newline, linesAfter_char newline, ih]

end DeadCode.Text

namespace DeadCode.Directive
open DeadCode.Text DeadCode.Text.Pattern DeadCode.Source

/-! ### Lines as they are read -/

/-- The lines of a text, each with what is left of it without literals and comments. -/
def readLines (text : List Char) : List (List Char × SanitizedLine) := (lines text).zip (sanitize (lines text))

theorem statements_eq (text : List Char) : statements text = statementsFrom 0 (readLines text) := rfl

/-- A line that is read from outside of everything to outside of everything. -/
theorem readLines_newline {line : List Char} (whole : '\n' ∉ line) (rest : List Char)
    (closed : (sanitizeLine .outermost (withoutReturn line)).2 = .outermost) :
    readLines (line ++ '\n' :: rest) =
      (withoutReturn line, (sanitizeLine .outermost (withoutReturn line)).1) :: readLines rest := by
  rw [readLines, lines_newline whole, sanitize, sanitizeFrom]
  simp only [closed]
  rfl

theorem sanitizeLine_of_reads {spelled : List (Char × Mark)} (reads : Reads .outermost none spelled .outermost []) :
    sanitizeLine .outermost (spelled.map (·.1)) = (⟨codeOf spelled, commentBytesOf spelled⟩, .outermost) := by
  have marks := reads.markLine_eq
  simp only [List.append_nil, List.zip_nil_left] at marks
  have after : (marksFrom [] .outermost none (spelled.map (·.1))).2 = .outermost := by
    rw [← List.append_nil (spelled.map (·.1)), reads]
    rfl
  have line : (sanitizeLine .outermost (spelled.map (·.1))).1 = ⟨codeOf spelled, commentBytesOf spelled⟩ := by
    rw [sanitizeLine_fst, marks]
  have next : (sanitizeLine .outermost (spelled.map (·.1))).2 = .outermost := by
    show (marksFrom [] .outermost none (spelled.map (·.1))).2.endLine = .outermost
    rw [after]
    rfl
  exact Prod.ext line next

/-! ### Atoms -/

inductive Atom where
  | char (c : Char)
  | address (address : Address)
deriving DecidableEq

def Atom.spelled : Atom → List (Char × Mark)
  | char c => [(c, .code)]
  | address a => marked .literal a.written

def spelledOf (atoms : List Atom) : List (Char × Mark) := atoms.flatMap Atom.spelled

def textOf (atoms : List Atom) : List Char := (spelledOf atoms).map (·.1)

def startsWithAddress : List Atom → Bool
  | .address _ :: _ => true
  | _ => false

/-- The characters of code neither begin a literal or comment nor make an address a raw one. -/
def IsCalm : List Atom → Prop
  | [] => True
  | .char c :: rest => isQuiet c ∧ (c = 'r' → startsWithAddress rest = false) ∧ IsCalm rest
  | .address _ :: rest => IsCalm rest

private theorem head?_textOf {rest : List Atom} (calm : IsCalm rest) (code : startsWithAddress rest = false) :
    (textOf rest).head?.any isQuote = false := by
  cases rest with
  | nil => rfl
  | cons atom rest =>
    cases atom with
    | address a => cases code
    | char c =>
      have next : Continues [c] := .of_quiet calm.1
      exact (next c rfl).1

section
variable (address : Address)

private theorem Address.plain_of_mem {c : Char} (member : c ∈ address.text) :
    c ≠ address.quote.char ∧ c ≠ '\\' ∧ c ≠ '$' ∧ c ≠ '\n' := by
  have part := address.isAddressPart_of_mem c member
  simp only [isAddressPart, List.contains_cons, List.contains_nil, Bool.not_eq_true', Bool.or_eq_false_iff,
    beq_eq_false_iff_ne] at part
  obtain ⟨single, double, escape, dollar, newline, -⟩ := part
  refine ⟨?_, escape, dollar, newline⟩
  cases address.quote with
  | single => exact single
  | double => exact double

private def Address.inside : Nest := [.string address.quote.char false false, .code]

private theorem step_opening (last : Option Char) (follow : List Char) :
    step .outermost last address.quote.char (address.text ++ follow) = ⟨.literal, [], address.inside⟩ := by
  obtain ⟨c, rest, text⟩ := List.exists_cons_of_ne_nil address.nonempty
  have other := (address.plain_of_mem (text ▸ List.mem_cons_self)).1
  have triple : opensTriple address.quote.char (address.text ++ follow) = false := by simp [opensTriple, text, other]
  show codeStep _ _ _ _ = _
  rw [codeStep_quote, triple]
  rfl

private theorem reads_body (last : Option Char) (text follow : List Char) (plain : ∀ c ∈ text, c ∈ address.text) :
    Reads address.inside last (marked .literal text) address.inside follow := by
  induction text generalizing last with
  | nil => exact .nothing
  | cons c text ih =>
    obtain ⟨here, later⟩ := List.forall_mem_cons.mp plain
    obtain ⟨quote, escape, dollar, -⟩ := address.plain_of_mem here
    refine .char ?_ (ih _ later)
    show stringStep _ _ _ _ _ _ = _
    simp [stringStep, quote, escape, dollar]

private theorem reads_address (last : Option Char) (follow : List Char) :
    Reads .outermost last (marked .literal address.written) .outermost follow := by
  rw [Address.written, marked_cons, marked_append]
  have opening : Reads .outermost last [(address.quote.char, .literal)] address.inside
      (address.text ++ address.quote.char :: follow) := .char (step_opening address last _) .nothing
  have closing (last : Option Char) : Reads address.inside last [(address.quote.char, .literal)] .outermost follow :=
    .char (stringStep_close address.quote false false _ follow) .nothing
  have body (last : Option Char) : Reads address.inside last (marked .literal address.text) address.inside
      (address.quote.char :: follow) := reads_body address last _ _ fun c member => member
  exact .append (by simpa using opening) (.append (body _) (closing _))

end

/-- Calm text is read as what it is, from outside of everything to outside of everything. -/
theorem reads_of_isCalm {atoms : List Atom} (calm : IsCalm atoms) (last : Option Char) :
    Reads .outermost last (spelledOf atoms) .outermost [] := by
  induction atoms generalizing last with
  | nil => exact .nothing
  | cons atom atoms ih =>
    cases atom with
    | char c =>
      obtain ⟨quiet, raw, later⟩ := calm
      refine Reads.char ?_ (ih later _)
      show codeStep _ _ _ _ = _
      apply codeStep_quiet quiet
      intro isR quote
      rw [List.append_nil] at quote
      exact Bool.noConfusion (quote.symm.trans (head?_textOf later (raw isR)))
    | address a => exact .append (reads_address a last _) (ih calm _)

theorem spelledOf_append (first second : List Atom) :
    spelledOf (first ++ second) = spelledOf first ++ spelledOf second :=
  List.flatMap_append

@[simp] theorem textOf_nil : textOf [] = [] := rfl

@[simp] theorem textOf_append (first second : List Atom) :
    textOf (first ++ second) = textOf first ++ textOf second := by
  rw [textOf, spelledOf_append, List.map_append]
  rfl

@[simp] theorem textOf_char (c : Char) (rest : List Atom) : textOf (.char c :: rest) = c :: textOf rest := rfl

@[simp] theorem textOf_address (address : Address) (rest : List Atom) :
    textOf (.address address :: rest) = address.written ++ textOf rest := by
  show (marked .literal address.written ++ spelledOf rest).map (·.1) = _
  rw [List.map_append, map_fst_marked]
  rfl

@[simp] theorem textOf_chars (text : List Char) : textOf (text.map .char) = text := by
  induction text with
  | nil => rfl
  | cons c text ih => rw [List.map_cons, textOf_char, ih]

theorem IsCalm.left {first second : List Atom} (calm : IsCalm (first ++ second)) : IsCalm first := by
  induction first with
  | nil => trivial
  | cons atom first ih =>
    cases atom with
    | address a => exact ih calm
    | char c =>
      obtain ⟨quiet, raw, later⟩ := calm
      refine ⟨quiet, fun isR => ?_, ih later⟩
      cases first with
      | nil => rfl
      | cons next first =>
        cases next with
        | char => rfl
        | address => exact raw isR

theorem IsCalm.right {first second : List Atom} (calm : IsCalm (first ++ second)) : IsCalm second := by
  induction first with
  | nil => exact calm
  | cons atom first ih =>
    cases atom with
    | address a => exact ih calm
    | char c => exact ih calm.2.2

/-- Quiet text in front, of which no `r` comes right before an address. -/
theorem IsCalm.chars {text : List Char} {rest : List Atom} (calm : IsCalm rest) (quiet : ∀ c ∈ text, isQuiet c)
    (plain : 'r' ∉ text ∨ startsWithAddress rest = false) : IsCalm (text.map .char ++ rest) := by
  induction text with
  | nil => exact calm
  | cons c text ih =>
    obtain ⟨here, later⟩ := List.forall_mem_cons.mp quiet
    refine ⟨here, fun isR => ?_, ih later (plain.imp_left fun free member => free (List.mem_cons_of_mem _ member))⟩
    cases text with
    | cons d text => rfl
    | nil => exact plain.resolve_left fun free => free (isR ▸ List.mem_cons_self)

theorem notMem_textOf {c : Char} {atoms : List Atom} (inAddress : ∀ address : Address, c ∉ address.written)
    (absent : .char c ∉ atoms) : c ∉ textOf atoms := by
  induction atoms with
  | nil => exact List.not_mem_nil
  | cons atom atoms ih =>
    obtain ⟨other, later⟩ := List.ne_and_not_mem_of_not_mem_cons absent
    cases atom with
    | char d =>
      rw [textOf_char, List.mem_cons, not_or]
      exact ⟨fun same => other (same ▸ rfl), ih later⟩
    | address a =>
      rw [textOf_address, List.mem_append, not_or]
      exact ⟨inAddress a, ih later⟩

/-! ### What a calm line shows -/

/-- What a line shows of atoms. -/
theorem codeOf_spelledOf_cons (atom : Atom) (atoms : List Atom) :
    codeOf (spelledOf (atom :: atoms)) = codeOf atom.spelled ++ codeOf (spelledOf atoms) := codeOf_append _ _

theorem codeOf_marked_literal (text : List Char) :
    codeOf (marked .literal text) = List.replicate (byteLength text) ' ' := by
  induction text with
  | nil => rfl
  | cons c text ih =>
    show List.replicate c.utf8Size ' ' ++ codeOf (marked .literal text) = _
    rw [ih, List.replicate_append_replicate, byteLength_cons]

theorem mem_codeOf_spelledOf {c : Char} (visible : c ≠ ' ') (atoms : List Atom) :
    c ∈ codeOf (spelledOf atoms) ↔ .char c ∈ atoms := by
  induction atoms with
  | nil => simp [spelledOf, codeOf]
  | cons atom atoms ih =>
    rw [codeOf_spelledOf_cons, List.mem_append, List.mem_cons, ih]
    cases atom with
    | char d => simp [Atom.spelled, codeOf, Source.visible]
    | address a =>
      have hidden : c ∉ codeOf (Atom.address a).spelled := by
        rw [Atom.spelled, codeOf_marked_literal]
        exact fun member => visible (List.eq_of_mem_replicate member)
      simp [hidden]

theorem beforeComment_of_code {spelled : List (Char × Mark)} (code : ∀ c ∈ spelled, c.2 ≠ .comment)
    (raw shown : List Char) :
    beforeComment raw ⟨shown, commentBytesOf spelled⟩ = raw := by
  have none : (commentBytesOf spelled).findIdx? id = none := by
    rw [List.findIdx?_eq_none_iff]
    intro byte member
    obtain ⟨c, inSpelled, inBytes⟩ := List.mem_flatMap.mp member
    rw [List.eq_of_mem_replicate inBytes]
    exact beq_eq_false_iff_ne.mpr (code c inSpelled)
  rw [beforeComment, none]

theorem ne_comment_of_mem_spelledOf {atoms : List Atom} : ∀ c ∈ spelledOf atoms, c.2 ≠ .comment := by
  intro c member
  obtain ⟨atom, -, inAtom⟩ := List.mem_flatMap.mp member
  cases atom with
  | char d =>
    rw [List.mem_singleton.mp inAtom]
    exact Mark.noConfusion
  | address a =>
    obtain ⟨d, -, rfl⟩ := List.mem_map.mp inAtom
    exact Mark.noConfusion

def keptOf (atoms : List Atom) : List Atom :=
  if atoms.getLast? = some (.char '\r') then atoms.dropLast else atoms

theorem keptOf_cases (atoms : List Atom) : keptOf atoms = atoms ∨ atoms = keptOf atoms ++ [.char '\r'] := by
  unfold keptOf
  split
  case isTrue ends => exact .inr (List.dropLast_append_getLast? _ ends).symm
  case isFalse => exact .inl rfl

theorem getLast?_written (address : Address) : address.written.getLast? = some address.quote.char := by
  rw [Address.written, ← List.cons_append, List.getLast?_concat]

theorem textOf_keptOf (atoms : List Atom) : textOf (keptOf atoms) = withoutReturn (textOf atoms) := by
  rcases List.eq_nil_or_concat atoms with rfl | ⟨before, atom, rfl⟩
  · rfl
  by_cases isReturn : atom = .char '\r'
  · subst isReturn
    have kept : keptOf (before ++ [.char '\r']) = before := by simp [keptOf]
    rw [List.concat_eq_append, kept, textOf_append]
    exact (withoutReturn_concat _).symm
  · have kept : keptOf (before ++ [atom]) = before ++ [atom] := by simp [keptOf, isReturn]
    have ends : (textOf (before ++ [atom])).getLast? ≠ some '\r' := by
      rw [textOf_append]
      cases atom with
      | char c =>
        have other : c ≠ '\r' := fun same => isReturn (same ▸ rfl)
        simp [textOf, spelledOf, Atom.spelled, other]
      | address a =>
        have quote : textOf [.address a] = a.written := (textOf_address a []).trans (List.append_nil _)
        rw [quote, List.getLast?_append, getLast?_written]
        cases a.quote <;> simp [Quote.char]
    rw [List.concat_eq_append, kept, withoutReturn_of_ne ends]

theorem isCalm_keptOf {atoms : List Atom} (calm : IsCalm atoms) : IsCalm (keptOf atoms) := by
  rcases keptOf_cases atoms with same | same
  · rwa [same]
  · rw [same] at calm
    exact calm.left

theorem mem_keptOf {atom : Atom} (other : atom ≠ .char '\r') (atoms : List Atom) :
    atom ∈ keptOf atoms ↔ atom ∈ atoms := by
  rcases keptOf_cases atoms with same | same
  · rw [same]
  · nth_rewrite 2 [same]
    simp [other]

theorem keptOf_append {first : List Atom} (ends : first.getLast? ≠ some (.char '\r')) (second : List Atom) :
    keptOf (first ++ second) = first ++ keptOf second := by
  rcases List.eq_nil_or_concat second with rfl | ⟨before, atom, rfl⟩
  · rw [List.append_nil, keptOf, if_neg ends]
    exact (List.append_nil _).symm
  · rw [List.concat_eq_append, ← List.append_assoc, keptOf, keptOf, List.getLast?_concat, List.getLast?_concat]
    split
    · rw [List.dropLast_concat, List.dropLast_concat]
    · rw [List.append_assoc]

theorem head?_keptOf {atoms : List Atom} : ∀ atom ∈ (keptOf atoms).head?, atom ∈ atoms.head? := by
  intro atom head
  rcases keptOf_cases atoms with same | same
  · rwa [same] at head
  · obtain ⟨rest, text⟩ := List.head?_eq_some_iff.mp head
    rw [same, text]
    rfl

def calmLine (atoms : List Atom) : List Char × SanitizedLine :=
  (textOf (keptOf atoms), ⟨codeOf (spelledOf (keptOf atoms)), commentBytesOf (spelledOf (keptOf atoms))⟩)

theorem newline_notMem_written (address : Address) : '\n' ∉ address.written := by
  have quote : '\n' ≠ address.quote.char := by cases address.quote <;> decide
  have inText : '\n' ∉ address.text := fun member => (address.plain_of_mem member).2.2.2 rfl
  simp [Address.written, quote, inText]

theorem readLines_calm {atoms : List Atom} (calm : IsCalm atoms) (whole : .char '\n' ∉ atoms) (rest : List Char) :
    readLines (textOf atoms ++ '\n' :: rest) = calmLine atoms :: readLines rest := by
  have line : sanitizeLine .outermost (withoutReturn (textOf atoms)) = ((calmLine atoms).2, .outermost) := by
    rw [← textOf_keptOf]
    exact sanitizeLine_of_reads (reads_of_isCalm (isCalm_keptOf calm) none)
  rw [readLines_newline (notMem_textOf newline_notMem_written whole) rest (by rw [line]), line, calmLine, textOf_keptOf]

/-! ### Joining lines -/

def glue (statement text : List Char) : List Char :=
  if statement.isEmpty then text else statement ++ ' ' :: text

theorem glue_ne_nil {statement text : List Char} (nonempty : statement = [] → text ≠ []) :
    glue statement text ≠ [] := by
  cases statement with
  | nil => exact nonempty rfl
  | cons c statement => exact List.cons_ne_nil _ _

theorem glue_glue {statement line : List Char} (nonempty : glue statement line ≠ []) (text : List Char) :
    glue (glue statement line) text = glue statement (line ++ ' ' :: text) := by
  cases statement with
  | nil =>
    have line : line.isEmpty = false := by simpa [glue] using nonempty
    simp [glue, line]
  | cons c statement => simp [glue]

theorem joinStatement_calm {atoms : List Atom} (calm : IsCalm atoms) (whole : .char '\n' ∉ atoms) (bound joined : Nat)
    (statement rest : List Char) :
    joinStatement (bound + 1) statement joined (readLines (textOf atoms ++ '\n' :: rest)) =
      if .char ';' ∈ atoms then (glue statement (withoutReturn (textOf atoms)), joined)
      else joinStatement bound (glue statement (withoutReturn (textOf atoms))) (joined + 1) (readLines rest) := by
  have ends : (calmLine atoms).2.code.contains ';' = decide (.char ';' ∈ atoms) := by
    rw [List.contains_eq_mem, decide_eq_decide]
    exact (mem_codeOf_spelledOf (by decide) _).trans (mem_keptOf (by decide) _)
  have text : beforeComment (calmLine atoms).1 (calmLine atoms).2 = withoutReturn (textOf atoms) := by
    rw [← textOf_keptOf]
    exact beforeComment_of_code ne_comment_of_mem_spelledOf _ _
  rw [readLines_calm calm whole, joinStatement, ends, text]
  simp only [decide_eq_true_eq]
  rfl

/-- A text with its line breaks replaced by blanks. -/
def unbroken : List Char → List Char
  | [] => []
  | '\r' :: '\n' :: rest => ' ' :: unbroken rest
  | '\n' :: rest => ' ' :: unbroken rest
  | c :: rest => c :: unbroken rest

private theorem unbroken_cons {c : Char} {rest : List Char} (inLine : c ≠ '\n')
    (kept : c = '\r' → rest.head? ≠ some '\n') : unbroken (c :: rest) = c :: unbroken rest := by
  rw [unbroken]
  · rintro after same rfl
    exact kept same rfl
  · exact inLine

theorem unbroken_append {first second : List Char} (apart : first.getLast? ≠ some '\r' ∨ second.head? ≠ some '\n') :
    unbroken (first ++ second) = unbroken first ++ unbroken second := by
  have drop {c : Char} {rest : List Char} (apart : (c :: rest).getLast? ≠ some '\r' ∨ second.head? ≠ some '\n') :
      rest.getLast? ≠ some '\r' ∨ second.head? ≠ some '\n' := by
    refine apart.imp_left fun ends same => ends ?_
    rw [List.getLast?_cons, same]
    rfl
  fun_induction unbroken first with
  | case1 => rfl
  | case2 rest ih => exact congrArg (' ' :: ·) (ih (drop (drop apart)))
  | case3 rest ih => exact congrArg (' ' :: ·) (ih (drop apart))
  | case4 c rest pair inLine ih =>
    rw [List.cons_append, unbroken_cons inLine, ih (drop apart), List.cons_append]
    rintro rfl
    cases rest with
    | nil => exact apart.resolve_left fun ends => ends rfl
    | cons d rest =>
      intro head
      obtain rfl : d = '\n' := Option.some.inj head
      exact pair rest rfl rfl

theorem unbroken_of_notMem {text : List Char} (whole : '\n' ∉ text) : unbroken text = text := by
  induction text with
  | nil => rfl
  | cons c text ih =>
    obtain ⟨other, later⟩ := List.ne_and_not_mem_of_not_mem_cons whole
    rw [unbroken_cons other.symm fun _ head => later (List.mem_of_head? head), ih later]

theorem unbroken_newline {line : List Char} (whole : '\n' ∉ line) (rest : List Char) :
    unbroken (line ++ '\n' :: rest) = withoutReturn line ++ ' ' :: unbroken rest := by
  rcases withoutReturn_cases line with ⟨ends, same⟩ | same
  · rw [same, unbroken_append (.inl ends), unbroken_of_notMem whole]
    rfl
  · have before : '\n' ∉ withoutReturn line := by
      rw [same] at whole
      exact fun member => whole (List.mem_append_left _ member)
    nth_rewrite 1 [same]
    rw [List.append_assoc, unbroken_append (.inr (by simp)), unbroken_of_notMem before]
    rfl

theorem isBlank_unbroken {gap : List Char} (blank : ∀ c ∈ gap, isBlank c) : ∀ c ∈ unbroken gap, isBlank c := by
  fun_induction unbroken gap with
  | case1 => exact blank
  | case2 rest ih =>
    refine List.forall_mem_cons.mpr ⟨rfl, ih fun c member => blank c ?_⟩
    exact List.mem_cons_of_mem _ (List.mem_cons_of_mem _ member)
  | case3 rest ih =>
    exact List.forall_mem_cons.mpr ⟨rfl, ih fun c member => blank c (List.mem_cons_of_mem _ member)⟩
  | case4 c rest _ _ ih =>
    obtain ⟨here, later⟩ := List.forall_mem_cons.mp blank
    exact List.forall_mem_cons.mpr ⟨here, ih later⟩

theorem unbroken_ne_nil {gap : List Char} (nonempty : gap ≠ []) : unbroken gap ≠ [] := by
  fun_cases unbroken gap with
  | case1 => exact absurd rfl nonempty
  | case2 => exact List.cons_ne_nil _ _
  | case3 => exact List.cons_ne_nil _ _
  | case4 => exact List.cons_ne_nil _ _

/-- Lines up to the one with the semicolon are joined as a text without line breaks. The first of them, which
begins the statement, is not empty. -/
theorem joinStatement_run {before : List Atom} (calm : IsCalm (before ++ [.char ';'])) (only : .char ';' ∉ before)
    {bound : Nat} (enough : before.count (.char '\n') < bound) (statement : List Char) (joined : Nat)
    (begins : statement = [] → ∃ c ∈ (textOf before).head?, c ≠ '\n' ∧ c ≠ '\r') (after : List Char) :
    joinStatement bound statement joined (readLines (textOf (before ++ [.char ';']) ++ '\n' :: after)) =
      (glue statement (unbroken (textOf (before ++ [.char ';']))), joined + before.count (.char '\n')) := by
  obtain ⟨bound, rfl⟩ : ∃ n, bound = n + 1 := Nat.exists_eq_add_one.mpr (Nat.zero_lt_of_lt enough)
  -- on the number of line breaks left; after the first line the statement is not empty any more
  generalize count : before.count (.char '\n') = n at enough
  induction n generalizing before bound statement joined with
  | zero =>
    have whole : .char '\n' ∉ before ++ [.char ';'] := by
      simpa using List.count_eq_zero.mp count
    have ends : (textOf (before ++ [.char ';'])).getLast? ≠ some '\r' := by simp
    rw [joinStatement_calm calm whole, if_pos (by simp), withoutReturn_of_ne ends,
      unbroken_of_notMem (notMem_textOf newline_notMem_written whole)]
    rfl
  | succ n ih =>
    have member : .char '\n' ∈ before := List.count_pos_iff.mp (by omega)
    obtain ⟨line, rest, rfl, whole⟩ := List.eq_append_cons_of_mem member
    rw [List.append_assoc] at calm
    obtain ⟨notInLine, notInRest⟩ := not_or.mp (mt List.mem_append.mpr only)
    have countRest : rest.count (.char '\n') = n := by
      rw [List.count_append, List.count_eq_zero.mpr whole, List.count_cons_self] at count
      omega
    have nonempty : glue statement (withoutReturn (textOf line)) ≠ [] := by
      refine glue_ne_nil fun none => ?_
      obtain ⟨c, head, inLine, kept⟩ := begins none
      refine withoutReturn_ne_nil ?_ kept
      rw [textOf_append] at head
      cases text : textOf line with
      | nil =>
        rw [text] at head
        exact absurd (Option.some.inj head).symm inLine
      | cons d others =>
        rw [text] at head
        exact head
    obtain ⟨bound, rfl⟩ : ∃ m, bound = m + 1 := Nat.exists_eq_add_one.mpr (by omega)
    have text : textOf (line ++ .char '\n' :: rest ++ [.char ';']) =
        textOf line ++ '\n' :: textOf (rest ++ [.char ';']) := by simp
    have later := ih calm.right.2.2 (fun member => notInRest (List.mem_cons_of_mem _ member))
      (glue statement (withoutReturn (textOf line))) (joined + 1) (fun none => absurd none nonempty) bound countRest
      (by omega)
    rw [text, List.append_assoc, List.cons_append, joinStatement_calm calm.left whole, if_neg notInLine, later,
      glue_glue nonempty, unbroken_newline (notMem_textOf newline_notMem_written whole), Nat.add_right_comm]
    rfl

/-- Calm text takes one line more than it has line breaks, and what follows is read as if it stood alone. -/
theorem exists_readLines {atoms : List Atom} (calm : IsCalm atoms) (after : List Char) :
    ∃ entries, readLines (textOf atoms ++ '\n' :: after) = entries ++ readLines after ∧
      entries.length = atoms.count (.char '\n') + 1 := by
  generalize count : atoms.count (.char '\n') = n
  induction n generalizing atoms with
  | zero => exact ⟨[calmLine atoms], readLines_calm calm (List.count_eq_zero.mp count) after, rfl⟩
  | succ n ih =>
    have member : .char '\n' ∈ atoms := List.count_pos_iff.mp (by omega)
    obtain ⟨line, rest, rfl, whole⟩ := List.eq_append_cons_of_mem member
    have countRest : rest.count (.char '\n') = n := by
      rw [List.count_append, List.count_eq_zero.mpr whole, List.count_cons_self] at count
      omega
    obtain ⟨entries, later, length⟩ := ih calm.right.2.2 countRest
    refine ⟨calmLine line :: entries, ?_, by rw [List.length_cons, length]⟩
    rw [textOf_append, textOf_char, List.append_assoc, List.cons_append, readLines_calm calm.left whole, later]
    rfl

theorem statementsFrom_skip (entries rest : List (List Char × SanitizedLine)) :
    statementsFrom entries.length (entries ++ rest) = statementsFrom 0 rest := by
  induction entries with
  | nil => rfl
  | cons entry entries ih => exact ih

/-! ### Lines that begin a statement -/

theorem isDirectiveLine_keyword (link : Link) {rest : List Char} (edge : ∀ c ∈ rest.head?, isWordChar c = false) :
    isDirectiveLine (link.keyword.word.text ++ rest) := by
  have next : rest.head?.any isWordChar = false := by
    cases head : rest.head? with
    | none => rfl
    | some c => exact edge c head
  have margin : blanks.first? (.start (link.keyword.word.text ++ rest)) = _ :=
    first?_many_char_none (head?_keyword link)
  have word := first?_append margin (first?_keyword link ["part", "library"] rfl)
  have ends :
      Anchor.wordEdge.holds ((Reading.start (link.keyword.word.text ++ rest)).past link.keyword.word.text rest) := by
    have last : (link.keyword.word.text.getLast?.or none).any isWordChar := by
      rcases link.keyword_cases with ⟨-, same⟩ | ⟨-, same⟩ <;> rw [same] <;> decide
    show (_ != _) = true
    rw [Reading.past, next, Reading.start, last]
    rfl
  exact Option.isSome_of_eq_some (first?_append word (first?_anchor ends))

theorem not_isDirectiveLine {line : List Char} (blank : ∀ c ∈ line, isBlank c) : isDirectiveLine line = false := by
  have requires : directiveLine.Requires fun c => isBlank c = false := by
    have first {c : Char} (visible : isBlank c = false) (d : Char) (same : d == c) : isBlank d = false :=
      eq_of_beq same ▸ visible
    exact .inl (.inr ⟨.inl (first rfl), .inl (first rfl), .inl (first rfl), .inl (first rfl)⟩)
  have none : directiveLine.first? (.start line) = none :=
    first?_none_of_requires requires fun c member => by simp [blank c member]
  rw [isDirectiveLine, opens, atStart?, none]
  rfl

/-! ### Lines that begin no statement -/

/-- A line that shows only blanks is passed over. -/
private theorem statements_hidden {line : List Char} (whole : '\n' ∉ line) {spelled : List (Char × Mark)}
    (text : spelled.map (·.1) = withoutReturn line) (reads : Reads .outermost none spelled .outermost [])
    (hidden : ∀ c ∈ codeOf spelled, isBlank c) (after : List Char) :
    statements (line ++ '\n' :: after) = statements after := by
  have clean := sanitizeLine_of_reads reads
  rw [text] at clean
  have passed : ¬ isDirectiveLine (codeOf spelled) := by simp [not_isDirectiveLine hidden]
  rw [statements_eq, readLines_newline whole after (by rw [clean]), clean, statementsFrom, if_neg passed]
  rfl

private theorem reads_blank {text : List Char} (blank : ∀ c ∈ text, isBlank c) {follow : List Char}
    (next : Continues follow) : Reads .outermost none (marked .code text) .outermost follow :=
  reads_quiet .outermost (fun c member => isQuiet_of_isBlank (blank c member)) next

theorem statements_blankLine {line : List Char} (whole : '\n' ∉ line) (blank : ∀ c ∈ line, isBlank c)
    (after : List Char) : statements (line ++ '\n' :: after) = statements after := by
  have kept : ∀ c ∈ withoutReturn line, isBlank c := by
    rcases withoutReturn_cases line with ⟨-, same⟩ | same
    · rwa [same]
    · rw [same] at blank
      exact (List.forall_mem_append.mp blank).1
  have nothing : Continues [] := fun c head => absurd head (Option.not_mem_none c)
  refine statements_hidden whole (map_fst_marked _ _) (reads_blank kept nothing) ?_ after
  rwa [codeOf_marked_code]

/-- Whatever a line comment says, its line is passed over. -/
theorem statements_commentLine {indent : List Char} (blank : ∀ c ∈ indent, isBlank c) {text : List Char}
    (whole : '\n' ∉ indent ++ '/' :: '/' :: text) (after : List Char) :
    statements (indent ++ '/' :: '/' :: text ++ '\n' :: after) = statements after := by
  have split (rest : List Char) : indent ++ '/' :: '/' :: rest = (indent ++ ['/', '/']) ++ rest := by simp
  have kept : withoutReturn (indent ++ '/' :: '/' :: text) = indent ++ '/' :: '/' :: withoutReturn text := by
    rw [split text, withoutReturn_append (by simp), ← split]
  have slash : Continues ('/' :: '/' :: withoutReturn text) := by
    intro c head
    obtain rfl : '/' = c := Option.some.inj head
    decide
  have comment (last : Option Char) :
      Reads .outermost last (marked .comment ('/' :: '/' :: withoutReturn text)) .outermost [] := by
    have ahead : (marked .comment ('/' :: withoutReturn text)).map (·.2) =
        ('/' :: withoutReturn text).map fun _ => .comment := List.map_map
    refine .token ?_
    rw [← marked, ahead, map_fst_marked, List.append_nil]
    rfl
  have hidden : ∀ c ∈ codeOf (marked .comment ('/' :: '/' :: withoutReturn text)), c = ' ' := by
    intro c member
    obtain ⟨d, inText, shown⟩ := List.mem_flatMap.mp member
    obtain ⟨e, -, rfl⟩ := List.mem_map.mp inText
    exact List.eq_of_mem_replicate shown
  refine statements_hidden whole ?_
    (.append (by rw [map_fst_marked]; exact reads_blank blank slash) (comment _)) ?_ after
  · rw [List.map_append, map_fst_marked, map_fst_marked, kept]
  · rw [codeOf_append, codeOf_marked_code]
    exact List.forall_mem_append.mpr ⟨blank, fun c member => hidden c member ▸ rfl⟩

end DeadCode.Directive
