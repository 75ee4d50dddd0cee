import DeadCode.Proofs.QuietText

/-!
Blanked lines are code and nothing else. A character stays only where the reader took it for code, with the one after
it in view, so what is left of a line has no quote and no beginning of a comment, wherever literals, comments and
interpolations break off. Blanking such lines once more changes nothing.
-/
namespace DeadCode.Source
open DeadCode.Text

/-! ### Plain code -/

private theorem pair_prefix_iff {a b c : Char} {rest : List Char} :
    [a, b] <+: c :: rest ↔ c = a ∧ rest.head? = some b := by
  rw [List.cons_prefix_cons, eq_comm]
  cases rest with
  | nil => simp
  | cons d rest => simp [List.cons_prefix_cons, eq_comm]

/-- Plain code has neither quotes nor the marks that begin comments. -/
theorem isPlainCode_iff {text : List Char} :
    isPlainCode text ↔ '\'' ∉ text ∧ '"' ∉ text ∧ ¬ ['/', '/'] <:+: text ∧ ¬ ['/', '*'] <:+: text := by
  induction text with
  | nil => simp [isPlainCode]
  | cons c rest ih =>
    rw [isPlainCode_cons, ih, List.infix_cons_iff, List.infix_cons_iff, pair_prefix_iff, pair_prefix_iff]
    simp only [isQuote, Bool.or_eq_false_iff, beq_eq_false_iff_ne, List.mem_cons, not_or, ne_eq]
    grind

theorem isPlainCode_blanks_append (n : Nat) (text : List Char) :
    isPlainCode (List.replicate n ' ' ++ text) = isPlainCode text := by
  induction n with
  | zero => rfl
  | succ n ih => simpa [List.replicate_succ, isPlainCode] using ih

/-! ### What is left of a line -/

section
variable {nest : Nest} {last : Option Char} {c : Char} {rest : List Char}

/-- A character that stays is no quote and does not begin a comment with the one after it. -/
theorem plain_of_step (code : (step nest last c rest).mark = .code) :
    isQuote c = false ∧ ¬ (c = '/' ∧ (rest.head? = some '/' ∨ rest.head? = some '*')) := by
  rw [step_of_readsCode (readsCode_of_step code)] at code
  unfold codeStep at code
  split at code
  · cases code
  · cases code
  case h_3 notLine notBlock =>
    split at code
    · cases code
    case isFalse noQuote =>
      refine ⟨Bool.not_eq_true _ ▸ noQuote, ?_⟩
      rintro ⟨rfl, next | next⟩
      · obtain ⟨after, rfl⟩ := List.head?_eq_some_iff.mp next
        exact notLine after rfl rfl
      · obtain ⟨after, rfl⟩ := List.head?_eq_some_iff.mp next
        exact notBlock after rfl rfl

end

/-- A blanked line begins with a blank or as the line does. -/
private theorem head?_codeOf {line : List (Char × Mark)} {d : Char} (first : (codeOf line).head? = some d) :
    d = ' ' ∨ (line.map (·.1)).head? = some d := by
  cases line with
  | nil => cases first
  | cons head line =>
    rw [codeOf_cons] at first
    rcases visible_cases head.1 head.2 with ⟨-, char⟩ | ⟨n, -, blanks⟩
    · rw [char] at first
      exact .inr first
    · rw [blanks] at first
      exact .inl (Option.some.inj first).symm

private theorem isPlainCode_codeOf_cons {c : Char} {mark : Mark} {line : List (Char × Mark)} {rest : List Char}
    (text : line.map (·.1) = rest) (later : isPlainCode (codeOf line))
    (plain : mark = .code → isQuote c = false ∧ ¬ (c = '/' ∧ (rest.head? = some '/' ∨ rest.head? = some '*'))) :
    isPlainCode (codeOf ((c, mark) :: line)) := by
  rw [codeOf_cons]
  rcases visible_cases c mark with ⟨code, char⟩ | ⟨n, -, blanks⟩
  · obtain ⟨noQuote, noComment⟩ := plain code
    rw [char]
    refine isPlainCode_cons.mpr ⟨noQuote, ?_, later⟩
    -- a slash or a star that is shown stands in the line itself
    rw [← text] at noComment
    rintro ⟨slash, next⟩
    refine noComment ⟨slash, next.imp (fun shown => ?_) fun shown => ?_⟩ <;>
      exact (head?_codeOf shown).resolve_left (by decide)
  · rwa [blanks, isPlainCode_blanks_append]

/-- Whatever the reader is inside of, it leaves plain code. -/
theorem isPlainCode_codeOf_marksFrom (ahead : List Mark) (settled : Mark.code ∉ ahead) (nest : Nest)
    (last : Option Char) (line : List Char) :
    isPlainCode (codeOf (line.zip (marksFrom ahead nest last line).1)) := by
  induction line generalizing ahead nest last with
  | nil => rfl
  | cons c rest ih =>
    have text (ahead : List Mark) (nest : Nest) :
        (rest.zip (marksFrom ahead nest (some c) rest).1).map (·.1) = rest :=
      List.map_fst_zip (Nat.le_of_eq (length_marksFrom _ _ _ _).symm)
    cases ahead with
    | cons mark ahead =>
      obtain ⟨notCode, settledLater⟩ := List.ne_and_not_mem_of_not_mem_cons settled
      exact isPlainCode_codeOf_cons (text _ _) (ih ahead settledLater nest (some c)) fun code =>
        absurd code.symm notCode
    | nil =>
      exact isPlainCode_codeOf_cons (text _ _) (ih _ (code_notMem_ahead nest last c rest) _ (some c)) plain_of_step

theorem isPlainCode_of_mem_sanitize {lines : List (List Char)} {clean : SanitizedLine}
    (member : clean ∈ sanitize lines) : isPlainCode clean.code := by
  suffices ∀ nest, clean ∈ sanitizeFrom nest lines → isPlainCode clean.code from this _ member
  clear member
  induction lines with
  | nil => intro nest member; cases member
  | cons line rest ih =>
    intro nest member
    rcases List.mem_cons.mp member with rfl | member
    · exact isPlainCode_codeOf_marksFrom [] List.not_mem_nil nest none line
    · exact ih _ member

/-! ### Blanking plain code -/

private theorem step_outermost_of_plain {c : Char} {rest : List Char} (plain : isPlainCode (c :: rest))
    (last : Option Char) : step .outermost last c rest = ⟨.code, [], .outermost⟩ := by
  obtain ⟨noQuote, noComment, later⟩ := isPlainCode_cons.mp plain
  obtain ⟨depth, braces⟩ : ∃ depth, braceStep 1 c = some depth := by
    unfold braceStep
    split
    · exact ⟨2, rfl⟩
    · split <;> exact ⟨_, rfl⟩
  have next (d : Char) (first : d ∈ rest.head?) : isQuote d = false := by
    obtain ⟨after, rfl⟩ := List.head?_eq_some_iff.mp first
    exact (isPlainCode_cons.mp later).1
  -- outside of interpolations braces are not counted, so any number of them may be open
  show codeStep [opened .code 1] last c rest = ⟨.code, [], [opened .code depth]⟩
  exact codeStep_plain rfl noQuote noComment (fun _ => next) braces

private theorem reads_plain {text : List Char} (plain : isPlainCode text) (last : Option Char) :
    Reads .outermost last (marked .code text) .outermost [] := by
  induction text generalizing last with
  | nil => exact .nothing
  | cons c rest ih =>
    rw [marked_cons]
    refine .char ?_ (ih (isPlainCode_cons.mp plain).2.2 (some c))
    rw [map_fst_marked, List.append_nil]
    exact step_outermost_of_plain plain last

private theorem commentBytesOf_marked_code (text : List Char) :
    commentBytesOf (marked .code text) = List.replicate (byteLength text) false := by
  induction text with
  | nil => rfl
  | cons c rest ih => rw [byteLength_cons, List.replicate_add, ← ih]; rfl

/-- Plain code is left as it is, and the reader stays outside of everything. -/
theorem sanitizeLine_plain {text : List Char} (plain : isPlainCode text) :
    sanitizeLine .outermost text = (⟨text, List.replicate (byteLength text) false⟩, .outermost) := by
  have reads := reads_plain plain none
  have marks : markLine .outermost text = marked .code text := by
    have whole := reads.markLine_eq
    rwa [map_fst_marked, List.append_nil, List.zip_nil_left, List.append_nil] at whole
  refine Prod.ext ?_ ?_
  · rw [sanitizeLine_fst, marks, codeOf_marked_code, commentBytesOf_marked_code]
  · rw [Reads, map_fst_marked, List.append_nil] at reads
    show (marksFrom [] .outermost none text).2.endLine = .outermost
    rw [reads]
    rfl

theorem sanitize_plain {lines : List (List Char)} (plain : ∀ line ∈ lines, isPlainCode line) :
    sanitize lines = lines.map fun line => ⟨line, List.replicate (byteLength line) false⟩ := by
  induction lines with
  | nil => rfl
  | cons line rest ih =>
    obtain ⟨first, others⟩ := List.forall_mem_cons.mp plain
    rw [sanitize, sanitizeFrom, sanitizeLine_plain first]
    exact congrArg (_ :: ·) (ih others)

/-- Blanked lines have no quotes and nothing that begins a comment, and blanking them again leaves them as they are,
with no byte in a comment. -/
theorem sanitize_code_sanitize (lines : List (List Char)) :
    (∀ clean ∈ sanitize lines, '\'' ∉ clean.code ∧ '"' ∉ clean.code ∧ ¬ "//".toList <:+: clean.code ∧
      ¬ "/*".toList <:+: clean.code) ∧
    sanitize ((sanitize lines).map (·.code)) =
      (sanitize lines).map fun clean => ⟨clean.code, List.replicate (byteLength clean.code) false⟩ := by
  refine ⟨fun clean member => isPlainCode_iff.mp (isPlainCode_of_mem_sanitize member), ?_⟩
  rw [sanitize_plain, List.map_map]
  · rfl
  · intro line member
    obtain ⟨clean, inLines, rfl⟩ := List.mem_map.mp member
    exact isPlainCode_of_mem_sanitize inLines

end DeadCode.Source
