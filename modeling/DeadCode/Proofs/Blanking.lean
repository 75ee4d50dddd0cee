import DeadCode.Source.Line
import Mathlib.Data.List.Basic

/-!
Blanking is exact on well-formed text. Lexical items are given by a grammar: code, block comments that
nest, and string literals with interpolated items, to any depth. A line that is written from items is
read back as what it was written from: the literals and comments are blanked, interpolated items are
code again, and the reader is left where it was.
-/
namespace DeadCode.Source
open DeadCode.Text

/-! ### The grammar -/

inductive Quote where
  | single
  | double
deriving DecidableEq, Repr

def Quote.char : Quote → Char
  | single => '\''
  | double => '"'

inductive CommentText where
  | nothing
  | plain (c : Char) (rest : CommentText)
  | nested (inner rest : CommentText)
deriving DecidableEq, Repr

mutual

inductive Items where
  | nothing
  | code (text : List Char) (rest : Items)
  | comment (text : CommentText) (rest : Items)
  | literal (quote : Quote) (triple raw : Bool) (body : Body) (rest : Items)

inductive Body where
  | nothing
  | plain (c : Char) (rest : Body)
  | escape (c : Char) (rest : Body)
  | interpolation (items : Items) (rest : Body)

end

/-! ### Writing -/

def CommentText.written : CommentText → List Char
  | nothing => []
  | plain c rest => c :: rest.written
  | nested inner rest => '/' :: '*' :: inner.written ++ '*' :: '/' :: rest.written

def Quote.others (quote : Quote) (triple : Bool) : List Char :=
  if triple then [quote.char, quote.char] else []

def Quote.run (quote : Quote) (triple : Bool) : List Char := quote.char :: quote.others triple

/-- What opens a literal; a raw one has an `r` in front. -/
def Quote.opening (quote : Quote) (triple raw : Bool) : List Char :=
  if raw then 'r' :: quote.run triple else quote.run triple

def marked (mark : Mark) (text : List Char) : List (Char × Mark) := text.map (·, mark)

def Items.gap : Items → List (Char × Mark)
  | nothing => []
  | _ => [(' ', .code)]

mutual

def Items.spelled : Items → List (Char × Mark)
  | .nothing => []
  | .code text rest => marked .code text ++ (rest.gap ++ rest.spelled)
  | .comment text rest => marked .comment ('/' :: '*' :: text.written ++ ['*', '/']) ++ (rest.gap ++ rest.spelled)
  | .literal quote triple raw body rest =>
    marked .literal (quote.opening triple raw) ++ (body.spelled ++
      (marked .literal (quote.run triple) ++ (rest.gap ++ rest.spelled)))

/-- The characters of a body. Interpolated items keep what they are; their brackets are part of the
literal. -/
def Body.spelled : Body → List (Char × Mark)
  | .nothing => []
  | .plain c rest => (c, .literal) :: rest.spelled
  | .escape c rest => ('\\', .literal) :: (c, .literal) :: rest.spelled
  | .interpolation items rest =>
    ('$', .literal) :: ('{', .literal) :: (items.spelled ++ ('}', .literal) :: rest.spelled)

end

def Items.written (items : Items) : List Char := items.spelled.map (·.1)

def Body.written (body : Body) : List Char := body.spelled.map (·.1)

/-- The line with a blank for each byte of a literal or comment. -/
def Items.blanked (items : Items) : List Char :=
  items.spelled.flatMap fun (c, mark) => if mark = .code then [c] else List.replicate c.utf8Size ' '

def Items.commentBytes (items : Items) : List Bool :=
  items.spelled.flatMap fun (c, mark) => List.replicate c.utf8Size (decide (mark = .comment))

/-! ### Well-formed text -/

def isPlainCode : List Char → Bool
  | [] => true
  | c :: rest =>
    c != '\'' && c != '"' && !(c == '/' && (rest.head? == some '/' || rest.head? == some '*')) &&
      isPlainCode rest

/-- How many braces are open after a character; `none` if it closes one that is not. -/
def braceStep (depth : Nat) (c : Char) : Option Nat :=
  if c = '{' then some (depth + 1)
  else if c = '}' then if depth = 0 then none else some (depth - 1)
  else some depth

def openBraces (depth : Nat) (text : List Char) : Option Nat := text.foldlM braceStep depth

def Items.codeText : Items → List Char
  | nothing => []
  | code text rest => text ++ rest.codeText
  | comment _ rest => rest.codeText
  | literal _ _ _ _ rest => rest.codeText

def Items.isBalanced (items : Items) : Bool := openBraces 0 items.codeText == some 0

/-- No character begins `/*` or `*/` together with the one after it. -/
def CommentText.isWellFormed : CommentText → Bool
  | nothing => true
  | plain c rest =>
    let next := (rest.written ++ ['*', '/']).head?
    !(c == '/' && next == some '*') && !(c == '*' && next == some '/') && rest.isWellFormed
  | nested inner rest => inner.isWellFormed && rest.isWellFormed

/-- Whether a character in a literal stands for itself, given what comes after it: it does not begin
the closing quotes nor, unless the literal is raw, an escape or an interpolation. -/
def standsForItself (quote : Quote) (triple raw : Bool) (c : Char) (after : List Char) : Bool :=
  (raw || c != '\\' && !(c == '$' && after.head? == some '{')) &&
    !(quote.run triple).isPrefixOf (c :: after)

mutual

def Items.isWellFormed : Items → Bool
  | .nothing => true
  | .code text rest => isPlainCode text && rest.isWellFormed
  | .comment text rest => text.isWellFormed && rest.isWellFormed
  | .literal quote triple raw body rest => body.isWellFormed quote triple raw && rest.isWellFormed

/-- A body has escapes and interpolations only if the literal is not raw, and ends only where it is
meant to. -/
def Body.isWellFormed (quote : Quote) (triple raw : Bool) : Body → Bool
  | .nothing => true
  | .plain c rest =>
    standsForItself quote triple raw c (rest.written ++ quote.run triple) &&
      rest.isWellFormed quote triple raw
  | .escape _ rest => !raw && rest.isWellFormed quote triple raw
  | .interpolation items rest =>
    !raw && items.isBalanced && items.isWellFormed && rest.isWellFormed quote triple raw

end

/-! ### Reading -/

def lastOf (last : Option Char) (spelled : List (Char × Mark)) : Option Char :=
  (spelled.getLast?.map (·.1)).or last

/-- From one nest to another the reader gives characters the marks they were written with. What follows
them is part of the judgment, because the reader looks ahead. -/
def Reads (nest : Nest) (last : Option Char) (spelled : List (Char × Mark)) (after : Nest)
    (follow : List Char) : Prop :=
  marksFrom [] nest last (spelled.map (·.1) ++ follow) =
    ((marksFrom [] after (lastOf last spelled) follow).map (spelled.map (·.2) ++ ·) id)

namespace Reads
variable {nest middle after : Nest} {last : Option Char} {follow : List Char}

theorem nothing : Reads nest last [] nest follow := rfl

theorem lastOf_append (last : Option Char) (first second : List (Char × Mark)) :
    lastOf (lastOf last first) second = lastOf last (first ++ second) := by
  simp only [lastOf, List.getLast?_append]
  cases second.getLast? <;> rfl

theorem append {first second : List (Char × Mark)}
    (one : Reads nest last first middle (second.map (·.1) ++ follow))
    (two : Reads middle (lastOf last first) second after follow) :
    Reads nest last (first ++ second) after follow := by
  rw [Reads, List.map_append, List.append_assoc, one, two, lastOf_append]
  simp [Prod.map]

/-- Marks that are settled ahead are given without looking, as far as there are characters. -/
theorem marksFrom_ahead (ahead : List Mark) (nest : Nest) (last : Option Char) (line : List Char) :
    marksFrom ahead nest last line =
      ((marksFrom [] nest (lastOf last (line.zip ahead)) (line.drop ahead.length)).map
        ((line.zip ahead).map (·.2) ++ ·) id) := by
  induction ahead generalizing last line with
  | nil => rw [List.zip_nil_right]; rfl
  | cons mark ahead ih =>
    cases line with
    | nil => rfl
    | cons c rest =>
      have shifted : lastOf (some c) (rest.zip ahead) = lastOf last ((c, mark) :: rest.zip ahead) :=
        lastOf_append last [(c, mark)] (rest.zip ahead)
      simp only [marksFrom, ih, shifted, List.zip_cons_cons, List.length_cons, List.drop_succ_cons]
      simp [Prod.map]

private theorem marksFrom_settled (nest : Nest) (last : Option Char) (settled : List (Char × Mark))
    (follow : List Char) :
    marksFrom (settled.map (·.2)) nest last (settled.map (·.1) ++ follow) =
      ((marksFrom [] nest (lastOf last settled) follow).map (settled.map (·.2) ++ ·) id) := by
  have pairs : (settled.map (·.1) ++ follow).zip (settled.map (·.2)) = settled := by
    rw [← List.append_nil (settled.map (·.2)), List.zip_append (by simp), List.zip_map', List.map_id',
      List.zip_nil_right, List.append_nil]
  have left : (settled.map (·.1) ++ follow).drop (settled.map (·.2)).length = follow := by
    rw [List.length_map, ← List.length_map (f := (·.1)), List.drop_left]
  rw [marksFrom_ahead, pairs, left]

/-- One step of the reader, with the characters that it settles. -/
theorem settle {c : Char} {mark : Mark} (settled : List (Char × Mark)) {rest : List (Char × Mark)}
    (now : step nest last c (settled.map (·.1) ++ (rest.map (·.1) ++ follow)) =
      ⟨mark, settled.map (·.2), middle⟩)
    (later : Reads middle (lastOf (some c) settled) rest after follow) :
    Reads nest last ((c, mark) :: (settled ++ rest)) after follow := by
  have shifted : lastOf (lastOf (some c) settled) rest = lastOf last ((c, mark) :: (settled ++ rest)) := by
    rw [lastOf_append]
    exact lastOf_append last [(c, mark)] (settled ++ rest)
  simp only [Reads, List.map_cons, List.map_append, List.cons_append, List.append_assoc, marksFrom, now,
    marksFrom_settled, ← shifted]
  rw [later]
  simp [Prod.map]

/-- The reader takes some characters together. -/
theorem token {c : Char} {mark : Mark} {settled : List (Char × Mark)}
    (now : step nest last c (settled.map (·.1) ++ follow) = ⟨mark, settled.map (·.2), after⟩) :
    Reads nest last ((c, mark) :: settled) after follow := by
  have whole : Reads nest last ((c, mark) :: (settled ++ [])) after follow := settle settled now .nothing
  rwa [List.append_nil] at whole

theorem char {c : Char} {mark : Mark} {rest : List (Char × Mark)}
    (now : step nest last c (rest.map (·.1) ++ follow) = ⟨mark, [], middle⟩)
    (later : Reads middle (some c) rest after follow) : Reads nest last ((c, mark) :: rest) after follow :=
  settle [] now later

theorem pair {c d : Char} {mark settled : Mark} {rest : List (Char × Mark)}
    (now : step nest last c (d :: (rest.map (·.1) ++ follow)) = ⟨mark, [settled], middle⟩)
    (later : Reads middle (some d) rest after follow) :
    Reads nest last ((c, mark) :: (d, settled) :: rest) after follow :=
  settle [(d, settled)] now later

end Reads

@[simp] theorem marked_cons (mark : Mark) (c : Char) (rest : List Char) :
    marked mark (c :: rest) = (c, mark) :: marked mark rest := rfl

@[simp] theorem marked_append (mark : Mark) (a b : List Char) :
    marked mark (a ++ b) = marked mark a ++ marked mark b :=
  List.map_append

@[simp] theorem map_fst_marked (mark : Mark) (text : List Char) : (marked mark text).map (·.1) = text := by
  induction text with
  | nil => rfl
  | cons c rest ih => rw [marked_cons, List.map_cons, ih]

/-! ### Comments -/

theorem commentStep_plain {nest : Nest} {depth : Nat} {c : Char} {rest : List Char}
    (opens : ¬ (c = '/' ∧ rest.head? = some '*')) (closes : ¬ (c = '*' ∧ rest.head? = some '/')) :
    commentStep nest depth c rest = ⟨.comment, [], nest⟩ := by
  unfold commentStep
  split <;> simp_all

private theorem reads_commentText {text : CommentText} (wellFormed : text.isWellFormed) (depth : Nat)
    (nest : Nest) (last : Option Char) (follow : List Char) :
    Reads (.comment (depth + 1) :: nest) last (marked .comment text.written) (.comment (depth + 1) :: nest)
      ('*' :: '/' :: follow) := by
  induction text generalizing depth last follow with
  | nothing => exact .nothing
  | plain c rest ih =>
    simp only [CommentText.isWellFormed, Bool.and_eq_true, Bool.not_eq_true', Bool.and_eq_false_iff,
      beq_eq_false_iff_ne] at wellFormed
    obtain ⟨⟨opens, closes⟩, wellFormed⟩ := wellFormed
    have next : (rest.written ++ '*' :: '/' :: follow).head? = (rest.written ++ ['*', '/']).head? := by
      simp [List.head?_append]
    rw [CommentText.written, marked_cons]
    refine .char ?_ (ih wellFormed depth (some c) follow)
    rw [map_fst_marked]
    refine commentStep_plain ?_ ?_
    · rw [next]
      tauto
    · rw [next]
      tauto
  | nested inner rest inner_ih rest_ih =>
    rw [CommentText.isWellFormed, Bool.and_eq_true] at wellFormed
    rw [CommentText.written, List.cons_append, List.cons_append, marked_cons, marked_cons, marked_append,
      marked_cons, marked_cons]
    -- the inner comment is one level deeper, and its end leads back to this one
    refine .pair (by rfl) (.append (inner_ih wellFormed.1 (depth + 1) (some '*') _) ?_)
    exact .pair (by simp [step, Nest.mode, commentStep, Nest.withMode]) (rest_ih wellFormed.2 depth (some '/') follow)

/-! ### Code -/

/-- The mode with more braces open; they are counted in interpolations only. -/
def opened : Mode → Nat → Mode
  | .interpolation depth, more => .interpolation (depth + more)
  | mode, _ => mode

/-- Modes in which the reader takes characters for code. -/
def readsCode : Mode → Bool
  | .code | .interpolation _ => true
  | _ => false

/-- What may follow an item: a blank, the brace that ends an interpolation, or nothing. -/
def EndsItem (follow : List Char) : Prop := ∀ c ∈ follow.head?, c = ' ' ∨ c = '}'

section
variable {top : Mode} {outer : Nest} {last : Option Char} {follow : List Char}

private theorem step_opened (reads : readsCode top) (depth : Nat) (c : Char) (rest : List Char) :
    step (opened top depth :: outer) last c rest = codeStep (opened top depth :: outer) last c rest := by
  cases top <;> first | rfl | cases reads

private theorem braceStep_cases {depth depth' : Nat} {c : Char} (braces : braceStep depth c = some depth') :
    c = '{' ∧ depth' = depth + 1 ∨ c = '}' ∧ depth = depth' + 1 ∨ c ≠ '{' ∧ c ≠ '}' ∧ depth' = depth := by
  grind [braceStep]

theorem codeStep_plain {depth depth' : Nat} {c : Char} {rest : List Char} (reads : readsCode top)
    (code : isQuote c = false) (starts : ¬ (c = '/' ∧ (rest.head? = some '/' ∨ rest.head? = some '*')))
    (raw : c = 'r' → ∀ d ∈ rest.head?, isQuote d = false) (braces : braceStep depth c = some depth') :
    codeStep (opened top depth :: outer) last c rest = ⟨.code, [], opened top depth' :: outer⟩ := by
  unfold codeStep
  split
  · simp at starts
  · simp at starts
  · rw [if_neg (by simp [code])]
    split
    · obtain rfl : depth = depth' := by simpa [braceStep] using braces
      rw [if_neg (by simp [raw rfl _ rfl])]
    · cases top with
      | code => simp [opened, Nest.mode]
      | interpolation d =>
        rcases braceStep_cases braces with ⟨rfl, rfl⟩ | ⟨rfl, rfl⟩ | ⟨notOpen, notClose, rfl⟩
        · rfl
        · rfl
        · split <;> first | rfl | contradiction
      | comment _ => cases reads
      | string _ _ _ => cases reads

theorem isPlainCode_cons {c : Char} {rest : List Char} :
    isPlainCode (c :: rest) ↔ isQuote c = false ∧
      ¬ (c = '/' ∧ (rest.head? = some '/' ∨ rest.head? = some '*')) ∧ isPlainCode rest := by
  simp only [isPlainCode, isQuote, Bool.and_eq_true, bne_iff_ne, Bool.not_eq_true', Bool.or_eq_false_iff,
    beq_eq_false_iff_ne]
  grind

/-- What follows a part of plain code neither opens a literal nor, with a slash, a comment, unless the
code does. -/
private theorem head?_code_append {rest : List Char} (plain : isPlainCode rest) (ends : EndsItem follow)
    {c : Char} (next : c ∈ (rest ++ follow).head?) :
    isQuote c = false ∧ (rest.head? = some c ∨ c = ' ' ∨ c = '}') := by
  cases rest with
  | nil =>
    have blank := ends c next
    exact ⟨by rcases blank with rfl | rfl <;> rfl, .inr blank⟩
  | cons d rest =>
    obtain rfl : d = c := by simpa using next
    exact ⟨(isPlainCode_cons.mp plain).1, .inl rfl⟩

private theorem reads_code {text : List Char} (reads : readsCode top) (plain : isPlainCode text)
    (ends : EndsItem follow) {depth depth' : Nat} (braces : openBraces depth text = some depth') :
    Reads (opened top depth :: outer) last (marked .code text) (opened top depth' :: outer) follow := by
  induction text generalizing depth last with
  | nil =>
    obtain rfl : depth = depth' := by simpa [openBraces] using braces
    exact .nothing
  | cons c rest ih =>
    obtain ⟨code, starts, others⟩ := isPlainCode_cons.mp plain
    obtain ⟨middle, now, later⟩ : ∃ middle, braceStep depth c = some middle ∧
        openBraces middle rest = some depth' := by
      simpa [openBraces, Option.bind_eq_some_iff] using braces
    rw [marked_cons]
    refine .char ?_ (ih others later)
    rw [map_fst_marked, step_opened reads]
    refine codeStep_plain reads code ?_ (fun _ d next => (head?_code_append others ends next).1) now
    rintro ⟨rfl, next | next⟩
    · have := (head?_code_append others ends next).2
      simp_all
    · have := (head?_code_append others ends next).2
      simp_all

private theorem reads_comment {text : CommentText} {depth : Nat} (reads : readsCode top)
    (wellFormed : text.isWellFormed) :
    Reads (opened top depth :: outer) last (marked .comment ('/' :: '*' :: text.written ++ ['*', '/']))
      (opened top depth :: outer) follow := by
  rw [List.cons_append, List.cons_append, marked_cons, marked_cons, marked_append]
  refine .pair (by rw [step_opened reads]; rfl) (.append (reads_commentText wellFormed 0 _ _ follow) ?_)
  exact .pair rfl .nothing

/-! ### Literals -/

theorem codeStep_quote (quote : Quote) (nest : Nest) (rest : List Char) :
    codeStep nest last quote.char rest =
      ⟨.literal, quoteTail (opensTriple quote.char rest),
        .string quote.char (opensTriple quote.char rest) false :: nest⟩ := by
  cases quote <;> rfl

theorem codeStep_raw (quote : Quote) (nest : Nest) (rest : List Char)
    (free : last.any isNameChar = false) :
    codeStep nest last 'r' (quote.char :: rest) =
      ⟨.literal, .literal :: quoteTail (opensTriple quote.char rest),
        .string quote.char (opensTriple quote.char rest) true :: nest⟩ := by
  cases quote <;> simp [codeStep, Quote.char, isQuote, free]

private theorem opensTriple_others {quote : Quote} {triple : Bool}
    (single : triple = false → opensTriple quote.char follow = false) :
    opensTriple quote.char (quote.others triple ++ follow) = triple := by
  cases triple with
  | false => exact single rfl
  | true => simp [Quote.others, opensTriple]

theorem map_snd_others (quote : Quote) (triple : Bool) :
    (marked .literal (quote.others triple)).map (·.2) = quoteTail triple := by
  cases triple <;> rfl

private theorem reads_opening {quote : Quote} {triple raw : Bool} {depth : Nat} (reads : readsCode top)
    (free : last.any isNameChar = false)
    (single : triple = false → opensTriple quote.char follow = false) :
    Reads (opened top depth :: outer) last (marked .literal (quote.opening triple raw))
      (.string quote.char triple raw :: opened top depth :: outer) follow := by
  cases raw with
  | false =>
    refine .token ?_
    rw [step_opened reads, codeStep_quote, ← marked, map_fst_marked, map_snd_others, opensTriple_others single]
  | true =>
    refine .token ?_
    rw [step_opened reads, ← marked, map_fst_marked, Quote.run, List.cons_append, codeStep_raw _ _ _ free,
      opensTriple_others single, marked_cons, List.map_cons, map_snd_others]

theorem stringStep_close (quote : Quote) (triple raw : Bool) (nest : Nest) (follow : List Char) :
    stringStep nest quote.char triple raw quote.char (quote.others triple ++ follow) =
      ⟨.literal, quoteTail triple, nest.tail⟩ := by
  cases triple <;> cases quote <;> simp [stringStep, Quote.char, Quote.others, opensTriple]

private theorem reads_closing {quote : Quote} {triple raw : Bool} {nest : Nest} :
    Reads (.string quote.char triple raw :: nest) last (marked .literal (quote.run triple)) nest follow := by
  refine .token ?_
  rw [← marked, map_fst_marked, map_snd_others]
  exact stringStep_close quote triple raw _ follow

theorem isPrefixOf_run (quote : Quote) (triple : Bool) (c : Char) (after : List Char) :
    (quote.run triple).isPrefixOf (c :: after) =
      (c == quote.char && (!triple || opensTriple quote.char after)) := by
  rw [Bool.beq_comm]
  cases triple with
  | false => simp [Quote.run, Quote.others, List.isPrefixOf]
  | true =>
    rcases after with _ | ⟨d, _ | ⟨e, rest⟩⟩ <;>
      simp [Quote.run, Quote.others, opensTriple, List.isPrefixOf, Bool.beq_comm]

/-- Looking for the closing quotes reaches no further than those that are there. -/
private theorem closes_append_run (quote : Quote) (triple : Bool) (text : List Char) :
    (!triple || opensTriple quote.char (text ++ quote.run triple ++ follow)) =
      (!triple || opensTriple quote.char (text ++ quote.run triple)) := by
  cases triple with
  | false => rfl
  | true => rcases text with _ | ⟨d, _ | ⟨e, rest⟩⟩ <;> rfl

private theorem stringStep_plain {quote : Quote} {triple raw : Bool} {nest : Nest} {c : Char}
    {text : List Char} (plain : standsForItself quote triple raw c (text ++ quote.run triple)) :
    stringStep nest quote.char triple raw c (text ++ quote.run triple ++ follow) = ⟨.literal, [], nest⟩ := by
  have next : (text ++ quote.run triple ++ follow).head? = (text ++ quote.run triple).head? := by
    cases text <;> rfl
  rw [standsForItself, isPrefixOf_run, Bool.and_eq_true, Bool.not_eq_true'] at plain
  obtain ⟨begins, closes⟩ := plain
  rw [stringStep, next, closes_append_run, closes]
  cases raw with
  | true => rfl
  | false =>
    rw [Bool.false_or, Bool.and_eq_true, Bool.not_eq_true', bne_iff_ne] at begins
    simp only [Bool.not_false, Bool.true_and, beq_eq_false_iff_ne.mpr begins.1, begins.2,
      Bool.false_eq_true, if_false]

/-- Only an empty literal begins with its quote, and what follows it is no quote. -/
private theorem opensTriple_body {quote : Quote} {raw : Bool} {body : Body}
    (wellFormed : body.isWellFormed quote false raw) (ends : EndsItem follow) :
    opensTriple quote.char (body.written ++ (quote.run false ++ follow)) = false := by
  cases body with
  | nothing =>
    have next : follow.head? ≠ some quote.char := fun next => by
      rcases ends _ next with h | h <;> cases quote <;> cases h
    simp [Body.written, Body.spelled, Quote.run, Quote.others, opensTriple, ← List.head?_eq_getElem?, next]
  | plain c rest =>
    have other : c ≠ quote.char := by
      rw [Body.isWellFormed, standsForItself, isPrefixOf_run] at wellFormed
      simp_all
    simp [Body.written, Body.spelled, opensTriple, other]
  | escape c rest => cases quote <;> rfl
  | interpolation items rest => cases quote <;> rfl

/-! ### Items -/

/-- A blank keeps the next item apart from the one before it. -/
private theorem endsItem_gap (rest : Items) (ends : EndsItem follow) :
    EndsItem ((rest.gap ++ rest.spelled).map (·.1) ++ follow) := by
  cases rest with
  | nothing => exact ends
  | _ => exact fun c blank => .inl (Option.mem_some_iff.mp blank).symm

/-- Items are read from a depth of braces to another one. -/
def ItemsRead (items : Items) (top : Mode) (outer : Nest) (follow : List Char) : Prop :=
  ∀ depth depth' last, openBraces depth items.codeText = some depth' →
    items = .nothing ∨ last.any isNameChar = false →
      Reads (opened top depth :: outer) last items.spelled (opened top depth' :: outer) follow

private theorem reads_gap {rest : Items} (reads : readsCode top) (items : ItemsRead rest top outer follow)
    {depth depth' : Nat} (braces : openBraces depth rest.codeText = some depth') :
    Reads (opened top depth :: outer) last (rest.gap ++ rest.spelled) (opened top depth' :: outer) follow := by
  have blank : step (opened top depth :: outer) last ' ' (rest.spelled.map (·.1) ++ follow) =
      ⟨.code, [], opened top depth :: outer⟩ := by
    rw [step_opened reads]
    exact codeStep_plain reads rfl (by simp) (by simp) rfl
  cases rest with
  | nothing => exact items depth depth' last braces (.inl rfl)
  | _ => exact .char blank (items depth depth' _ braces (.inr rfl))

end

mutual

private theorem reads_items (items : Items) (wellFormed : items.isWellFormed) {top : Mode} {outer : Nest}
    {follow : List Char} (reads : readsCode top) (ends : EndsItem follow) : ItemsRead items top outer follow := by
  intro depth depth' last braces free
  match items with
  | .nothing =>
    obtain rfl : depth = depth' := by simpa [openBraces, Items.codeText] using braces
    exact .nothing
  | .code text rest =>
    rw [Items.isWellFormed, Bool.and_eq_true] at wellFormed
    obtain ⟨middle, now, later⟩ : ∃ middle, openBraces depth text = some middle ∧
        openBraces middle rest.codeText = some depth' := by
      simpa [openBraces, Items.codeText, List.foldlM_append, Option.bind_eq_some_iff] using braces
    exact .append (reads_code reads wellFormed.1 (endsItem_gap rest ends) now)
      (reads_gap reads (reads_items rest wellFormed.2 reads ends) later)
  | .comment text rest =>
    rw [Items.isWellFormed, Bool.and_eq_true] at wellFormed
    refine .append (reads_comment reads wellFormed.1) ?_
    exact reads_gap reads (reads_items rest wellFormed.2 reads ends) braces
  | .literal quote triple raw body rest =>
    rw [Items.isWellFormed, Bool.and_eq_true] at wellFormed
    have apart := free.resolve_left nofun
    have inside : Reads (.string quote.char triple raw :: opened top depth :: outer)
        (lastOf last (marked .literal (quote.opening triple raw))) body.spelled
        (.string quote.char triple raw :: opened top depth :: outer)
        ((marked .literal (quote.run triple) ++ (rest.gap ++ rest.spelled)).map (·.1) ++ follow) := by
      rw [List.map_append, map_fst_marked, List.append_assoc]
      exact reads_body body wellFormed.1
    refine .append (reads_opening reads apart ?_) (inside.append (reads_closing.append
      (reads_gap reads (reads_items rest wellFormed.2 reads ends) braces)))
    rintro rfl
    rw [List.map_append, List.map_append, map_fst_marked, List.append_assoc, List.append_assoc]
    exact opensTriple_body wellFormed.1 (endsItem_gap rest ends)

private theorem reads_body (body : Body) {quote : Quote} {triple raw : Bool}
    (wellFormed : body.isWellFormed quote triple raw) {nest : Nest} {last : Option Char} {follow : List Char} :
    Reads (.string quote.char triple raw :: nest) last body.spelled (.string quote.char triple raw :: nest)
      (quote.run triple ++ follow) := by
  match body with
  | .nothing => exact .nothing
  | .plain c rest =>
    rw [Body.isWellFormed, Bool.and_eq_true] at wellFormed
    refine .char ?_ (reads_body rest wellFormed.2)
    rw [← List.append_assoc]
    exact stringStep_plain wellFormed.1
  | .escape c rest =>
    rw [Body.isWellFormed, Bool.and_eq_true, Bool.not_eq_true'] at wellFormed
    obtain ⟨rfl, wellFormed⟩ := wellFormed
    exact .pair rfl (reads_body rest wellFormed)
  | .interpolation items rest =>
    simp only [Body.isWellFormed, Bool.and_eq_true, Bool.not_eq_true', Items.isBalanced, beq_iff_eq] at wellFormed
    obtain ⟨⟨⟨rfl, balanced⟩, items_ok⟩, rest_ok⟩ := wellFormed
    have inside : ItemsRead items (.interpolation 0) (.string quote.char triple false :: nest)
        ('}' :: (rest.spelled.map (·.1) ++ (quote.run triple ++ follow))) :=
      reads_items items items_ok rfl fun c brace => .inr (Option.mem_some_iff.mp brace).symm
    exact .pair rfl ((inside 0 0 (some '{') balanced (.inr rfl)).append (.char rfl (reads_body rest rest_ok)))

end

private theorem ofMarks_spelled (items : Items) :
    SanitizedLine.ofMarks items.written (items.spelled.map (·.2)) = ⟨items.blanked, items.commentBytes⟩ := by
  have pairs : items.written.zip (items.spelled.map (·.2)) = items.spelled := by
    rw [Items.written, List.zip_map', List.map_id']
  have shown (c : Char) (mark : Mark) :
      visible c mark = if mark = .code then [c] else List.replicate c.utf8Size ' ' := by
    cases mark <;> rfl
  simp only [SanitizedLine.ofMarks, pairs, shown]
  rfl

theorem byteLength_blanks (n : Nat) : byteLength (List.replicate n ' ') = n := by
  induction n with
  | zero => rfl
  | succ n ih => rw [List.replicate_succ, byteLength_cons, ih, Nat.add_comm]; rfl

private theorem byteLength_blanked (items : Items) : byteLength items.blanked = byteLength items.written := by
  unfold Items.blanked Items.written
  induction items.spelled with
  | nil => rfl
  | cons head rest ih =>
    rw [List.flatMap_cons, byteLength_append, ih, List.map_cons, byteLength_cons]
    by_cases code : head.2 = .code
    · simp [code]
    · simp [code, byteLength_blanks]

/-- A line written from well-formed items is blanked exactly, wherever code is read: each comment and
each literal turns into blanks, apart from the items interpolated into it, of which the same holds; the
bytes of comments, and no others, count as such; positions stay; and the reader ends inside of what it
began in. -/
theorem sanitizeLine_written (items : Items) (wellFormed : items.isWellFormed) (balanced : items.isBalanced)
    (top : Mode) (outer : Nest) (code : top = .code ∨ ∃ depth, top = .interpolation depth) :
    sanitizeLine (top :: outer) items.written = (⟨items.blanked, items.commentBytes⟩, top :: outer) ∧
      byteLength items.blanked = byteLength items.written := by
  have reads : readsCode top := by
    rcases code with rfl | ⟨depth, rfl⟩ <;> rfl
  have still : opened top 0 = top := by
    rcases code with rfl | ⟨depth, rfl⟩ <;> rfl
  have line : Reads (top :: outer) none items.spelled (top :: outer) [] := by
    have read : ItemsRead items top outer [] := reads_items items wellFormed reads nofun
    have whole := read 0 0 none (beq_iff_eq.mp balanced) (.inr rfl)
    rwa [still] at whole
  have same : Nest.endLine (top :: outer) = top :: outer := by
    rcases code with rfl | ⟨depth, rfl⟩ <;> rfl
  rw [Reads, List.append_nil] at line
  refine ⟨?_, byteLength_blanked items⟩
  rw [sanitizeLine, Items.written, line]
  simp only [marksFrom, Prod.map, List.append_nil, id, same]
  rw [← Items.written, ofMarks_spelled]

/-- A raw triple literal, nested comments and braces inside of an interpolation. -/
theorem sanitizeLine_nested_literal :
    let inner : Items := .literal .single true true (.plain '"' .nothing)
      (.comment (.plain 'b' (.nested (.plain 'c' .nothing) .nothing)) (.code ['{', 'x', '}'] .nothing))
    let items : Items := .code ['f'] (.literal .double false false
      (.plain 'a' (.interpolation inner (.escape '"' .nothing))) (.code [')'] .nothing))
    let nest : Nest := [.interpolation 0, .string '"' true false, .code]
    (items.isWellFormed ∧ items.isBalanced) ∧
      sanitizeLine nest items.written = (⟨items.blanked, items.commentBytes⟩, nest) ∧
      byteLength items.blanked = byteLength items.written :=
  ⟨by decide, sanitizeLine_written _ (by decide) (by decide) _ _ (.inr ⟨0, rfl⟩)⟩

end DeadCode.Source
