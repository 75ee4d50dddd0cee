import DeadCode.Proofs.ByteGeometry

/-!
How constructs stand inside of each other. Code is around everything; literals and comments begin in code or in an
interpolation, interpolations begin in literals that are not raw, and nothing begins in a comment. Main statement: so it
is at every character and at every byte of every file, whatever is wrong with it, and a reader is never inside of
nothing.
-/
namespace DeadCode.Source
open DeadCode.Text

def Mode.interpolates : Mode → Bool
  | .string _ _ raw => !raw
  | _ => false

def Mode.standsIn : Mode → Mode → Bool
  | .code, _ => false
  | .string _ _ _, outer => readsCode outer
  | .interpolation _, outer => outer.interpolates
  | .comment depth, outer => depth != 0 && readsCode outer

def Mode.endsWithLine : Mode → Bool
  | .string _ triple _ => !triple
  | _ => false

namespace Nest

inductive IsNested : Nest → Prop where
  | outermost : IsNested [.code]
  | inside {inner outer : Mode} {around : Nest} (stands : inner.standsIn outer) (nested : IsNested (outer :: around)) :
      IsNested (inner :: outer :: around)

/-- A nest as it should be, said of each construct in it. -/
structure IsProper (nest : Nest) : Prop where
  /-- A reader is inside of something. -/
  innermost : nest.head? = some nest.mode
  /-- Code is around everything and inside of nothing. -/
  bottom : ∃ inside : Nest, nest = inside ++ [.code] ∧ .code ∉ inside
  strings : ∀ (inside around : Nest) (quote : Char) (triple raw : Bool),
    nest = inside ++ .string quote triple raw :: around → ∃ outer ∈ around.head?, readsCode outer
  interpolations : ∀ (inside around : Nest) (depth : Nat), nest = inside ++ .interpolation depth :: around →
    ∃ quote triple, around.head? = some (.string quote triple false)
  comments : ∀ (inside around : Nest) (depth : Nat), nest = inside ++ .comment depth :: around →
    1 ≤ depth ∧ inside = [] ∧ ∃ outer ∈ around.head?, readsCode outer

namespace IsNested
variable {nest : Nest}

/-! ### What is around a construct -/

private theorem of_cons {inner : Mode} {around : Nest} (nested : IsNested (inner :: around)) (some : around ≠ []) :
    around.IsNested := by
  cases nested with
  | outermost => exact absurd rfl some
  | inside _ nested => exact nested

private theorem of_append {inside : Nest} {inner : Mode} {around : Nest}
    (nested : IsNested (inside ++ inner :: around)) : IsNested (inner :: around) := by
  induction inside with
  | nil => exact nested
  | cons first inside ih => exact ih (nested.of_cons (by simp))

private theorem exists_outer {inside : Nest} {inner : Mode} {around : Nest}
    (nested : IsNested (inside ++ inner :: around)) (apart : inner ≠ .code) :
    ∃ outer ∈ around.head?, inner.standsIn outer := by
  cases nested.of_append with
  | outermost => exact absurd rfl apart
  | inside stands _ => exact ⟨_, rfl, stands⟩

private theorem exists_inside (nested : nest.IsNested) :
    ∃ inside : Nest, nest = inside ++ [.code] ∧ .code ∉ inside := by
  induction nested with
  | outermost => exact ⟨[], rfl, List.not_mem_nil⟩
  | @inside inner outer around stands _ ih =>
    obtain ⟨others, split, none⟩ := ih
    have apart : Mode.code ≠ inner := by rintro rfl; cases stands
    exact ⟨inner :: others, congrArg (inner :: ·) split, List.not_mem_cons_of_ne_of_not_mem apart none⟩

/-- Nothing stands in a comment. -/
private theorem eq_nil_of_comment {inside around : Nest} {depth : Nat}
    (nested : IsNested (inside ++ .comment depth :: around)) : inside = [] := by
  rcases List.eq_nil_or_concat' inside with none | ⟨front, inner, rfl⟩
  · exact none
  · rw [List.append_assoc] at nested
    cases nested.of_append with
    | inside stands _ => cases inner <;> simp [Mode.standsIn, Mode.interpolates, readsCode] at stands

theorem isProper (nested : nest.IsNested) : nest.IsProper where
  innermost := by cases nested <;> rfl
  bottom := nested.exists_inside
  strings := by
    rintro inside around quote triple raw rfl
    exact nested.exists_outer (by simp)
  interpolations := by
    rintro inside around depth rfl
    obtain ⟨outer, here, stands⟩ := nested.exists_outer (by simp)
    cases outer with
    | string quote triple raw =>
      cases raw with
      | false => exact ⟨quote, triple, here⟩
      | true => cases stands
    | code => cases stands
    | comment => cases stands
    | interpolation => cases stands
  comments := by
    rintro inside around depth rfl
    obtain ⟨outer, here, stands⟩ := nested.exists_outer (by simp)
    obtain ⟨counted, code⟩ := Bool.and_eq_true_iff.mp stands
    exact ⟨Nat.one_le_iff_ne_zero.mpr (bne_iff_ne.mp counted), nested.eq_nil_of_comment, outer, here, code⟩

end IsNested

/-! ### Steps -/

inductive Turns (nest : Nest) : Nest → Prop where
  | stays : Turns nest nest
  | opens {inner : Mode} (stands : inner.standsIn nest.mode) : Turns nest (inner :: nest)
  | counts {depth : Nat} (inside : nest.mode = .interpolation depth) (now : Nat) :
      Turns nest (nest.withMode (.interpolation now))
  | countsComments {depth : Nat} (inside : nest.mode = .comment depth) (now : Nat) :
      Turns nest (nest.withMode (.comment (now + 1)))
  | closes (inside : nest.mode ≠ .code) : Turns nest nest.tail

theorem IsNested.turns {nest after : Nest} (nested : nest.IsNested) (turns : nest.Turns after) : after.IsNested := by
  cases turns with
  | stays => exact nested
  | opens stands => cases nested with
    | outermost => exact .inside stands .outermost
    | inside standsToo nested => exact .inside stands (.inside standsToo nested)
  | counts inside now => cases nested with
    | outermost => cases inside
    | inside stands nested =>
      obtain rfl := inside
      exact .inside stands nested
  | countsComments inside now => cases nested with
    | outermost => cases inside
    | inside stands nested =>
      -- how many comments are open makes no difference to where they stand
      obtain rfl := inside
      exact .inside (Bool.and_eq_true_iff.mp stands).2 nested
  | closes inside => cases nested with
    | outermost => exact absurd rfl inside
    | inside _ nested => exact nested

end Nest

section
variable {nest : Nest} (last : Option Char) (c : Char) (rest : List Char)

private theorem turns_codeStep (code : readsCode nest.mode) : nest.Turns (codeStep nest last c rest).nest := by
  unfold codeStep
  split
  · exact .stays
  · exact .opens code
  split
  · exact .opens code
  split
  · split
    · exact .opens code
    · exact .stays
  · split
    · exact .counts ‹nest.mode = .interpolation _› _
    · exact .closes (ne_of_eq_of_ne ‹nest.mode = .interpolation 0› Mode.noConfusion)
    · exact .counts ‹nest.mode = .interpolation _› _
    · exact .stays

/-- One comment less is open. -/
private theorem turns_uncounted {depth : Nat} (inside : nest.mode = .comment depth) :
    nest.Turns (if depth ≤ 1 then nest.tail else nest.withMode (.comment (depth - 1))) := by
  split
  case isTrue => exact .closes (ne_of_eq_of_ne inside Mode.noConfusion)
  case isFalse more =>
    have fewer : depth - 1 = depth - 2 + 1 := by omega
    rw [fewer]
    exact .countsComments inside (depth - 2)

private theorem turns_commentStep {depth : Nat} (inside : nest.mode = .comment depth) :
    nest.Turns (commentStep nest depth c rest).nest := by
  unfold commentStep
  split
  · exact .countsComments inside depth
  · exact turns_uncounted inside
  · exact .stays

private theorem turns_stringStep {quote : Char} {triple raw : Bool} (inside : nest.mode = .string quote triple raw) :
    nest.Turns (stringStep nest quote triple raw c rest).nest := by
  unfold stringStep
  split
  · exact .stays
  split
  case isTrue opens =>
    refine .opens ?_
    rw [inside]
    exact (Bool.and_eq_true_iff.mp (Bool.and_eq_true_iff.mp opens).1).1
  split
  · exact .closes (ne_of_eq_of_ne inside Mode.noConfusion)
  · exact .stays

theorem turns_step : nest.Turns (step nest last c rest).nest := by
  unfold step
  split
  case h_1 code => exact turns_codeStep last c rest (by rw [code]; rfl)
  case h_2 code => exact turns_codeStep last c rest (by rw [code]; rfl)
  case h_3 inside => exact turns_commentStep c rest inside
  case h_4 inside => exact turns_stringStep c rest inside

end

namespace ByteReader
variable (reader : ByteReader)

private theorem turns_readCode (code : readsCode reader.nest.mode) : reader.nest.Turns reader.readCode.nest := by
  unfold readCode
  split
  · exact .stays
  split
  · exact .opens code
  split
  · exact .opens code
  split
  · exact .opens code
  split
  case h_1 depth inside =>
    split
    · exact .counts inside (depth + 1)
    split
    · split
      · exact .closes (ne_of_eq_of_ne inside Mode.noConfusion)
      · exact .counts inside (depth - 1)
    · exact .stays
  case h_2 => exact .stays

private theorem turns_readComment {depth : Nat} (inside : reader.nest.mode = .comment depth) :
    reader.nest.Turns (reader.readComment depth).nest := by
  unfold readComment
  split
  · exact .countsComments inside depth
  split
  · exact turns_uncounted inside
  · exact .stays

private theorem turns_readString {quote : Char} {triple raw : Bool}
    (inside : reader.nest.mode = .string quote triple raw) :
    reader.nest.Turns (reader.readString quote triple raw).nest := by
  unfold readString
  split
  · exact .stays
  split
  case isTrue opens =>
    refine .opens ?_
    rw [inside]
    exact (Bool.and_eq_true_iff.mp opens).1
  generalize reader.sees _ = closing
  cases closing with
  | true => exact .closes (ne_of_eq_of_ne inside Mode.noConfusion)
  | false => exact .stays

theorem turns_next : reader.nest.Turns reader.next.nest := by
  unfold next
  split
  · exact .stays
  unfold readMode
  split
  case h_1 code => exact turns_readCode reader (by rw [code]; rfl)
  case h_2 code => exact turns_readCode reader (by rw [code]; rfl)
  case h_3 inside => exact turns_readComment reader inside
  case h_4 inside => exact turns_readString reader inside

end ByteReader

/-! ### Lines -/

/-- The constructs around a reader before each character of a line, and after the last one. -/
def nestsFrom : List Mark → Nest → Option Char → List Char → List Nest
  | _, nest, _, [] => [nest]
  | _ :: ahead, nest, _, c :: rest => nest :: nestsFrom ahead nest (some c) rest
  | [], nest, last, c :: rest =>
    let now := step nest last c rest
    nest :: nestsFrom now.ahead now.nest (some c) rest

def lineNests : Nest → List (List Char) → List Nest
  | _, [] => []
  | nest, line :: rest => nest :: lineNests (sanitizeLine nest line).2 rest

theorem sanitizeFrom_eq_zipWith (nest : Nest) (lines : List (List Char)) :
    sanitizeFrom nest lines =
      List.zipWith (fun nest line => (sanitizeLine nest line).1) (lineNests nest lines) lines := by
  induction lines generalizing nest with
  | nil => rfl
  | cons line rest ih => exact congrArg _ (ih (sanitizeLine nest line).2)

theorem getLast?_nestsFrom (ahead : List Mark) (nest : Nest) (last : Option Char) (line : List Char) :
    (nestsFrom ahead nest last line).getLast? = some (marksFrom ahead nest last line).2 := by
  induction line generalizing ahead nest last with
  | nil => cases ahead <;> rfl
  | cons c rest ih =>
    cases ahead with
    | nil =>
      let now := step nest last c rest
      show (nest :: nestsFrom now.ahead now.nest (some c) rest).getLast? =
        some (marksFrom now.ahead now.nest (some c) rest).2
      rw [List.getLast?_cons, ih]
      rfl
    | cons mark ahead =>
      show (nest :: nestsFrom ahead nest (some c) rest).getLast? = some (marksFrom ahead nest (some c) rest).2
      rw [List.getLast?_cons, ih]
      rfl

namespace Nest.IsNested
variable {nest : Nest} (nested : nest.IsNested)
include nested

theorem of_mem_nestsFrom {ahead : List Mark} {last : Option Char} {line : List Char} :
    ∀ around ∈ nestsFrom ahead nest last line, around.IsNested := by
  induction line generalizing ahead nest last with
  | nil =>
    intro around member
    cases ahead <;> exact List.mem_singleton.mp member ▸ nested
  | cons c rest ih =>
    cases ahead with
    | nil => exact List.forall_mem_cons.mpr ⟨nested, ih (nested.turns (turns_step last c rest))⟩
    | cons mark ahead => exact List.forall_mem_cons.mpr ⟨nested, ih nested⟩

theorem iterate_next (read : List (UInt8 × Mark)) (rest : List UInt8) (rounds : Nat) :
    (ByteReader.next^[rounds] ⟨nest, read, rest⟩).nest.IsNested := by
  induction rounds with
  | zero => exact nested
  | succ rounds ih =>
    rw [Function.iterate_succ_apply']
    exact ih.turns (ByteReader.turns_next _)

theorem dropWhile_endsWithLine : IsNested (nest.dropWhile Mode.endsWithLine) := by
  induction nested with
  | outermost => exact .outermost
  | @inside inner outer around stands nested ih =>
    cases ends : inner.endsWithLine with
    | true => rwa [List.dropWhile_cons_of_pos ends]
    | false =>
      rw [List.dropWhile_cons_of_neg (Bool.eq_false_iff.mp ends)]
      exact .inside stands nested

/-- Something is left at the end of a line. -/
theorem endLine_eq : nest.endLine = nest.dropWhile Mode.endsWithLine := by
  have left : nest.dropWhile Mode.endsWithLine ≠ [] := by
    intro none
    have nested := nested.dropWhile_endsWithLine
    rw [none] at nested
    cases nested
  have same : nest.endLine = if (nest.dropWhile Mode.endsWithLine).isEmpty then Nest.outermost else
      nest.dropWhile Mode.endsWithLine := rfl
  rw [same, if_neg (by simpa using left)]

theorem marksFrom (line : List Char) : (marksFrom [] nest none line).2.IsNested :=
  nested.of_mem_nestsFrom _ (List.mem_of_getLast? (getLast?_nestsFrom [] nest none line))

theorem sanitizeLine (line : List Char) : (sanitizeLine nest line).2.IsNested := by
  have ended := nested.marksFrom line
  show (Source.marksFrom [] nest none line).2.endLine.IsNested
  rw [ended.endLine_eq]
  exact ended.dropWhile_endsWithLine

end Nest.IsNested

structure ReadsProperly (nest : Nest) (line : List Char) : Prop where
  characters : ∀ around ∈ nestsFrom [] nest none line, around.IsProper
  /-- A reader of bytes looks at the innermost construct in each of its rounds. -/
  bytes : ∀ rounds, (ByteReader.next^[rounds] ⟨nest, [], utf8 line⟩).nest.IsProper
  /-- Both readers come to the same. -/
  agree : ByteReader.blankLine nest (utf8 line) =
    (ByteReader.bytesOf (markLine nest line), (sanitizeLine nest line).2)
  after : (sanitizeLine nest line).2.IsProper
  /-- No literal goes on that may not. -/
  ended : ∀ quote raw, (sanitizeLine nest line).2.mode ≠ .string quote false raw
  /-- Something is left at the end of the line. -/
  left : (sanitizeLine nest line).2 = (marksFrom [] nest none line).2.dropWhile Mode.endsWithLine

theorem readsProperly {nest : Nest} (nested : nest.IsNested) (quoted : nest.IsQuoted) (line : List Char) :
    ReadsProperly nest line := by
  have left : (sanitizeLine nest line).2 = (marksFrom [] nest none line).2.dropWhile Mode.endsWithLine :=
    (nested.marksFrom line).endLine_eq
  have after := (nested.sanitizeLine line).isProper
  refine ⟨?_, ?_, ByteReader.blankLine_utf8 quoted line, after, ?_, left⟩
  · exact fun around member => (nested.of_mem_nestsFrom around member).isProper
  · exact fun rounds => (nested.iterate_next [] (utf8 line) rounds).isProper
  · intro quote raw literal
    have first := after.innermost
    rw [literal, left] at first
    have goesOn := List.head?_dropWhile_not Mode.endsWithLine (marksFrom [] nest none line).2
    rw [first] at goesOn
    cases goesOn

/-- Every file is read properly, whatever is in it. -/
theorem sanitize_readsProperly (lines : List (List Char)) :
    sanitize lines =
        List.zipWith (fun nest line => (sanitizeLine nest line).1) (lineNests .outermost lines) lines ∧
      List.Forall₂ ReadsProperly (lineNests .outermost lines) lines := by
  refine ⟨sanitizeFrom_eq_zipWith .outermost lines, ?_⟩
  suffices ∀ nest : Nest, nest.IsNested → nest.IsQuoted → List.Forall₂ ReadsProperly (lineNests nest lines) lines from
    this _ .outermost .outermost
  induction lines with
  | nil => exact fun _ _ _ => .nil
  | cons line rest ih =>
    intro nest nested quoted
    exact .cons (readsProperly nested quoted line) (ih _ (nested.sanitizeLine line) (quoted.sanitizeLine line))

end DeadCode.Source
