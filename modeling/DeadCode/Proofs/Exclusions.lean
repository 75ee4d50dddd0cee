import DeadCode.Proofs.Spelling
import DeadCode.Settings.Basic
import Mathlib.Data.List.TakeWhile

/-!
What patterns mean for the segments of a path. They are tried on its text as a whole. A directory between two stars on
either side and an ending after two stars mean whole segments and endings. A directory in front of two stars does not
mean whole segments: a longer name is taken for it where the path begins, and where a segment ends like it.
-/
namespace DeadCode

/-! ### Segments -/

namespace Path

theorem segments_eq_splitOn (text : List Char) : segments text = text.splitOn '/' := by
  fun_induction segments text with
  | case1 => rfl
  | case2 rest ih => simp [ih, List.splitOn, List.splitOnP_cons_eq_if_modifyHead]
  | case3 c rest notSlash first others split ih =>
    have apart : ¬ (c == '/') = true := fun slash => notSlash (eq_of_beq slash)
    rw [split, List.splitOn] at ih
    rw [List.splitOn, List.splitOnP_cons_eq_if_modifyHead, if_neg apart, ← ih, List.modifyHead_cons]
  | case4 c rest _ none => exact absurd none (segments_ne_nil rest)

theorem segments_injective {text other : List Char} (same : segments text = segments other) : text = other := by
  have back (text : List Char) : ['/'].intercalate (segments text) = text := by
    rw [segments_eq_splitOn, List.intercalate_splitOn]
  rw [← back text, same, back]

theorem exists_segments {pieces : List (List Char)} (some : pieces ≠ []) (noSlash : ∀ piece ∈ pieces, '/' ∉ piece) :
    ∃ text, segments text = pieces :=
  ⟨['/'].intercalate pieces, by rw [segments_eq_splitOn, List.splitOn_intercalate '/' noSlash some]⟩

private theorem slash_not_mem_of_eq {text : List Char} {pieces : List (List Char)} (split : segments text = pieces) :
    ∀ piece ∈ pieces, '/' ∉ piece := by
  rw [← split]
  exact fun piece => slash_not_mem_segments

/-- Between two segments there is a slash. -/
theorem segments_eq_append_iff {text : List Char} {above inside : List (List Char)} (some : above ≠ [])
    (more : inside ≠ []) :
    segments text = above ++ inside ↔
      ∃ before after, text = before ++ '/' :: after ∧ segments before = above ∧ segments after = inside := by
  constructor
  · intro split
    obtain ⟨noneAbove, noneInside⟩ := List.forall_mem_append.mp (slash_not_mem_of_eq split)
    obtain ⟨before, ofBefore⟩ := exists_segments some noneAbove
    obtain ⟨after, ofAfter⟩ := exists_segments more noneInside
    refine ⟨before, after, segments_injective ?_, ofBefore, ofAfter⟩
    rw [split, segments_append, ofBefore, ofAfter]
  · rintro ⟨before, after, rfl, rfl, rfl⟩
    exact segments_append before after

private theorem segments_word_append {word after first : List Char} {below : List (List Char)} (noSlash : '/' ∉ word)
    (begins : segments after = first :: below) : segments (word ++ after) = (word ++ first) :: below := by
  induction word with
  | nil => exact begins
  | cons c word ih =>
    obtain ⟨apart, others⟩ := List.ne_and_not_mem_of_not_mem_cons noSlash
    rw [List.cons_append, segments, ih others]
    · rfl
    · exact apart.symm

/-- Without a slash between two texts, the last segment of one and the first of the other are one. -/
theorem segments_glued {before after : List Char} {above below : List (List Char)} {last first : List Char}
    (ends : segments before = above ++ [last]) (begins : segments after = first :: below) :
    segments (before ++ after) = above ++ (last ++ first) :: below := by
  have noSlash : '/' ∉ last := slash_not_mem_of_eq ends last List.mem_concat_self
  by_cases none : above = []
  · rw [none, List.nil_append, ← segments_eq_singleton noSlash] at ends
    rw [segments_injective ends, none]
    exact segments_word_append noSlash begins
  · obtain ⟨front, word, rfl, ofFront, ofWord⟩ := (segments_eq_append_iff none (List.cons_ne_nil last [])).mp ends
    rw [← segments_eq_singleton noSlash] at ofWord
    rw [segments_injective ofWord, List.append_assoc, List.cons_append, segments_append, ofFront,
      segments_word_append noSlash begins]

theorem segments_eq_glued_iff {text : List Char} {above below : List (List Char)} {last first : List Char} :
    segments text = above ++ (last ++ first) :: below ↔
      ∃ before after, text = before ++ after ∧ segments before = above ++ [last] ∧ segments after = first :: below := by
  constructor
  · intro split
    obtain ⟨noneAbove, noneElse⟩ := List.forall_mem_append.mp (slash_not_mem_of_eq split)
    obtain ⟨noneHere, noneBelow⟩ := List.forall_mem_cons.mp noneElse
    obtain ⟨noneLast, noneFirst⟩ := not_or.mp (List.mem_append.not.mp noneHere)
    obtain ⟨before, ofBefore⟩ : ∃ before, segments before = above ++ [last] := by
      refine exists_segments (List.append_ne_nil_of_right_ne_nil _ (List.cons_ne_nil last [])) ?_
      exact List.forall_mem_append.mpr ⟨noneAbove, List.forall_mem_singleton.mpr noneLast⟩
    obtain ⟨after, ofAfter⟩ : ∃ after, segments after = first :: below :=
      exists_segments (List.cons_ne_nil first below) (List.forall_mem_cons.mpr ⟨noneFirst, noneBelow⟩)
    refine ⟨before, after, segments_injective ?_, ofBefore, ofAfter⟩
    rw [split, segments_glued ofBefore ofAfter]
  · rintro ⟨before, after, rfl, ofBefore, ofAfter⟩
    exact segments_glued ofBefore ofAfter

end Path

namespace Glob
open DeadCode.Text DeadCode.Path

/-! ### Directories in paths -/

/-- The segments of a directory stand in a path one after the other, and another one comes after them. -/
def IsBelow (directory text : List Char) : Prop :=
  ∃ above inside, inside ≠ [] ∧ segments text = above ++ segments directory ++ inside

/-- A path begins with the segments of a directory, but the last of them goes on or ends the path. -/
def BeginsLike (directory text : List Char) : Prop :=
  ∃ above last more inside, segments directory = above ++ [last] ∧ (more ≠ [] ∨ inside = []) ∧
    segments text = above ++ (last ++ more) :: inside

/-- The segments of a directory stand in a path before another one, but the first of them ends a longer one. -/
def EndsLike (directory text : List Char) : Prop :=
  ∃ above front first others inside, segments directory = first :: others ∧ front ≠ [] ∧ inside ≠ [] ∧
    segments text = above ++ (front ++ first) :: others ++ inside

section
variable {directory text : List Char}

theorem isBelow_iff :
    IsBelow directory text ↔ '/' :: directory ++ ['/'] <:+: text ∨ directory ++ ['/'] <+: text := by
  constructor
  · rintro ⟨above, inside, more, split⟩
    obtain ⟨before, after, rfl, ofBefore, -⟩ :=
      (segments_eq_append_iff (List.append_ne_nil_of_right_ne_nil _ (segments_ne_nil directory)) more).mp split
    by_cases none : above = []
    · rw [none, List.nil_append] at ofBefore
      rw [segments_injective ofBefore]
      exact .inr ⟨after, by simp⟩
    · obtain ⟨front, found, rfl, -, ofFound⟩ :=
        (segments_eq_append_iff none (segments_ne_nil directory)).mp ofBefore
      rw [segments_injective ofFound]
      exact .inl ⟨front, after, by simp⟩
  · rintro (⟨before, after, rfl⟩ | ⟨after, rfl⟩)
    · refine ⟨segments before, segments after, segments_ne_nil after, ?_⟩
      simp only [List.cons_append, List.append_assoc, List.nil_append, segments_append]
    · refine ⟨[], segments after, segments_ne_nil after, ?_⟩
      simp only [List.append_assoc, List.cons_append, List.nil_append, segments_append]

theorem hasDirectory_iff : hasDirectory directory text ↔ IsBelow directory text := by
  rw [hasDirectory, Bool.or_eq_true, contains_iff_infix, List.isPrefixOf_iff_prefix, isBelow_iff]

instance : Decidable (IsBelow directory text) := decidable_of_iff _ hasDirectory_iff

/-- A directory that is only one name stands among the segments but the last. -/
theorem isBelow_iff_mem (noSlash : '/' ∉ directory) :
    IsBelow directory text ↔ directory ∈ (segments text).dropLast := by
  rw [IsBelow, segments_eq_singleton noSlash]
  constructor
  · rintro ⟨above, inside, more, split⟩
    rw [split, List.append_assoc, List.dropLast_append_of_ne_nil (by simp), List.singleton_append,
      List.dropLast_cons_of_ne_nil more]
    simp
  · intro member
    obtain ⟨above, others, split⟩ := List.append_of_mem member
    let last := (segments text).getLast (segments_ne_nil text)
    refine ⟨above, others ++ [last], by simp, ?_⟩
    calc segments text = (segments text).dropLast ++ [last] := (List.dropLast_append_getLast _).symm
      _ = above ++ [directory] ++ (others ++ [last]) := by simp [split]

private theorem exists_last_segment (text : List Char) : ∃ above last, segments text = above ++ [last] :=
  ⟨_, _, (List.dropLast_append_getLast (segments_ne_nil text)).symm⟩

private theorem exists_first_segment (text : List Char) : ∃ first others, segments text = first :: others :=
  List.exists_cons_of_ne_nil (segments_ne_nil text)

theorem prefix_iff : directory <+: text ↔ directory ++ ['/'] <+: text ∨ BeginsLike directory text := by
  constructor
  · rintro ⟨after, rfl⟩
    obtain ⟨above, last, ofDirectory⟩ := exists_last_segment directory
    -- the last segment of the directory is whole exactly if nothing or a slash comes after it
    cases after with
    | nil => exact .inr ⟨above, last, [], [], ofDirectory, .inr rfl, by simp [ofDirectory]⟩
    | cons c after =>
      by_cases slash : c = '/'
      · exact .inl ⟨after, by simp [slash]⟩
      · obtain ⟨first, others, ofAfter⟩ := exists_first_segment after
        have begins : segments (c :: after) = (c :: first) :: others := by
          rw [segments, ofAfter]
          exact slash
        refine .inr ⟨above, last, c :: first, others, ofDirectory, .inl (List.cons_ne_nil c first), ?_⟩
        exact segments_glued ofDirectory begins
  · rintro (begins | ⟨above, last, more, inside, ofDirectory, -, split⟩)
    · exact (List.prefix_append directory ['/']).trans begins
    · obtain ⟨before, after, rfl, ofBefore, -⟩ := segments_eq_glued_iff.mp split
      rw [segments_injective (ofDirectory.trans ofBefore.symm)]
      exact List.prefix_append before after

theorem infix_iff : directory ++ ['/'] <:+: text ↔ IsBelow directory text ∨ EndsLike directory text := by
  constructor
  · rintro ⟨before, after, rfl⟩
    obtain ⟨above, front, ofBefore⟩ := exists_last_segment before
    obtain ⟨first, others, ofDirectory⟩ := exists_first_segment directory
    have split : segments (before ++ (directory ++ ['/']) ++ after) =
        above ++ (front ++ first) :: others ++ segments after := by
      rw [← segments_glued ofBefore ofDirectory, ← segments_append]
      simp
    -- the first segment of the directory is whole exactly if it has no front
    by_cases whole : front = []
    · refine .inl ⟨above, segments after, segments_ne_nil after, ?_⟩
      rw [split, whole, ofDirectory, List.nil_append]
    · exact .inr ⟨above, front, first, others, _, ofDirectory, whole, segments_ne_nil after, split⟩
  · rintro (below | ⟨above, front, first, others, inside, ofDirectory, -, more, split⟩)
    · rcases isBelow_iff.mp below with within | begins
      · exact (List.suffix_cons '/' (directory ++ ['/'])).isInfix.trans within
      · exact begins.isInfix
    · obtain ⟨front, after, rfl, ofFront, -⟩ :=
        (segments_eq_append_iff (List.append_ne_nil_of_right_ne_nil _ (List.cons_ne_nil _ _)) more).mp split
      obtain ⟨before, found, rfl, -, ofFound⟩ := segments_eq_glued_iff.mp ofFront
      rw [segments_injective (ofDirectory.trans ofFound.symm)]
      exact ⟨before, after, by simp⟩

/-- A directory's text at the start of a path, or with a slash anywhere in it, is more than the directory. -/
theorem prefix_or_infix_iff :
    directory <+: text ∨ directory ++ ['/'] <:+: text ↔
      IsBelow directory text ∨ BeginsLike directory text ∨ EndsLike directory text := by
  rw [prefix_iff, infix_iff]
  have whole (begins : directory ++ ['/'] <+: text) : IsBelow directory text := isBelow_iff.mpr (.inr begins)
  tauto

end

/-! ### Patterns -/

private theorem dropLeads_append {lead : List Char} (some : lead ≠ []) (text : List Char) :
    dropLeads lead (lead ++ text) = dropLeads lead text := by
  rw [dropLeads, dif_pos ⟨by simpa using some, List.isPrefixOf_iff_prefix.mpr (List.prefix_append lead text)⟩,
    List.drop_left]

private theorem dropLeads_of_head {c : Char} {lead text : List Char} (apart : text.head? ≠ some c) :
    dropLeads (c :: lead) text = text := by
  rw [dropLeads, dif_neg]
  rintro ⟨-, fits⟩
  obtain ⟨rest, rfl⟩ := List.isPrefixOf_iff_prefix.mp fits
  exact apart rfl

private theorem dropTails_append {tail : List Char} (some : tail ≠ []) (text : List Char) :
    dropTails tail (text ++ tail) = dropTails tail text := by
  have reversed : tail.reverse ≠ [] := by simpa using some
  rw [dropTails, List.reverse_append, dropLeads_append reversed, dropTails]

private theorem dropTails_of_last (tail : List Char) {c : Char} {text : List Char} (apart : text.getLast? ≠ some c) :
    dropTails (tail ++ [c]) text = text := by
  have first : text.reverse.head? ≠ some c := by rwa [List.head?_reverse]
  rw [dropTails, List.reverse_concat, dropLeads_of_head first, List.reverse_reverse]

private theorem splitOnAfter_of_absent {separator text : List Char} (absent : ¬ separator <:+: text)
    (read : List Char) : splitOnAfter separator 0 read text = [read.reverse ++ text] := by
  induction text generalizing read with
  | nil => rw [splitOnAfter, List.append_nil]
  | cons c rest ih =>
    obtain ⟨notHere, notLater⟩ := not_or.mp (List.infix_cons_iff.not.mp absent)
    rw [splitOnAfter, if_neg fun here => notHere (List.isPrefixOf_iff_prefix.mp here), ih notLater]
    simp

private theorem splitOnAfter_stars {before : List Char} (starless : '*' ∉ before) (after read : List Char) :
    splitOnAfter ['*', '*'] 0 read (before ++ '*' :: '*' :: after) =
      (read.reverse ++ before) :: splitOnAfter ['*', '*'] 0 [] after := by
  induction before generalizing read with
  | nil =>
    rw [List.nil_append, splitOnAfter, if_pos (by simp), List.append_nil]
    rfl
  | cons c rest ih =>
    obtain ⟨first, others⟩ := List.ne_and_not_mem_of_not_mem_cons starless
    have apart : ¬ ['*', '*'].isPrefixOf (c :: (rest ++ '*' :: '*' :: after)) := by simp [first]
    rw [List.cons_append, splitOnAfter, if_neg apart, ih others]
    simp

/-- The two sides of a pattern in which two stars stand once. -/
theorem splitOn_stars {before after : List Char} (starless : '*' ∉ before) (single : ¬ ['*', '*'] <:+: after) :
    splitOn (before ++ '*' :: '*' :: after) "**" = [before, after] := by
  show splitOnAfter ['*', '*'] 0 [] (before ++ '*' :: '*' :: after) = _
  rw [splitOnAfter_stars starless, splitOnAfter_of_absent single]
  rfl

section
variable {pattern text : List Char} (slash : '/' ∈ pattern) (stars : ['*', '*'] <:+: pattern)
include slash stars

private theorem fits_of_between {beginning ending : List Char}
    (openSided : ¬ (startsWith pattern "**/" ∧ endsWith pattern "/**"))
    (split : splitOn pattern "**" = [beginning, ending]) :
    fits pattern text = matchesBetween (trimSlashesEnd beginning) (trimSlashesStart ending) text := by
  have found : contains pattern "**".toList := contains_iff_infix.mpr stars
  rw [fits, List.contains_iff_mem.mpr slash, found]
  simp only [Bool.not_true, Bool.and_false, Bool.false_eq_true, if_false, if_true, Bool.and_eq_true, openSided, split]

private theorem fits_of_around (starts : startsWith pattern "**/") (ends : endsWith pattern "/**") :
    fits pattern text =
      hasDirectory (trimSlashesEnd (trimSlashesStart (dropTails "/**".toList (dropLeads "**/".toList pattern))))
        text := by
  have found : contains pattern "**".toList := contains_iff_infix.mpr stars
  rw [fits, List.contains_iff_mem.mpr slash, found]
  simp only [Bool.not_true, Bool.and_false, Bool.false_eq_true, if_false, if_true, starts, ends, Bool.and_self]

end

structure Literal where
  chars : List Char
  starless : '*' ∉ chars
  noSlash : '/' ∉ chars
deriving DecidableEq, Repr

private theorem dropWhile_slash {text : List Char} (noSlash : '/' ∉ text) : text.dropWhile (· == '/') = text := by
  cases text with
  | nil => rfl
  | cons c rest =>
    have apart : c ≠ '/' := (List.ne_and_not_mem_of_not_mem_cons noSlash).1.symm
    exact List.dropWhile_cons_of_neg (by simpa using apart)

theorem head?_append_ne {word : List Char} (starless : '*' ∉ word) (some : word ≠ []) (rest : List Char) :
    (word ++ rest).head? ≠ Option.some '*' := by
  obtain ⟨c, others, rfl⟩ := List.exists_cons_of_ne_nil some
  simpa using fun star : c = '*' => starless (star ▸ List.mem_cons_self)

theorem fits_directory {name : Literal} (named : name.chars ≠ []) (text : List Char) :
    fits ('*' :: '*' :: '/' :: (name.chars ++ ['/', '*', '*'])) text = hasDirectory name.chars text := by
  have leads : dropLeads ['*', '*', '/'] ('*' :: '*' :: '/' :: (name.chars ++ ['/', '*', '*'])) =
      name.chars ++ ['/', '*', '*'] := by
    have cut := dropLeads_append (List.cons_ne_nil '*' ['*', '/']) (name.chars ++ ['/', '*', '*'])
    exact cut.trans (dropLeads_of_head (head?_append_ne name.starless named _))
  have tails : dropTails ['/', '*', '*'] (name.chars ++ ['/', '*', '*']) = name.chars := by
    have last : name.chars.getLast? ≠ some '*' := fun star => name.starless (List.mem_of_getLast? star)
    exact (dropTails_append (List.cons_ne_nil _ _) name.chars).trans (dropTails_of_last ['/', '*'] last)
  have trimmed : trimSlashesEnd (trimSlashesStart name.chars) = name.chars := by
    have reversed : '/' ∉ name.chars.reverse := by simpa using name.noSlash
    rw [trimSlashesStart, dropWhile_slash name.noSlash, trimSlashesEnd, dropWhile_slash reversed, List.reverse_reverse]
  have stars : ['*', '*'] <:+: '*' :: '*' :: '/' :: (name.chars ++ ['/', '*', '*']) := ⟨[], _, rfl⟩
  have ends : endsWith ('*' :: '*' :: '/' :: (name.chars ++ ['/', '*', '*'])) "/**" :=
    List.isSuffixOf_iff_suffix.mpr ⟨'*' :: '*' :: '/' :: name.chars, by simp⟩
  rw [fits_of_around (by simp) stars rfl ends]
  show hasDirectory (trimSlashesEnd (trimSlashesStart (dropTails ['/', '*', '*'] (dropLeads ['*', '*', '/'] _)))) _ = _
  rw [leads, tails, trimmed]

theorem fits_ending (tail : Literal) (text : List Char) :
    fits ('*' :: '*' :: '/' :: '*' :: tail.chars) text = tail.chars.isSuffixOf text := by
  have stars : ['*', '*'] <:+: '*' :: '*' :: '/' :: '*' :: tail.chars := ⟨[], _, rfl⟩
  have single : ¬ ['*', '*'] <:+: '/' :: '*' :: tail.chars := by
    intro within
    have counted := within.sublist.count_le '*'
    simp [List.count_eq_zero.mpr tail.starless] at counted
  have split : splitOn ('*' :: '*' :: '/' :: '*' :: tail.chars) "**" = [[], '/' :: '*' :: tail.chars] :=
    splitOn_stars List.not_mem_nil single
  have openEnd : ¬ endsWith ('*' :: '*' :: '/' :: '*' :: tail.chars) "/**" := by
    intro ends
    have ends : ['/', '*', '*'] <:+ '*' :: '*' :: '/' :: '*' :: tail.chars := List.isSuffixOf_iff_suffix.mp ends
    rw [List.suffix_cons_iff, List.suffix_cons_iff] at ends
    rcases ends with same | same | ends
    · simp at same
    · simp at same
    · exact single ((List.suffix_cons '/' ['*', '*']).isInfix.trans ends.isInfix)
  rw [fits_of_between (by simp) stars (fun both => openEnd both.2) split]
  rfl

structure DirectoryText where
  chars : List Char
  starless : '*' ∉ chars
  named : ∃ c ∈ chars, c ≠ '/'

def DirectoryText.trimmed (directory : DirectoryText) : List Char := trimSlashesEnd directory.chars

theorem fits_below (directory : DirectoryText) (text : List Char) :
    fits (directory.chars ++ ['/', '*', '*']) text =
      (directory.trimmed.isPrefixOf text || contains text (directory.trimmed ++ ['/'])) := by
  obtain ⟨c, member, apart⟩ := directory.named
  have some : directory.chars ≠ [] := List.ne_nil_of_mem member
  have stars : ['*', '*'] <:+: directory.chars ++ ['/', '*', '*'] := ⟨directory.chars ++ ['/'], [], by simp⟩
  have closedStart : ¬ startsWith (directory.chars ++ ['/', '*', '*']) "**/" := by
    intro starts
    obtain ⟨rest, same⟩ := List.isPrefixOf_iff_prefix.mp starts
    exact head?_append_ne directory.starless some ['/', '*', '*'] (congrArg List.head? same).symm
  have split : splitOn (directory.chars ++ ['/'] ++ ['*', '*']) "**" = [directory.chars ++ ['/'], []] :=
    splitOn_stars (by simpa using directory.starless) (by simp)
  rw [List.append_assoc] at split
  have trimmed : trimSlashesEnd (directory.chars ++ ['/']) = directory.trimmed := by
    simp [DirectoryText.trimmed, trimSlashesEnd]
  have kept : directory.trimmed ≠ [] := by
    intro none
    rw [DirectoryText.trimmed, trimSlashesEnd, List.reverse_eq_nil_iff, List.dropWhile_eq_nil_iff] at none
    exact apart (eq_of_beq (none c (List.mem_reverse.mpr member)))
  rw [fits_of_between (by simp) stars (fun both => closedStart both.1) split, trimmed]
  simp [matchesBetween, kept, trimSlashesStart]

def DirectoryText.pattern (directory : DirectoryText) : String := String.ofList directory.chars ++ "/**"

inductive Exclusion where
  | directory (name : Literal) (named : name.chars ≠ [])
  | ending (tail : Literal)

namespace Exclusion

def pattern : Exclusion → String
  | directory name _ => "**/" ++ String.ofList name.chars ++ "/**"
  | ending tail => "**/*" ++ String.ofList tail.chars

/-- A segment other than the last is the directory, or the path ends as it should not. -/
def Meets (text : List Char) : Exclusion → Prop
  | directory name _ => name.chars ∈ (segments text).dropLast
  | ending tail => tail.chars <:+ text

theorem fits_pattern_iff (exclusion : Exclusion) (text : List Char) :
    fits exclusion.pattern.toList text ↔ exclusion.Meets text := by
  cases exclusion with
  | directory name named =>
    have chars : (directory name named).pattern.toList = '*' :: '*' :: '/' :: (name.chars ++ ['/', '*', '*']) := by
      simp [pattern]
    rw [chars, fits_directory named, hasDirectory_iff, isBelow_iff_mem name.noSlash, Meets]
  | ending tail =>
    have chars : (ending tail).pattern.toList = '*' :: '*' :: '/' :: '*' :: tail.chars := by simp [pattern]
    rw [chars, fits_ending, List.isSuffixOf_iff_suffix, Meets]

end Exclusion
end Glob

/-! ### What is left out -/

def Path.slashed (path : Path) : List Char := path.text.toList.map fun c => if c == '\\' then '/' else c

namespace Settings
open Glob Text

theorem excludes_iff (settings : Settings) (path : Path) :
    settings.excludes path ↔ ∃ pattern ∈ settings.exclude, fits pattern.toList path.slashed :=
  List.any_eq_true

private theorem excludes_patterns_iff (settings : Settings) (exclusions : List Exclusion) (path : Path) :
    ({ settings with exclude := exclusions.map (·.pattern) } : Settings).excludes path ↔
      ∃ exclusion ∈ exclusions, exclusion.Meets path.slashed := by
  rw [excludes_iff]
  constructor
  · rintro ⟨pattern, member, fitting⟩
    obtain ⟨exclusion, given, rfl⟩ := List.mem_map.mp member
    exact ⟨exclusion, given, (exclusion.fits_pattern_iff _).mp fitting⟩
  · rintro ⟨exclusion, given, meets⟩
    exact ⟨exclusion.pattern, List.mem_map_of_mem given, (exclusion.fits_pattern_iff _).mpr meets⟩

/-- Directories and endings mean whole segments and endings of a path. So a directory does not stand for longer names
that contain it, nor for a file of its name. -/
theorem excludes_iff_meets (settings : Settings) (exclusions : List Exclusion) (path : Path) :
    (({ settings with exclude := exclusions.map (·.pattern) } : Settings).excludes path ↔
      ∃ exclusion ∈ exclusions, exclusion.Meets path.slashed) ∧
    ∀ (name : Literal) (named : name.chars ≠ []),
      (∀ directory ∈ (Path.segments path.slashed).dropLast, directory ≠ name.chars) →
      ({ settings with exclude := [(Exclusion.directory name named).pattern] } : Settings).excludes path = false := by
  refine ⟨excludes_patterns_iff settings exclusions path, fun name named others => ?_⟩
  rw [← Bool.not_eq_true]
  intro excluded
  obtain ⟨exclusion, given, meets⟩ := (excludes_patterns_iff settings [.directory name named] path).mp excluded
  obtain rfl := List.mem_singleton.mp given
  exact others _ meets rfl

/-- A directory of tests, and neither a directory with a longer name nor a file of that name. -/
theorem excludes_iff_meets_tests :
    ({ default with exclude := ["**/test/**", "**/*.g.dart"] } : Settings).excludes ⟨"lib\\test\\a.dart"⟩ ∧
      ({ default with exclude := ["**/test/**"] } : Settings).excludes ⟨"lib/testing/test"⟩ = false := by
  let tests : Literal := ⟨"test".toList, by decide, by decide⟩
  let generated : Literal := ⟨".g.dart".toList, by decide, by decide⟩
  have named : tests.chars ≠ [] := by decide
  constructor
  · apply (excludes_iff_meets default [.directory tests named, .ending generated] ⟨"lib\\test\\a.dart"⟩).1.mpr
    have within : "test".toList ∈ (Path.segments (Path.slashed ⟨"lib\\test\\a.dart"⟩)).dropLast := by decide
    exact ⟨.directory tests named, List.mem_cons_self, within⟩
  · exact (excludes_iff_meets default [] ⟨"lib/testing/test"⟩).2 tests named (by decide)

/-- A directory in front of two stars leaves out the paths below it, those that begin like it, and those in which a
longer name ends like it. -/
theorem excludes_below_iff (settings : Settings) (directory : DirectoryText) (path : Path) :
    ({ settings with exclude := [directory.pattern] } : Settings).excludes path ↔
      IsBelow directory.trimmed path.slashed ∨ BeginsLike directory.trimmed path.slashed ∨
        EndsLike directory.trimmed path.slashed := by
  have chars : directory.pattern.toList = directory.chars ++ ['/', '*', '*'] := by simp [DirectoryText.pattern]
  simp only [excludes_iff, List.mem_singleton, exists_eq_left]
  rw [chars, fits_below, Bool.or_eq_true, List.isPrefixOf_iff_prefix, contains_iff_infix, prefix_or_infix_iff]

/-- Two directories beside the one that is left out, with longer names. -/
theorem excludes_longer_names :
    let settings : Settings := { default with exclude := ["lib/**"] }
    settings.excludes ⟨"library/a.dart"⟩ ∧ settings.excludes ⟨"mylib/a.dart"⟩ ∧ settings.excludes ⟨"lib"⟩ ∧
      ¬ IsBelow "lib".toList (Path.slashed ⟨"library/a.dart"⟩) ∧
      ¬ IsBelow "lib".toList (Path.slashed ⟨"mylib/a.dart"⟩) ∧ ¬ IsBelow "lib".toList (Path.slashed ⟨"lib"⟩) := by
  decide

end Settings
end DeadCode
