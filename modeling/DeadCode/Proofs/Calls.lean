import DeadCode.Proofs.Language
import DeadCode.Usage.Shape

/-!
Calls among the uses of a function. A name with a parenthesis after it, or with type arguments and a parenthesis, is
used in one of four shapes, which the end of the text before it decides. The exception are calls through `this` and
`super`, which are taken for the parameters of constructors and count as no use.
-/
namespace DeadCode.Usage
open DeadCode.Text DeadCode.Text.Pattern

inductive CallText : List Char → Prop where
  | plain {margin rest : List Char} (blank : ∀ c ∈ margin, isBlank c) : CallText (margin ++ '(' :: rest)
  | generic {margin arguments gap rest : List Char} (blank : ∀ c ∈ margin, isBlank c)
      (inner : ∀ c ∈ arguments, c ∉ ";()".toList) (blankGap : ∀ c ∈ gap, isBlank c) :
      CallText (margin ++ '<' :: (arguments ++ '>' :: (gap ++ '(' :: rest)))

/-- The text before a name ends in `this.` or `super.`, and that word does not go on to the left. -/
def NamesOwnMember (before : List Char) : Prop :=
  ∃ head, ∃ word ∈ ["this", "super"], before = head ++ (word.toList ++ ['.']) ∧ head.getLast?.any isWordChar = false

inductive CallForm : List Char → FunctionShape → Prop where
  | bare {before : List Char} (noDot : before.getLast? ≠ some '.') : CallForm before .directCall
  | member {receiver : List Char} (single : receiver.getLast? ≠ some '.') (certain : receiver.getLast? ≠ some '?') :
      CallForm (receiver ++ ['.']) .methodCall
  | nullAware {receiver : List Char} : CallForm (receiver ++ ['?', '.']) .nullAwareCall
  | cascade {receiver : List Char} : CallForm (receiver ++ ['.', '.']) .cascadeCall

/-! ### The text after the name -/

theorem opens_callAfter_iff {text : List Char} : callAfter.opens text ↔ CallText text := by
  rw [opens_iff]
  constructor
  · rintro ⟨_, rest, rfl, _, _, rfl, ⟨margin, front, rfl, blank, generic⟩, parenthesis⟩
    obtain rfl := reads_lit.mp parenthesis
    rcases generic with ⟨_, gap, rfl, ⟨_, _, rfl, ⟨_, arguments, rfl, less, inner⟩, greater⟩, blankGap⟩ | rfl
    · obtain rfl := reads_lit.mp less
      obtain rfl := reads_lit.mp greater
      have call := @CallText.generic margin arguments gap rest (reads_blanks.mp blank)
        (reads_manyReluctant_except.mp inner) (reads_blanks.mp blankGap)
      simpa using call
    · have call := @CallText.plain margin rest (reads_blanks.mp blank)
      simpa using call
  · intro call
    cases call with
    | @plain margin rest blank =>
      refine ⟨margin ++ "(".toList, rest, by simp, margin, "(".toList, rfl, ?_, reads_lit.mpr rfl⟩
      exact ⟨margin, [], (List.append_nil margin).symm, reads_blanks.mpr blank, .inr rfl⟩
    | @generic margin arguments gap rest blank inner blankGap =>
      let front := "<".toList ++ arguments ++ ">".toList ++ gap
      refine ⟨margin ++ front ++ "(".toList, rest, by simp [front], margin ++ front, "(".toList, rfl, ?_,
        reads_lit.mpr rfl⟩
      refine ⟨margin, front, rfl, reads_blanks.mpr blank, .inl ⟨_, gap, rfl, ?_, reads_blanks.mpr blankGap⟩⟩
      refine ⟨_, ">".toList, rfl, ?_, reads_lit.mpr rfl⟩
      exact ⟨"<".toList, arguments, rfl, reads_lit.mpr rfl, reads_manyReluctant_except.mpr inner⟩

private theorem first_of_call {text : List Char} (call : CallText text) :
    ∃ c ∈ "(<".toList, (text.dropWhile isBlank).head? = some c := by
  cases call with
  | plain blank => exact ⟨'(', by decide, by rw [List.dropWhile_append_of_pos blank]; rfl⟩
  | generic blank => exact ⟨'<', by decide, by rw [List.dropWhile_append_of_pos blank]; rfl⟩

private theorem first_of_variable {text : List Char} (declared : variableAfter.opens text) :
    ∀ c ∈ (text.dropWhile isBlank).head?, c ∈ "=;,)\x7d".toList := by
  obtain ⟨_, rest, rfl, margin, tail, rfl, blank, ends⟩ := opens_iff.mp declared
  rw [List.append_assoc, List.dropWhile_append_of_pos (reads_blanks.mp blank)]
  rcases ends with ⟨_, _, rfl, equals, -⟩ | closing | final
  · obtain rfl := reads_lit.mp equals
    rintro c ⟨⟩
    decide
  · obtain ⟨c, rfl, member⟩ := reads_among.mp closing
    have visible : ";,)\x7d".toList.all (!isBlank ·) := by decide
    have dark : isBlank c = false := by simpa using List.all_eq_true.mp visible c member
    rw [List.singleton_append, List.dropWhile_cons_of_neg (by simp [dark])]
    rintro _ ⟨⟩
    exact List.mem_cons_of_mem '=' member
  · obtain ⟨rfl, rfl⟩ := reads_textEnd.mp final
    exact fun c none => absurd none (Option.not_mem_none c)

/-- The first character that is not blank tells a called name from a declared one. -/
private theorem variableAfter_of_call {text : List Char} (call : CallText text) : variableAfter.opens text = false := by
  obtain ⟨c, calls, first⟩ := first_of_call call
  rw [Bool.eq_false_iff]
  intro declared
  have apart : "(<".toList.all (!"=;,)\x7d".toList.contains ·) := by decide
  have other : c ∉ "=;,)\x7d".toList := by simpa using List.all_eq_true.mp apart c calls
  exact other (first_of_variable declared c first)

/-! ### The text before the name -/

/-- A word edge in front of one of these words says that no word goes on to the left. -/
private theorem edge_iff {word : String} (member : word ∈ ["this", "super"]) (last : Option Char) (rest : List Char) :
    last.any isWordChar ≠ (word.toList ++ rest).head?.any isWordChar ↔ last.any isWordChar = false := by
  have all : ["this", "super"].all (·.toList.head?.any isWordChar) := by decide
  have begins : (word.toList ++ rest).head?.any isWordChar = true := by
    have first := List.all_eq_true.mp all word member
    cases starts : word.toList with
    | nil => simp [starts] at first
    | cons c others => simpa [starts] using first
  rw [begins, ne_eq, Bool.not_eq_true]

theorem occurs_fieldFormalBefore_iff {before : List Char} :
    fieldFormalBefore.occurs before ↔ NamesOwnMember before := by
  rw [occurs_iff]
  constructor
  · rintro ⟨head, _, rest, rfl, _, _, rfl, ⟨_, _, rfl, ⟨_, _, rfl, edge, own⟩, dot⟩, final⟩
    obtain ⟨rfl, rfl⟩ := reads_textEnd.mp final
    obtain rfl := reads_lit.mp dot
    obtain ⟨word, member, rfl⟩ := reads_oneOf.mp own
    obtain ⟨rfl, apart⟩ := reads_wordEdge.mp edge
    exact ⟨head, word, member, by simp, (edge_iff member _ _).mp apart⟩
  · rintro ⟨head, word, member, rfl, edge⟩
    refine ⟨head, word.toList ++ ".".toList, [], by simp, word.toList ++ ".".toList, [], by simp, ?_,
      reads_textEnd.mpr ⟨rfl, rfl⟩⟩
    refine ⟨word.toList, ".".toList, rfl, ⟨[], word.toList, rfl, ?_, reads_oneOf.mpr ⟨word, member, rfl⟩⟩,
      reads_lit.mpr rfl⟩
    exact reads_wordEdge.mpr ⟨rfl, (edge_iff member _ _).mpr edge⟩

/-- Whatever stands before a called name asks for one of the four shapes. -/
private theorem exists_callForm (before : List Char) : ∃ shape, CallForm before shape := by
  by_cases dot : before.getLast? = some '.'
  · obtain ⟨receiver, rfl⟩ := List.getLast?_eq_some_iff.mp dot
    by_cases double : receiver.getLast? = some '.'
    · obtain ⟨receiver, rfl⟩ := List.getLast?_eq_some_iff.mp double
      rw [List.append_assoc]
      exact ⟨_, .cascade⟩
    by_cases question : receiver.getLast? = some '?'
    · obtain ⟨receiver, rfl⟩ := List.getLast?_eq_some_iff.mp question
      rw [List.append_assoc]
      exact ⟨_, .nullAware⟩
    exact ⟨_, .member double question⟩
  · exact ⟨_, .bare dot⟩

private theorem endsWith_dot (before : List Char) : endsWith before "." = (before.getLast? == some '.') := by
  rw [Bool.eq_iff_iff, beq_iff_eq, List.getLast?_eq_some_iff, endsWith, List.isSuffixOf_iff_suffix]
  exact exists_congr fun front => eq_comm

private theorem endsWith_pair {tail : String} {d : Char} (pair : tail.toList = [d, '.']) (receiver : List Char) :
    endsWith (receiver ++ ['.']) tail = (receiver.getLast? == some d) := by
  rw [Bool.eq_iff_iff, beq_iff_eq, List.getLast?_eq_some_iff, endsWith, List.isSuffixOf_iff_suffix, pair]
  refine exists_congr fun front => ?_
  rw [List.append_cons, List.append_left_inj, eq_comm]

/-- Of the shapes that are tried in order, the one that the text before asks for is the first to fit. -/
private theorem find?_of_callForm {use : Occurrence} {shape : FunctionShape} (call : CallText use.after)
    (form : CallForm use.before shape) : FunctionShape.all.find? (FunctionShape.fits use) = some shape := by
  have called := opens_callAfter_iff.mpr call
  have question := @endsWith_pair "?." '?' rfl
  have double := @endsWith_pair ".." '.' rfl
  obtain ⟨before, name, after⟩ := use
  cases form with
  | bare noDot => simp [FunctionShape.all, FunctionShape.fits, endsWith_dot, noDot, called]
  | member single certain =>
    simp [FunctionShape.all, FunctionShape.fits, endsWith_dot, question, double, single, certain, called]
  | @nullAware receiver =>
    have ends : endsWith (receiver ++ ['?', '.']) "?." = true := by simpa using question (receiver ++ ['?'])
    simp [FunctionShape.all, FunctionShape.fits, endsWith_dot, ends, called]
  | @cascade receiver =>
    have ends : endsWith (receiver ++ ['.', '.']) ".." = true := by simpa using double (receiver ++ ['.'])
    have certain : endsWith (receiver ++ ['.', '.']) "?." = false := by simpa using question (receiver ++ ['.'])
    simp [FunctionShape.all, FunctionShape.fits, endsWith_dot, ends, certain, called]

/-- A name that is called is a use in the shape that the text before it asks for, unless it is called through `this` or
`super`: then it counts as no use at all. -/
theorem FunctionShape.of?_of_callText {use : Occurrence} (call : CallText use.after) :
    (of? use = none ↔ NamesOwnMember use.before) ∧
      ∀ shape, of? use = some shape ↔ ¬ NamesOwnMember use.before ∧ CallForm use.before shape := by
  have declared : declaresVariable use = true ↔ NamesOwnMember use.before := by
    rw [declaresVariable, variableAfter_of_call call, Bool.false_and, Bool.false_and, Bool.or_false,
      occurs_fieldFormalBefore_iff]
  obtain ⟨asked, form⟩ := exists_callForm use.before
  have first := find?_of_callForm call form
  rw [of?]
  split
  case isTrue own =>
    have own := declared.mp own
    refine ⟨⟨fun _ => own, fun _ => rfl⟩, fun shape => ⟨fun same => ?_, fun ⟨other, _⟩ => absurd own other⟩⟩
    exact absurd same.symm (Option.some_ne_none shape)
  case isFalse other =>
    have other := mt declared.mpr other
    rw [first]
    refine ⟨⟨fun same => ?_, fun own => absurd own other⟩, fun shape => ⟨fun same => ?_, fun ⟨_, asks⟩ => ?_⟩⟩
    · exact absurd same (Option.some_ne_none asked)
    · obtain rfl := Option.some.inj same
      exact ⟨other, form⟩
    · rw [← first, find?_of_callForm call asks]

/-- `_this` is a name of its own, and the blanks and nested type arguments after the called name make no difference. -/
theorem FunctionShape.of?_of_callText_otherName :
    let use : Occurrence := ⟨"  _this.".toList, "load".toList, " <List<int>> (1);".toList⟩
    CallText use.after ∧ of? use = some .methodCall := by
  intro use
  have inner : ∀ c ∈ "List<int>".toList, c ∉ ";()".toList := by simp
  have call : CallText use.after := @CallText.generic " ".toList "List<int>".toList " ".toList "1);".toList
    (List.all_eq_true.mp (by decide)) inner (List.all_eq_true.mp (by decide))
  refine ⟨call, ((of?_of_callText call).2 .methodCall).mpr ⟨?_, ?_⟩⟩
  · rw [← occurs_fieldFormalBefore_iff]
    decide
  · exact @CallForm.member "  _this".toList (by decide) (by decide)

/-- A method that is called through `this` counts as unused, although the call is written out. -/
theorem FunctionShape.of?_of_call_through_this :
    let use : Occurrence := ⟨"  this.".toList, "load".toList, "();".toList⟩
    Occurrence.all "load".toList "  this.load();".toList = [(7, use)] ∧ CallText use.after ∧ of? use = none :=
  ⟨by decide, @CallText.plain [] ");".toList (List.forall_mem_nil _), by decide⟩

end DeadCode.Usage
