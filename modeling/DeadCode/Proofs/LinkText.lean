import DeadCode.Directive.Reader
import DeadCode.Proofs.Blanking

/-!
Imports and exports as they are written. A link is a row of tokens, and a layout of it puts white space
between them: any, line breaks included, and some where two tokens would otherwise run together. Printing
a link on one line is one of its layouts.
-/
namespace DeadCode.Directive
open DeadCode.Text DeadCode.Source

/-! ### Links -/

/-- A character of a keyword, of a name, or of several names with dots between. -/
def isWordPart (c : Char) : Bool := isWordChar c || c == '$' || c == '.'

structure Word where
  text : List Char
  nonempty : text ≠ []
  parts : text.all isWordPart
deriving DecidableEq

/-- A character that stands for itself in a literal of either quote. -/
def isAddressPart (c : Char) : Bool := !(['\'', '"', '\\', '$', '\n'].contains c)

structure Address where
  quote : Quote
  text : List Char
  nonempty : text ≠ []
  parts : text.all isAddressPart
deriving DecidableEq

def Address.written (address : Address) : List Char :=
  address.quote.char :: (address.text ++ [address.quote.char])

inductive Keyword where
  | importWord
  | exportWord
  | ifWord
  | deferredWord
  | asWord
  | showWord
  | hideWord
deriving DecidableEq

def Keyword.spelling : Keyword → String
  | importWord => "import"
  | exportWord => "export"
  | ifWord => "if"
  | deferredWord => "deferred"
  | asWord => "as"
  | showWord => "show"
  | hideWord => "hide"

def Keyword.word (keyword : Keyword) : Word where
  text := keyword.spelling.toList
  nonempty := by cases keyword <;> decide
  parts := by cases keyword <;> decide

/-- A word that says what the names after it are for. -/
def reserved : List String := ["as", "show", "hide", "deferred"]

structure Name extends Word where
  free : reserved.contains (String.ofList text) = false
deriving DecidableEq

def Name.string (name : Name) : String := String.ofList name.text

structure Condition where
  name : Word
  uri : Address
  free : uri.text.contains ';' = false
deriving DecidableEq

structure Link where
  isExport : Bool
  uri : Address
  conditions : List Condition
  isDeferred : Bool
  asName : Option Name
  shown : List Name
  hidden : List Name
deriving DecidableEq

def Link.fact (link : Link) (packages : PackageLayout) (file : Path) : UriDirective where
  uri := String.ofList link.uri.text
  resolved := packages.resolve? (String.ofList link.uri.text) file
  asName := link.asName.map Name.string
  shown := link.shown.map Name.string
  hidden := link.hidden.map Name.string
  isExport := link.isExport
  source := file

/-! ### Tokens -/

inductive Token where
  | word (word : Word)
  | address (address : Address)
  | opening
  | closing
  | comma
  | semicolon
deriving DecidableEq

def Token.text : Token → List Char
  | word w => w.text
  | address a => a.written
  | opening => ['(']
  | closing => [')']
  | comma => [',']
  | semicolon => [';']

def Condition.tokens (condition : Condition) : List Token :=
  [.word Keyword.ifWord.word, .opening, .word condition.name, .closing, .address condition.uri]

def namesTokens (keyword : Keyword) : List Name → List Token
  | [] => []
  | first :: others =>
    .word keyword.word :: .word first.toWord :: others.flatMap fun name => [.comma, .word name.toWord]

def nameTokens (keyword : Keyword) : Option Name → List Token
  | some name => [.word keyword.word, .word name.toWord]
  | none => []

namespace Link
variable (link : Link)

def keyword : Keyword := if link.isExport then .exportWord else .importWord

theorem keyword_cases :
    link.isExport = false ∧ link.keyword = .importWord ∨ link.isExport = true ∧ link.keyword = .exportWord := by
  unfold keyword
  cases link.isExport <;> simp

def clauseTokens : List Token :=
  (if link.isDeferred then [.word Keyword.deferredWord.word] else []) ++ (nameTokens .asWord link.asName ++
    (namesTokens .showWord link.shown ++ namesTokens .hideWord link.hidden))

def tokens : List Token :=
  .address link.uri :: (link.conditions.flatMap Condition.tokens ++ (link.clauseTokens ++ [.semicolon]))

end Link

/-! ### Layouts -/

/-- Two tokens between which there has to be white space. -/
def runTogether : Token → Token → Bool
  | .word _, .word _ | .word _, .address _ => true
  | _, _ => false

/-- White space in front of each token, and some where it has to be. -/
def isSpaced : Token → List (List Char × Token) → Bool
  | _, [] => true
  | before, (gap, token) :: rest =>
    gap.all isBlank && (!gap.isEmpty || !runTogether before token) && isSpaced token rest

def written (spaced : List (List Char × Token)) : List Char :=
  spaced.flatMap fun piece => piece.1 ++ piece.2.text

structure Link.Layout (link : Link) where
  spaced : List (List Char × Token)
  tokens : spaced.map (·.2) = link.tokens
  isSpaced : isSpaced (.word link.keyword.word) spaced

def Link.Layout.text {link : Link} (layout : link.Layout) : List Char :=
  link.keyword.word.text ++ written layout.spaced

theorem written_cons (gap : List Char) (token : Token) (rest : List (List Char × Token)) :
    written ((gap, token) :: rest) = gap ++ (token.text ++ written rest) :=
  (List.flatMap_cons ..).trans (List.append_assoc ..)

theorem written_append (first second : List (List Char × Token)) :
    written (first ++ second) = written first ++ written second :=
  List.flatMap_append

theorem isSpaced_cons {before token : Token} {gap : List Char} {rest : List (List Char × Token)} :
    isSpaced before ((gap, token) :: rest) ↔
      (∀ c ∈ gap, isBlank c) ∧ (runTogether before token → gap ≠ []) ∧ isSpaced token rest := by
  rw [isSpaced, Bool.and_eq_true, Bool.and_eq_true, List.all_eq_true, and_assoc]
  cases gap <;> cases runTogether before token <;> simp

theorem isSpaced_append {before : Token} {first second : List (List Char × Token)}
    (spaced : isSpaced before (first ++ second)) :
    isSpaced before first ∧ ∃ token, isSpaced token second := by
  induction first generalizing before with
  | nil => exact ⟨rfl, before, spaced⟩
  | cons piece first ih =>
    obtain ⟨blank, needed, later⟩ := isSpaced_cons.mp spaced
    obtain ⟨inFirst, inSecond⟩ := ih later
    exact ⟨isSpaced_cons.mpr ⟨blank, needed, inFirst⟩, inSecond⟩

theorem isBlank_of_isSpaced {before : Token} {spaced : List (List Char × Token)} (fits : isSpaced before spaced) :
    ∀ piece ∈ spaced, ∀ c ∈ piece.1, isBlank c := by
  induction spaced generalizing before with
  | nil => exact fun piece member => absurd member List.not_mem_nil
  | cons piece spaced ih =>
    obtain ⟨blank, -, later⟩ := isSpaced_cons.mp fits
    exact List.forall_mem_cons.mpr ⟨blank, ih later⟩

/-! ### Printing -/

/-- One blank between two tokens, none inside parentheses and none before a comma or semicolon. -/
def blankBetween : Token → Token → List Char
  | .opening, _ | _, .closing | _, .comma | _, .semicolon => []
  | _, _ => [' ']

def spaceOut : Token → List Token → List (List Char × Token)
  | _, [] => []
  | before, token :: rest => (blankBetween before token, token) :: spaceOut token rest

def Condition.rendered (condition : Condition) : List Char :=
  ' ' :: ("if (".toList ++ (condition.name.text ++ (") ".toList ++ condition.uri.written)))

def renderedName (keyword : String) : Option Name → List Char
  | some name => ' ' :: (keyword.toList ++ ' ' :: name.text)
  | none => []

def renderedNames (keyword : String) : List Name → List Char
  | [] => []
  | first :: others =>
    ' ' :: (keyword.toList ++ ' ' :: (first.text ++ others.flatMap fun name => ", ".toList ++ name.text))

def Link.rendered (link : Link) : List Char :=
  (if link.isExport then "export " else "import ").toList ++ (link.uri.written ++
    (link.conditions.flatMap Condition.rendered ++
    ((if link.isDeferred then " deferred" else "").toList ++
    (renderedName "as" link.asName ++
    (renderedNames "show" link.shown ++ (renderedNames "hide" link.hidden ++ ";".toList))))))

section
variable {before : Token}

theorem map_snd_spaceOut (tokens : List Token) : (spaceOut before tokens).map (·.2) = tokens := by
  induction tokens generalizing before with
  | nil => rfl
  | cons token tokens ih => rw [spaceOut, List.map_cons, ih]

theorem blankBetween_cases (before token : Token) :
    blankBetween before token = [' '] ∨ blankBetween before token = [] ∧ runTogether before token = false := by
  fun_cases blankBetween before token with
  | case1 => exact .inr ⟨rfl, rfl⟩
  | case2 | case3 | case4 => exact .inr ⟨rfl, by cases before <;> rfl⟩
  | case5 => exact .inl rfl

theorem isSpaced_spaceOut (tokens : List Token) : isSpaced before (spaceOut before tokens) := by
  induction tokens generalizing before with
  | nil => rfl
  | cons token tokens ih =>
    have blank : ∀ c ∈ [' '], isBlank c := List.forall_mem_singleton.mpr (by decide)
    rcases blankBetween_cases before token with gap | ⟨gap, apart⟩ <;> rw [spaceOut, gap, isSpaced_cons]
    · exact ⟨blank, fun _ => List.cons_ne_nil _ _, ih⟩
    · exact ⟨fun c member => absurd member List.not_mem_nil, fun runs => absurd runs (by simp [apart]), ih⟩

end

def Link.printed (link : Link) : link.Layout where
  spaced := spaceOut (.word link.keyword.word) link.tokens
  tokens := map_snd_spaceOut _
  isSpaced := isSpaced_spaceOut _

section
variable {before : Token} {rest : List Token}

/-- What is printed depends on the token before only where that opens a parenthesis, so a comma can stand for any
other. -/
private theorem spaceOut_after (closed : before ≠ .opening) : spaceOut before rest = spaceOut .comma rest := by
  cases rest with
  | nil => rfl
  | cons token rest =>
    have same : blankBetween before token = blankBetween .comma token := by
      cases before with
      | opening => exact absurd rfl closed
      | _ => cases token <;> rfl
    rw [spaceOut, spaceOut, same]

private theorem written_words (word : Word) :
    written (spaceOut .comma (.word word :: rest)) = ' ' :: (word.text ++ written (spaceOut .comma rest)) := by
  rw [spaceOut, written_cons, spaceOut_after Token.noConfusion]
  rfl

private theorem written_conditions (conditions : List Condition) :
    written (spaceOut .comma (conditions.flatMap Condition.tokens ++ rest)) =
      conditions.flatMap Condition.rendered ++ written (spaceOut .comma rest) := by
  induction conditions with
  | nil => rfl
  | cons condition conditions ih =>
    rw [List.flatMap_cons, List.flatMap_cons, List.append_assoc, List.append_assoc, ← ih, Condition.tokens,
      List.cons_append, written_words]
    simp only [List.cons_append, List.nil_append, spaceOut, written_cons]
    rw [spaceOut_after Token.noConfusion]
    simp only [Condition.rendered, blankBetween, Token.text, List.append_assoc, List.cons_append, List.nil_append]
    rfl

private theorem written_others (others : List Name) :
    written (spaceOut .comma ((others.flatMap fun name => [Token.comma, .word name.toWord]) ++ rest)) =
      (others.flatMap fun name => ", ".toList ++ name.text) ++ written (spaceOut .comma rest) := by
  induction others with
  | nil => rfl
  | cons name others ih =>
    rw [List.flatMap_cons, List.flatMap_cons, List.append_assoc, List.append_assoc, ← ih]
    simp only [List.cons_append, List.nil_append]
    rw [spaceOut, written_cons, written_words]
    rfl

private theorem written_names (keyword : Keyword) (names : List Name) :
    written (spaceOut .comma (namesTokens keyword names ++ rest)) =
      renderedNames keyword.spelling names ++ written (spaceOut .comma rest) := by
  cases names with
  | nil => rfl
  | cons first others =>
    rw [namesTokens, List.cons_append, List.cons_append, written_words, written_words, written_others]
    simp [renderedNames, Keyword.word]

private theorem written_name (keyword : Keyword) (name : Option Name) :
    written (spaceOut .comma (nameTokens keyword name ++ rest)) =
      renderedName keyword.spelling name ++ written (spaceOut .comma rest) := by
  cases name with
  | none => rfl
  | some name =>
    rw [nameTokens, List.cons_append, List.cons_append, written_words, written_words]
    simp [renderedName, Keyword.word]

/-- The line of a link is one of its layouts. -/
theorem Link.printed_text (link : Link) : link.printed.text = link.rendered := by
  have deferred (rest : List Token) :
      written (spaceOut .comma ((if link.isDeferred then [.word Keyword.deferredWord.word] else []) ++ rest)) =
        (if link.isDeferred then " deferred" else "").toList ++ written (spaceOut .comma rest) := by
    cases link.isDeferred with
    | false => rfl
    | true => exact written_words _
  have semicolon : written (spaceOut .comma [.semicolon]) = ";".toList := rfl
  have first (rest : List Char) : link.keyword.word.text ++ ([' '] ++ rest) =
      (if link.isExport then "export " else "import ").toList ++ rest := by
    rcases link.keyword_cases with ⟨isExport, same⟩ | ⟨isExport, same⟩ <;> rw [isExport, same] <;> rfl
  show link.keyword.word.text ++ written (spaceOut (.word link.keyword.word) link.tokens) = link.rendered
  rw [tokens, rendered, spaceOut, written_cons, spaceOut_after Token.noConfusion, written_conditions, clauseTokens,
    List.append_assoc, List.append_assoc, List.append_assoc, deferred, written_name, written_names, written_names,
    semicolon]
  exact first _

end

example : Link.rendered
    { isExport := false
      uri := ⟨.single, "a.dart".toList, by decide, by decide⟩
      conditions := [⟨⟨"dart.library.io".toList, by decide, by decide⟩,
        ⟨.double, "b.dart".toList, by decide, by decide⟩, by decide⟩]
      isDeferred := true
      asName := some ⟨⟨['p'], by decide, by decide⟩, by decide⟩
      shown := [⟨⟨['X'], by decide, by decide⟩, by decide⟩, ⟨⟨['Y'], by decide, by decide⟩, by decide⟩]
      hidden := [⟨⟨['Z'], by decide, by decide⟩, by decide⟩] } =
    "import 'a.dart' if (dart.library.io) \"b.dart\" deferred as p show X, Y hide Z;".toList := by
  decide

end DeadCode.Directive
