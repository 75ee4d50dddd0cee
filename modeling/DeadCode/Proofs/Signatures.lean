import DeadCode.Source.Definition
import DeadCode.Proofs.Language
import Mathlib.Data.List.DropRight

/-!
The steps by which a definition is read, each taken apart once. A name with a parenthesis after it is found, it is
judged by the text on both sides of it, and the first one that passes gives the definition of the line. Only whether the
body is empty depends on the lines after the signature, and only the override on those above.
-/
namespace DeadCode.Source
open DeadCode.Text DeadCode.Text.Pattern

/-! ### Names with a parenthesis -/

inductive IsTypeArguments : List Char → Prop where
  | none {margin : List Char} (blank : ∀ c ∈ margin, isBlank c) : IsTypeArguments margin
  | some {margin inner gap : List Char} (blank : ∀ c ∈ margin, isBlank c) (flat : ∀ c ∈ inner, c ∉ "()".toList)
      (blankGap : ∀ c ∈ gap, isBlank c) : IsTypeArguments (margin ++ '<' :: (inner ++ '>' :: gap))

/-- A name that is found with a parenthesis after it splits the text. -/
theorem exists_split_of_mem_findAll_callShape {text : List Char} {found : Found}
    (member : found ∈ callShape.findAll text) :
    ∃ before word arguments, text = before ++ (word ++ (arguments ++ '(' :: found.finish.rest)) ∧
      found.start = byteLength before ∧ found.finish.captured "name" = word ∧ IsName word ∧
      IsTypeArguments arguments := by
  obtain ⟨before, rest, last, rfl, start, finish⟩ := foundAt_of_mem_findAllFrom member
  obtain ⟨beforeOpen, inShape, inOpen⟩ := List.mem_flatMap.mp finish
  obtain ⟨beforeArguments, inShape, inArguments⟩ := List.mem_flatMap.mp inShape
  obtain ⟨afterName, inName, inBlanks⟩ := List.mem_flatMap.mp inShape
  obtain ⟨word, capture, split, isName, captured, -, text⟩ := exists_isName_of_mem_capture inName
  have captured : found.finish.captured "name" = word := by
    rw [Reading.captured, capture?_of_mem_outcomes rfl inOpen, capture?_of_mem_outcomes rfl inArguments,
      capture?_of_mem_outcomes rfl inBlanks, captured, Option.map_some, Option.getD_some, text]
  obtain ⟨margin, tookMargin, blank⟩ := exists_reads_of_mem_outcomes inBlanks
  obtain ⟨generic, tookGeneric, reads⟩ := exists_reads_of_mem_outcomes inArguments
  obtain ⟨_, tookOpen, opened⟩ := exists_reads_of_mem_outcomes inOpen
  obtain rfl := reads_lit.mp opened
  have blank := reads_blanks.mp blank
  refine ⟨before, word, margin ++ generic, ?_, by rw [start, Nat.zero_add], captured, isName, ?_⟩
  · have split : rest = word ++ afterName.rest := split
    rw [split, tookMargin.split, tookGeneric.split, tookOpen.split, List.append_assoc]
    rfl
  · rcases reads with ⟨_, gap, rfl, ⟨_, _, rfl, ⟨_, inner, rfl, less, flat⟩, greater⟩, blankGap⟩ | rfl
    · obtain rfl := reads_lit.mp less
      obtain rfl := reads_lit.mp greater
      have arguments := @IsTypeArguments.some margin inner gap blank (reads_manyReluctant_except.mp flat)
        (reads_blanks.mp blankGap)
      simpa using arguments
    · rw [List.append_nil]
      exact .none blank

theorem exists_trailingName {text name : List Char} (found : trailingName? text = some name) :
    (∃ lead, text = lead ++ name) ∧ name ≠ [] ∧ ∀ c ∈ name, isNameChar c := by
  unfold trailingName? at found
  dsimp only at found
  split at found
  · cases found
  case isFalse nonempty =>
    cases found
    refine ⟨?_, by simpa using nonempty, ?_⟩
    · obtain ⟨lead, whole⟩ := List.rtakeWhile_suffix isNameChar text
      exact ⟨lead, whole.symm⟩
    · intro c member
      exact List.mem_rtakeWhile_imp member

theorem exists_owner {enclosing : Option String} {before owner : List Char}
    (found : constructorOwner enclosing before = some (some owner)) :
    (∃ lead, before = lead ++ owner ++ ['.'] ∧ byteLength before.dropLast - byteLength owner = byteLength lead) ∧
      owner ≠ [] ∧ (∀ c ∈ owner, isNameChar c) ∧ enclosing = some (String.ofList owner) := by
  unfold constructorOwner at found
  split at found
  case isFalse => cases found
  case isTrue dotted =>
    obtain ⟨named, same⟩ := Option.filter_eq_some_iff.mp (Option.some.inj found)
    obtain ⟨⟨lead, split⟩, nonempty, letters⟩ := exists_trailingName named
    obtain ⟨front, whole⟩ := List.isSuffixOf_iff_suffix.mp (Bool.and_eq_true_iff.mp dotted).1
    have front : before.dropLast = front := by
      rw [← whole]
      exact List.dropLast_concat
    refine ⟨⟨lead, ?_, ?_⟩, nonempty, letters, (eq_of_beq same).symm⟩
    · rw [← whole, ← split, front]
      rfl
    · rw [split, byteLength_append, Nat.add_sub_cancel]

/-! ### Judging a name -/

structure DefinedName where
  name : String
  offset : Nat
  isConstructor : Bool
deriving DecidableEq, Repr

def Signature.defined (signature : Signature) : DefinedName :=
  ⟨signature.name, signature.offset, signature.isConstructor⟩

inductive NamedBy (context : LineContext) (before : List Char) (start : Nat) (name : List Char)
    (defined : DefinedName) : Prop where
  | plain (unowned : constructorOwner context.enclosing before = none)
      (same : defined = ⟨String.ofList name, start, some (String.ofList name) == context.enclosing⟩)
  | owned {owner : List Char} (found : constructorOwner context.enclosing before = some (some owner))
      (same : defined = ⟨String.ofList owner ++ "." ++ String.ofList name,
        byteLength before.dropLast - byteLength owner, true⟩)

/-- A name with a parenthesis after it passes for a definition: what is defined, what opens its body, its
parameters, and the text after them. -/
structure Judged (context : LineContext) (joined : List Char) (start : Nat) (name afterOpen : List Char)
    (defined : DefinedName) (opener : Opener) (parameters rest : List Char) : Prop where
  balanced : parenBalance (trimEnd (takeBytes start joined)) ≤ 0
  closed : splitAtClose 0 afterOpen = some (parameters, rest)
  noArrow : contains parameters "=>".toList = false
  noClosure : closureBody.occurs parameters = false
  named : NamedBy context (trimEnd (takeBytes start joined)) start name defined
  new : defined.isConstructor = false → String.ofList name ∉ context.known
  opens : opener? defined.isConstructor (dropBodyModifier (trimStart rest)) = some opener
  fits : fitsBefore defined.isConstructor name opener (trimEnd (takeBytes defined.offset joined))

section
variable {context : LineContext} {joined : List Char} {below : List (List Char)} {start : Nat}
  {name afterOpen : List Char} {signature : Signature}

/-- What is left to judge once the defined name is known. -/
private theorem completed_iff (defined : DefinedName) (after : List Char) :
    (if !defined.isConstructor && context.known.contains (String.ofList name) then none else do
      let opener ← opener? defined.isConstructor after
      if fitsBefore defined.isConstructor name opener (trimEnd (takeBytes defined.offset joined)) then
        some (⟨defined.name, defined.offset, defined.isConstructor, hasEmptyBody opener after below⟩ : Signature)
      else none) = some signature ↔
    ∃ opener, signature.defined = defined ∧ signature.emptyBody = hasEmptyBody opener after below ∧
      (defined.isConstructor = false → String.ofList name ∉ context.known) ∧
      opener? defined.isConstructor after = some opener ∧
      fitsBefore defined.isConstructor name opener (trimEnd (takeBytes defined.offset joined)) = true := by
  constructor
  · intro found
    split at found
    · cases found
    case isFalse new =>
    obtain ⟨opener, opens, found⟩ := Option.bind_eq_some_iff.mp found
    split at found
    case isFalse => cases found
    case isTrue fits =>
    cases found
    exact ⟨opener, rfl, rfl, by simpa using new, opens, fits⟩
  · rintro ⟨opener, rfl, empty, new, opens, fits⟩
    rw [if_neg (by simpa using new), opens]
    dsimp only [bind, Option.bind_some]
    rw [if_pos fits, ← empty]
    rfl

/-- When a name passes for a definition, and with what signature. -/
theorem judge_eq_some_iff : judge context joined below start name afterOpen = some signature ↔
    ∃ opener parameters rest,
      Judged context joined start name afterOpen signature.defined opener parameters rest ∧
        signature.emptyBody = hasEmptyBody opener (dropBodyModifier (trimStart rest)) below := by
  unfold judge
  dsimp only
  constructor
  · intro found
    split at found
    · cases found
    case isFalse balanced =>
    obtain ⟨⟨parameters, rest⟩, closed, found⟩ := Option.bind_eq_some_iff.mp found
    dsimp only at found
    split at found
    · cases found
    case isFalse free =>
    have balanced := Int.not_lt.mp balanced
    obtain ⟨noArrow, noClosure⟩ := Bool.or_eq_false_iff.mp (Bool.of_not_eq_true free)
    split at found
    case h_1 unowned =>
      obtain ⟨opener, defined, empty, new, opens, fits⟩ :=
        (completed_iff ⟨String.ofList name, start, some (String.ofList name) == context.enclosing⟩ _).mp found
      rw [← defined] at new opens fits
      exact ⟨opener, parameters, rest,
        ⟨balanced, closed, noArrow, noClosure, .plain unowned defined, new, opens, fits⟩, empty⟩
    case h_2 => cases found
    case h_3 owner owned =>
      obtain ⟨opener, defined, empty, new, opens, fits⟩ := (completed_iff ⟨_, _, true⟩ _).mp found
      rw [← defined] at new opens fits
      exact ⟨opener, parameters, rest,
        ⟨balanced, closed, noArrow, noClosure, .owned owned defined, new, opens, fits⟩, empty⟩
  · rintro ⟨opener, parameters, rest, ⟨balanced, closed, noArrow, noClosure, named, new, opens, fits⟩, empty⟩
    have free : ¬(contains parameters "=>".toList || closureBody.occurs parameters) = true := by
      simp only [noArrow, noClosure, Bool.or_self, Bool.false_eq_true, not_false_iff]
    rw [if_neg (Int.not_lt.mpr balanced), closed]
    refine (if_neg free).trans ?_
    -- Rewriting what is defined turns the last steps into those of the case.
    have complete := (completed_iff signature.defined _).mpr ⟨opener, rfl, empty, new, opens, fits⟩
    cases named with
    | plain unowned same =>
      rw [same] at complete
      rw [unowned]
      exact complete
    | owned owned same =>
      rw [same] at complete
      rw [owned]
      exact complete

/-! ### The first name that passes -/

/-- The signature that is read from a text is that of an unreserved name with a parenthesis after it. -/
theorem exists_judge_of_firstSignature? {limit : Nat}
    (found : firstSignature? context joined below limit = some signature) :
    ∃ before word arguments afterOpen, joined = before ++ (word ++ (arguments ++ '(' :: afterOpen)) ∧
      byteLength before < limit ∧ IsName word ∧ isReserved (String.ofList word) = false ∧ IsTypeArguments arguments ∧
      judge context joined below (byteLength before) word afterOpen = some signature := by
  obtain ⟨place, member, judged⟩ := List.exists_of_findSome?_eq_some found
  have early := List.mem_takeWhile_imp member
  obtain ⟨before, word, arguments, split, start, captured, isName, typed⟩ :=
    exists_split_of_mem_findAll_callShape ((List.takeWhile_sublist _).mem member)
  rw [start] at early judged
  rw [captured] at judged
  dsimp only at judged
  split at judged
  · cases judged
  case isFalse unreserved =>
    exact ⟨before, word, arguments, place.finish.rest, split, of_decide_eq_true early, isName,
      Bool.of_not_eq_true unreserved, typed, judged⟩

/-! ### The definition of a line -/

def mayDefine (context : LineContext) (line : List Char) : Bool :=
  let text := trimEnd (withoutAnnotations line)
  !(decide (context.parenDepth > 0) || (text.isEmpty || !text.contains '(' || isDeclarationLine text) ||
    rejectedByLeader context.enclosing text)

theorem parenDepth_le_of_mayDefine {line : List Char} (likely : mayDefine context line) : context.parenDepth ≤ 0 := by
  simp only [mayDefine, Bool.not_eq_true', Bool.or_eq_false_iff, decide_eq_false_iff_not] at likely
  exact Int.not_lt.mp likely.1.1

def signatureText (line : List Char) (below : List (List Char)) : List Char × List (List Char) :=
  stitch continuationLimit (trimEnd (withoutAnnotations line)) below

def Signature.onLine (signature : Signature) (above : List (List Char)) (line : List Char) : Definition where
  name := signature.name
  offset := byteLength line - byteLength (withoutAnnotations line) + signature.offset
  isConstructor := signature.isConstructor
  isStatic := startsWith (trimEnd (withoutAnnotations line)) "static "
  emptyBody := signature.emptyBody
  isOverride := contains line "@override".toList || precededByOverride above

theorem definitionAt?_eq (context : LineContext) (above : List (List Char)) (line : List Char)
    (below : List (List Char)) : definitionAt? context above line below =
      if mayDefine context line then
        (firstSignature? context (signatureText line below).1 (signatureText line below).2
          (byteLength (trimEnd (withoutAnnotations line)))).map (·.onLine above line)
      else none := by
  unfold definitionAt?
  dsimp only
  split
  case isTrue deep => rw [if_neg (by simp [mayDefine, deep])]
  case isFalse flat =>
  split
  case isTrue unlikely => rw [if_neg (by simp only [mayDefine, unlikely]; simp)]
  case isFalse likely =>
  split
  case isTrue rejected => rw [if_neg (by simp [mayDefine, rejected])]
  case isFalse led =>
    rw [if_pos (by simp only [mayDefine, flat, likely, led]; rfl)]
    exact Option.map_eq_bind.symm

theorem exists_signature_of_definitionAt? {above : List (List Char)} {line : List Char} {definition : Definition}
    (found : definitionAt? context above line below = some definition) :
    mayDefine context line ∧ ∃ signature, definition = signature.onLine above line ∧
      firstSignature? context (signatureText line below).1 (signatureText line below).2
        (byteLength (trimEnd (withoutAnnotations line))) = some signature := by
  rw [definitionAt?_eq] at found
  obtain ⟨likely, found⟩ := Option.ite_none_right_eq_some.mp found
  obtain ⟨signature, first, rfl⟩ := Option.map_eq_some_iff.mp found
  exact ⟨likely, signature, rfl, first⟩

theorem exists_definitionAt?_of_definition? {lines : List (List Char)} {index : Nat} {definition : Definition}
    (found : definition? context lines index = some definition) :
    ∃ line below, lines.drop index = line :: below ∧
      definitionAt? context (lines.take index).reverse line below = some definition := by
  unfold definition? at found
  split at found
  · cases found
  case h_2 line below here => exact ⟨line, below, here, found⟩

end
end DeadCode.Source
