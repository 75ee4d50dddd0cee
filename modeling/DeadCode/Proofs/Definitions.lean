import DeadCode.Proofs.Signatures
import DeadCode.Proofs.Visible

/-!
Where a definition has its name. A signature is read from a line without its annotations and with the lines
after it joined on; the name, or the owner of a named constructor, still stands in the line at the position
that is reported.
-/
namespace DeadCode.Source
open DeadCode.Text DeadCode.Text.Pattern

def firstPart (name : String) : List Char := name.toList.takeWhile (· != '.')

theorem firstPart_ofList {word : List Char} (isName : IsName word) : firstPart (String.ofList word) = word := by
  rw [firstPart, String.toList_ofList, List.takeWhile_eq_self_iff]
  intro d member
  rw [bne_iff_ne]
  rintro rfl
  exact isName.dot_notMem member

private theorem firstPart_append {owner : List Char} (letters : ∀ c ∈ owner, isNameChar c) (name : String) :
    firstPart (String.ofList owner ++ "." ++ name) = owner := by
  have plain : ∀ c ∈ owner, (c != '.') = true := by
    intro c member
    rw [bne_iff_ne]
    rintro rfl
    exact absurd (letters _ member) (by decide)
  rw [firstPart, String.toList_append, String.toList_append, String.toList_ofList, List.append_assoc,
    List.takeWhile_append_of_pos plain]
  simp

/-! ### Pieces of a line -/

theorem exists_blank_trimEnd (text : List Char) : ∃ tail, text = trimEnd text ++ tail ∧ ∀ c ∈ tail, isBlank c :=
  ⟨text.rtakeWhile isBlank, List.rdropWhile_append_rtakeWhile.symm, fun _ => List.mem_rtakeWhile_imp⟩

theorem exists_trimEnd (text : List Char) : ∃ tail, text = trimEnd text ++ tail := by
  obtain ⟨tail, whole, -⟩ := exists_blank_trimEnd text
  exact ⟨tail, whole⟩

private theorem byteLength_eq_length {text : List Char} (small : ∀ c ∈ text, c.utf8Size = 1) :
    byteLength text = text.length := by
  induction text with
  | nil => rfl
  | cons c rest ih =>
    obtain ⟨first, others⟩ := List.forall_mem_cons.mp small
    rw [byteLength_cons, ih others, first, List.length_cons, Nat.add_comm]

private theorem byteLength_take_markerLength (text : List Char) :
    byteLength (text.take (markerLength text)) = markerLength text := by
  have filled (fill : Char) (small : fill.utf8Size = 1) (rest : List Char) :
      byteLength (rest.take (rest.takeWhile (· == fill)).length) = (rest.takeWhile (· == fill)).length := by
    rw [← List.prefix_iff_eq_take.mp (List.takeWhile_prefix (· == fill))]
    refine byteLength_eq_length fun c member => ?_
    have same := List.mem_takeWhile_imp member
    rw [eq_of_beq same, small]
  unfold markerLength
  split
  · exact filled '/' rfl text
  split
  case isTrue opens =>
    obtain ⟨rest, rfl⟩ := List.isPrefixOf_iff_prefix.mp opens
    have shown : "/*".toList ++ rest = '/' :: '*' :: rest := rfl
    rw [shown, Nat.add_comm, List.drop_one, List.tail_cons, List.take_succ_cons, byteLength_cons, filled '*' rfl,
      Nat.add_comm]
    rfl
  · rfl

/-- What is left of a comment line without its marker stands in the line. -/
theorem exists_stripMarker (line : List Char) :
    ∃ before after, line = before ++ ((stripMarker line).1 ++ after) ∧ byteLength before = (stripMarker line).2 := by
  have whole : line = indent line ++ trimStart line := List.takeWhile_append_dropWhile.symm
  have marked := (List.take_append_drop (markerLength (trimStart line)) (trimStart line)).symm
  unfold stripMarker
  dsimp only
  split
  case isTrue none =>
    rw [none, List.drop_zero]
    exact ⟨indent line, [], by rw [List.append_nil, ← whole], rfl⟩
  case isFalse =>
    generalize (trimStart line).drop (markerLength (trimStart line)) = body at marked ⊢
    obtain ⟨after, closed⟩ : ∃ after, body = (stripTail? body "*/").getD body ++ after := by
      unfold stripTail?
      split
      · exact ⟨_, (List.take_append_drop _ body).symm⟩
      · exact ⟨[], (List.append_nil body).symm⟩
    generalize (stripTail? body "*/").getD body = inner at closed ⊢
    have split : inner = indent inner ++ trimStart inner := List.takeWhile_append_dropWhile.symm
    refine ⟨indent line ++ ((trimStart line).take (markerLength (trimStart line)) ++ indent inner), after, ?_, ?_⟩
    · calc line = indent line ++ ((trimStart line).take (markerLength (trimStart line)) ++
            (indent inner ++ trimStart inner ++ after)) := by rw [← split, ← closed, ← marked, ← whole]
        _ = _ := by simp only [List.append_assoc]
    · rw [byteLength_append, byteLength_append, byteLength_take_markerLength, Nat.add_assoc]

private theorem exists_dropAnnotations (bound : Nat) (text : List Char) :
    ∃ lead, text = lead ++ dropAnnotations bound text := by
  fun_induction dropAnnotations bound text with
  | case1 text => exact ⟨[], rfl⟩
  | case2 bound text reading read ih =>
    obtain ⟨lead, split⟩ := ih
    obtain ⟨skipped, whole, -⟩ := advances_of_mem_outcomes (readsOnly_true annotation) (List.mem_of_head? read)
    refine ⟨skipped ++ lead, ?_⟩
    rw [List.append_assoc, ← split]
    exact whole
  | case3 bound text _ => exact ⟨[], rfl⟩

private theorem exists_withoutAnnotations (line : List Char) : ∃ lead, line = lead ++ withoutAnnotations line := by
  obtain ⟨lead, split⟩ := exists_dropAnnotations line.length (trimStart line)
  refine ⟨line.takeWhile isBlank ++ lead, ?_⟩
  rw [List.append_assoc, withoutAnnotations, ← split]
  exact List.takeWhile_append_dropWhile.symm

/-- A signature that goes on has the next lines joined on, and the lines after those are left. -/
theorem exists_stitch (bound : Nat) (text : List Char) (below : List (List Char)) :
    ∃ count ≤ bound, stitch bound text below =
      (text ++ (below.take count).flatMap fun next => ' ' :: trim next, below.drop count) := by
  fun_induction stitch bound text below with
  | case1 | case2 | case4 => exact ⟨0, Nat.zero_le _, by simp⟩
  | case3 bound text next below _ ih =>
    obtain ⟨count, within, joined⟩ := ih
    refine ⟨count + 1, Nat.succ_le_succ within, ?_⟩
    rw [joined, List.take_succ_cons, List.flatMap_cons, List.append_assoc, List.drop_succ_cons]

private theorem stitch_cases (bound : Nat) (text : List Char) (below : List (List Char)) :
    (stitch bound text below).1 = text ∨ ∃ more, (stitch bound text below).1 = text ++ ' ' :: more := by
  obtain ⟨count, -, joined⟩ := exists_stitch bound text below
  rw [joined]
  cases below.take count with
  | nil => exact .inl (List.append_nil text)
  | cons next others => exact .inr ⟨_, rfl⟩

/-- A word without blanks that begins in a text before a blank also ends there. -/
private theorem exists_within {text more lead word rest : List Char} (noBlank : ' ' ∉ word)
    (same : text ++ ' ' :: more = lead ++ (word ++ rest)) (begins : byteLength lead < byteLength text) :
    ∃ after, text = lead ++ (word ++ after) := by
  rcases List.append_eq_append_iff.mp same with ⟨past, leadText, -⟩ | ⟨inner, textSplit, wordSplit⟩
  · rw [leadText, byteLength_append] at begins
    omega
  rcases List.append_eq_append_iff.mp wordSplit with ⟨after, innerSplit, -⟩ | ⟨past, wordText, blank⟩
  · exact ⟨after, by rw [textSplit, innerSplit]⟩
  · cases past with
    | nil => exact ⟨[], by rw [textSplit, wordText]; simp⟩
    | cons c past =>
      obtain ⟨rfl, -⟩ := List.cons.inj blank
      exact absurd (by simp [wordText]) noBlank

/-! ### Signatures -/

/-- A signature whose name stands in the joined text, not after a position, and which is a constructor only of the
class around it. Otherwise its name is not that of a class that is known. -/
structure Signature.Fits (signature : Signature) (context : LineContext) (joined : List Char) (start : Nat) : Prop where
  nonempty : firstPart signature.name ≠ []
  noBlank : ' ' ∉ firstPart signature.name
  stands : ∃ lead rest, joined = lead ++ (firstPart signature.name ++ rest) ∧ signature.offset = byteLength lead
  notAfter : signature.offset ≤ start
  owned : signature.isConstructor → ∃ owner, context.enclosing = some owner ∧ owner.toList = firstPart signature.name
  new : signature.isConstructor = false → signature.name ∉ context.known

private theorem fits_of_judged {context : LineContext} {before name rest afterOpen parameters later : List Char}
    {opener : Opener} {signature : Signature} (isName : IsName name)
    (judged : Judged context (before ++ (name ++ rest)) (byteLength before) name afterOpen signature.defined opener
      parameters later) :
    signature.Fits context (before ++ (name ++ rest)) (byteLength before) := by
  have fromText := judged.named
  rw [takeBytes_append] at fromText
  cases fromText with
  | plain unowned same =>
    obtain ⟨named, offset, constructs⟩ := DefinedName.mk.inj same
    have part : firstPart signature.name = name := by rw [named, firstPart_ofList isName]
    refine ⟨part ▸ isName.ne_nil, part ▸ isName.blank_notMem, ⟨before, rest, by rw [part], offset⟩, offset.le, ?_, ?_⟩
    · intro isConstructor
      rw [constructs] at isConstructor
      refine ⟨String.ofList name, (eq_of_beq isConstructor).symm, ?_⟩
      rw [part, String.toList_ofList]
    · rw [named]
      exact judged.new
  | owned owned same =>
    obtain ⟨named, offset, constructs⟩ := DefinedName.mk.inj same
    obtain ⟨⟨lead, split, start⟩, nonempty, letters, enclosing⟩ := exists_owner owned
    obtain ⟨tail, whole⟩ := exists_trimEnd before
    have part := congrArg firstPart named
    rw [firstPart_append letters] at part
    rw [start] at offset
    refine ⟨part ▸ nonempty, ?_, ⟨lead, '.' :: (tail ++ (name ++ rest)), ?_, offset⟩, ?_, fun _ => ?_, fun isPlain => ?_⟩
    · rw [part]
      exact fun blank => absurd (letters _ blank) (by decide)
    · rw [part, whole, split]
      simp
    · rw [offset, whole, split]
      simp only [byteLength_append]
      omega
    · exact ⟨_, enclosing, by rw [part, String.toList_ofList]⟩
    · rw [constructs] at isPlain
      cases isPlain

private theorem exists_fits_of_firstSignature? {context : LineContext} {joined : List Char} {below : List (List Char)}
    {limit : Nat} {signature : Signature} (found : firstSignature? context joined below limit = some signature) :
    ∃ start < limit, signature.Fits context joined start := by
  obtain ⟨before, word, arguments, afterOpen, rfl, early, isName, -, -, judged⟩ := exists_judge_of_firstSignature? found
  obtain ⟨opener, parameters, later, judged, -⟩ := judge_eq_some_iff.mp judged
  exact ⟨byteLength before, early, fits_of_judged isName judged⟩

/-! ### Definitions -/

section
variable {context : LineContext} {above below : List (List Char)} {line : List Char} {definition : Definition}
  (found : definitionAt? context above line below = some definition)
include found

private theorem exists_fits_of_definitionAt? :
    ∃ (signature : Signature) (start : Nat),
      (definition.name = signature.name ∧ definition.isConstructor = signature.isConstructor) ∧
      definition.offset = byteLength line - byteLength (withoutAnnotations line) + signature.offset ∧
      start < byteLength (trimEnd (withoutAnnotations line)) ∧
      signature.Fits context (stitch continuationLimit (trimEnd (withoutAnnotations line)) below).1 start := by
  obtain ⟨-, signature, rfl, first⟩ := exists_signature_of_definitionAt? found
  obtain ⟨start, early, fits⟩ := exists_fits_of_firstSignature? first
  exact ⟨signature, start, ⟨rfl, rfl⟩, rfl, early, fits⟩

/-- The name of a definition, or the owner of a named constructor, stands in the line at its position. A
constructor is one of the class around the line. -/
theorem standsAt_of_definitionAt? :
    StandsAt (firstPart definition.name) line definition.offset ∧ firstPart definition.name ≠ [] ∧
      ' ' ∉ firstPart definition.name ∧
      (definition.isConstructor →
        ∃ owner, context.enclosing = some owner ∧ owner.toList = firstPart definition.name) := by
  obtain ⟨signature, start, ⟨name, constructs⟩, column, early, fits⟩ := exists_fits_of_definitionAt? found
  rw [name, constructs, column]
  obtain ⟨lead, whole⟩ := exists_withoutAnnotations line
  obtain ⟨tail, trimmed⟩ := exists_trimEnd (withoutAnnotations line)
  obtain ⟨before, rest, split, offset⟩ := fits.stands
  refine ⟨?_, fits.nonempty, fits.noBlank, fits.owned⟩
  have begins : byteLength before < byteLength (trimEnd (withoutAnnotations line)) := by
    have := fits.notAfter
    omega
  obtain ⟨after, inside⟩ : ∃ after, trimEnd (withoutAnnotations line) = before ++ (firstPart signature.name ++ after) := by
    rcases stitch_cases continuationLimit (trimEnd (withoutAnnotations line)) below with same | ⟨more, joined⟩
    · exact ⟨rest, same.symm.trans split⟩
    · exact exists_within fits.noBlank (joined.symm.trans split) begins
  refine ⟨lead ++ before, after ++ tail, ?_, ?_⟩
  · calc line = lead ++ (before ++ (firstPart signature.name ++ after) ++ tail) := by rw [← inside, ← trimmed, ← whole]
      _ = lead ++ before ++ (firstPart signature.name ++ (after ++ tail)) := by simp only [List.append_assoc]
  · have size : byteLength line = byteLength lead + byteLength (withoutAnnotations line) := by
      rw [← byteLength_append, ← whole]
    rw [byteLength_append, offset, size, Nat.add_sub_cancel]

/-- Outside of every class a definition does not have the name of a class that is known. -/
theorem name_notMem_known_of_definitionAt? (outside : context.enclosing = none) : definition.name ∉ context.known := by
  obtain ⟨signature, start, ⟨name, -⟩, -, -, fits⟩ := exists_fits_of_definitionAt? found
  rw [name]
  apply fits.new
  by_contra constructs
  obtain ⟨owner, around, -⟩ := fits.owned (Bool.of_not_eq_false constructs)
  rw [outside] at around
  cases around

end
end DeadCode.Source
