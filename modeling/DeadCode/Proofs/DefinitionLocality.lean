import DeadCode.Proofs.Signatures

/-!
How far a definition is read. Whether a line defines something and what is decided by the line and those that a
signature may go on over. The lines above say only whether it is an override, and those further below only whether its
body is empty. So an edit elsewhere in a file leaves the definition of a line as it is.
-/
namespace DeadCode.Source
open DeadCode.Text

/-- Joining lines looks at no more of them than it may join. -/
theorem stitch_take (bound : Nat) (text : List Char) (below : List (List Char)) :
    (stitch bound text (below.take bound)).1 = (stitch bound text below).1 := by
  induction bound generalizing text below with
  | zero => rfl
  | succ bound ih =>
    cases below with
    | nil => rfl
    | cons next below =>
      rw [List.take_succ_cons, stitch, stitch]
      split
      · exact ih _ _
      · rfl

section
variable (context : LineContext)

/-! ### What is decided by the signature alone -/

private theorem exists_judge_of_judge {joined : List Char} {below : List (List Char)} {start : Nat}
    {name afterOpen : List Char} {signature : Signature}
    (found : judge context joined below start name afterOpen = some signature) (others : List (List Char)) :
    ∃ twin, judge context joined others start name afterOpen = some twin ∧ twin.defined = signature.defined := by
  obtain ⟨opener, parameters, rest, judged, -⟩ := judge_eq_some_iff.mp found
  -- The same name is judged in the same way, with the emptiness of the body read off from the other lines.
  let twin : Signature :=
    { signature with emptyBody := hasEmptyBody opener (dropBodyModifier (trimStart rest)) others }
  exact ⟨twin, judge_eq_some_iff.mpr ⟨opener, parameters, rest, judged, rfl⟩, rfl⟩

theorem map_defined_judge (joined : List Char) (below others : List (List Char)) (start : Nat)
    (name afterOpen : List Char) :
    (judge context joined below start name afterOpen).map Signature.defined =
      (judge context joined others start name afterOpen).map Signature.defined := by
  apply Option.ext
  intro defined
  simp only [Option.map_eq_some_iff]
  constructor
  · rintro ⟨signature, found, rfl⟩
    exact exists_judge_of_judge context found others
  · rintro ⟨signature, found, rfl⟩
    exact exists_judge_of_judge context found below

theorem map_defined_firstSignature? (joined : List Char) (below others : List (List Char)) (limit : Nat) :
    (firstSignature? context joined below limit).map Signature.defined =
      (firstSignature? context joined others limit).map Signature.defined := by
  unfold firstSignature?
  rw [List.map_findSome?, List.map_findSome?]
  congr 1
  funext found
  dsimp only [Function.comp_apply]
  split
  · rfl
  · apply map_defined_judge

/-! ### What is decided by the lines around it -/

/-- What a definition is called and where, and whether it is a constructor or static. -/
def Definition.core (definition : Definition) : DefinedName × Bool :=
  (⟨definition.name, definition.offset, definition.isConstructor⟩, definition.isStatic)

/-- Moves what a signature defines to its place in the line it begins in. -/
private def DefinedName.core (line : List Char) (defined : DefinedName) : DefinedName × Bool :=
  ({ defined with offset := byteLength line - byteLength (withoutAnnotations line) + defined.offset },
    startsWith (trimEnd (withoutAnnotations line)) "static ")

private theorem core_onLine (above : List (List Char)) (line : List Char) :
    Definition.core ∘ (·.onLine above line) = DefinedName.core line ∘ Signature.defined := rfl

theorem map_core_definitionAt? {below others : List (List Char)}
    (same : below.take continuationLimit = others.take continuationLimit) (above higher : List (List Char))
    (line : List Char) :
    (definitionAt? context above line below).map Definition.core =
      (definitionAt? context higher line others).map Definition.core := by
  have joined : (signatureText line below).1 = (signatureText line others).1 := by
    rw [signatureText, signatureText, ← stitch_take _ _ below, same, stitch_take]
  rw [definitionAt?_eq, definitionAt?_eq, joined]
  split
  case isFalse => rfl
  case isTrue =>
    rw [Option.map_map, Option.map_map, core_onLine, core_onLine, ← Option.map_map, ← Option.map_map]
    congr 1
    apply map_defined_firstSignature?

theorem isOverride_of_definitionAt? {above below : List (List Char)} {line : List Char} {definition : Definition}
    (found : definitionAt? context above line below = some definition) :
    definition.isOverride = (contains line "@override".toList || precededByOverride above) := by
  obtain ⟨-, signature, rfl, -⟩ := exists_signature_of_definitionAt? found
  rfl

theorem map_emptyBody_definitionAt? (above higher : List (List Char)) (line : List Char) (below : List (List Char)) :
    (definitionAt? context above line below).map (·.emptyBody) =
      (definitionAt? context higher line below).map (·.emptyBody) := by
  rw [definitionAt?_eq, definitionAt?_eq]
  split
  case isFalse => rfl
  case isTrue =>
    rw [Option.map_map, Option.map_map]
    rfl

end

/-- The lines up to one that is there end with it. -/
private theorem take_succ_of_drop {lines below : List (List Char)} {line : List Char} {index : Nat}
    (here : lines.drop index = line :: below) : lines.take (index + 1) = lines.take index ++ [line] := by
  have there : lines[index]? = some line := by
    rw [← List.head?_drop, here]
    rfl
  rw [List.take_add_one, there]
  rfl

/-- The definition of a line is local. A signature and the lines it may go on over settle whether there is one, what it
is called and where, and whether it is a constructor or static. The lines up to its own settle whether it is an
override, and those from there on whether its body is empty. -/
theorem definition?_local (context : LineContext) (lines others : List (List Char)) (index place : Nat) :
    ((lines.drop index).take (continuationLimit + 1) = (others.drop place).take (continuationLimit + 1) →
      (definition? context lines index).map Definition.core = (definition? context others place).map Definition.core) ∧
    (lines.take (index + 1) = others.take (place + 1) →
      ∀ definition ∈ definition? context lines index, ∀ twin ∈ definition? context others place,
        definition.isOverride = twin.isOverride) ∧
    (lines.drop index = others.drop place →
      (definition? context lines index).map (·.emptyBody) = (definition? context others place).map (·.emptyBody)) := by
  refine ⟨?_, ?_, ?_⟩
  · intro same
    unfold definition?
    cases here : lines.drop index with
    | nil =>
      cases there : others.drop place with
      | nil => rfl
      | cons line below => rw [here, there] at same; cases same
    | cons line below =>
      cases there : others.drop place with
      | nil => rw [here, there] at same; cases same
      | cons other rest =>
        rw [here, there, List.take_succ_cons, List.take_succ_cons] at same
        obtain ⟨rfl, window⟩ := List.cons.inj same
        apply map_core_definitionAt? context window
  · intro same definition found twin foundTwin
    obtain ⟨line, below, here, found⟩ := exists_definitionAt?_of_definition? found
    obtain ⟨other, rest, there, foundTwin⟩ := exists_definitionAt?_of_definition? foundTwin
    rw [take_succ_of_drop here, take_succ_of_drop there] at same
    obtain ⟨above, line⟩ := List.append_inj' same rfl
    cases line
    rw [isOverride_of_definitionAt? context found, isOverride_of_definitionAt? context foundTwin, above]
  · intro same
    unfold definition?
    rw [same]
    split
    · rfl
    · apply map_emptyBody_definitionAt?

/-- A signature over eight lines is read to its end, and a ninth line or one more above makes no difference. -/
theorem definition?_local_eight_lines :
    let signature := ["int f(", "a,", "b,", "c,", "d,", "e,", "g", ") => 1;"].map String.toList
    let context : LineContext := ⟨none, [], 0⟩
    (definition? context signature 0).isSome ∧
      (definition? context signature 0).map Definition.core =
        (definition? context ("@override".toList :: (signature ++ ["\x7d".toList])) 1).map Definition.core :=
  ⟨by decide +kernel, (definition?_local _ _ _ 0 1).1 rfl⟩

end DeadCode.Source
