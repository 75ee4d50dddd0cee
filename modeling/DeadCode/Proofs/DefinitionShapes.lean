import DeadCode.Proofs.Definitions

/-!
The shape of a definition. A line defines something only if the text that its signature takes splits into a front, a
name with its class where it is a named constructor, type arguments, parameters in parentheses that match, and what
opens a body. Calls, closures and argument lists do not have that shape.
-/
namespace DeadCode.Source
open DeadCode.Text DeadCode.Text.Pattern

/-! ### Parameters -/

/-- A text that closes the parentheses it opens and as many more as are open before it, and none beyond those. -/
structure ClosesAll (depth : Nat) (text : List Char) : Prop where
  closed : depth + text.count '(' = text.count ')'
  nested : ∀ lead, lead <+: text → lead.count ')' ≤ depth + lead.count '('

private theorem closesAll_nil : ClosesAll 0 [] where
  closed := rfl
  nested lead isPrefix := by
    rw [List.prefix_nil.mp isPrefix]
    exact Nat.le_refl 0

private theorem ClosesAll.cons {c : Char} {depth after : Nat} {text : List Char}
    (moves : depth + [c].count '(' = after + [c].count ')') (closes : ClosesAll after text) :
    ClosesAll depth (c :: text) where
  closed := by
    rw [← List.singleton_append, List.count_append, List.count_append, ← closes.closed]
    omega
  nested lead isPrefix := by
    cases lead with
    | nil => exact Nat.zero_le _
    | cons d lead =>
      obtain ⟨rfl, inner⟩ := List.cons_prefix_cons.mp isPrefix
      have nested := closes.nested lead inner
      rw [← List.singleton_append, List.count_append, List.count_append]
      omega

/-- A character that is passed over on the way to the parenthesis that closes. -/
private theorem closesAll_of_map {c : Char} {depth after : Nat} {text inner rest : List Char}
    (moves : depth + [c].count '(' = after + [c].count ')')
    (ih : ∀ {inner : List Char}, splitAtClose after text = some (inner, rest) →
      text = inner ++ ')' :: rest ∧ ClosesAll after inner)
    (found : (splitAtClose after text).map (fun parts => (c :: parts.1, parts.2)) = some (inner, rest)) :
    c :: text = inner ++ ')' :: rest ∧ ClosesAll depth inner := by
  obtain ⟨⟨between, later⟩, split, same⟩ := Option.map_eq_some_iff.mp found
  cases same
  obtain ⟨rfl, closes⟩ := ih split
  exact ⟨rfl, closes.cons moves⟩

theorem closesAll_of_splitAtClose {depth : Nat} {text inner rest : List Char}
    (found : splitAtClose depth text = some (inner, rest)) : text = inner ++ ')' :: rest ∧ ClosesAll depth inner := by
  fun_induction splitAtClose depth text generalizing inner with
  | case1 => cases found
  | case2 text =>
    cases found
    exact ⟨rfl, closesAll_nil⟩
  | case3 depth text ih => exact closesAll_of_map rfl ih found
  | case4 depth text ih => exact closesAll_of_map rfl ih found
  | case5 depth c text notLast notInner notOpen ih =>
    have notClose : c ≠ ')' := by
      cases depth with
      | zero => exact notLast rfl
      | succ depth => exact notInner depth rfl
    have none {d : Char} (other : c ≠ d) : [c].count d = 0 :=
      List.count_eq_zero_of_not_mem fun member => other (List.mem_singleton.mp member).symm
    exact closesAll_of_map (by rw [none notOpen, none notClose]) ih found

inductive IsBodyLead : List Char → Prop where
  | intro {gap margin : List Char} {word : String} (blankGap : ∀ c ∈ gap, isBlank c)
      (modifier : word ∈ ["", "async", "async*", "sync*"]) (blankMargin : ∀ c ∈ margin, isBlank c) :
      IsBodyLead (gap ++ (word.toList ++ margin))

theorem reads_closureBody {last : Option Char} {lead rest : List Char} (isLead : IsBodyLead lead) :
    closureBody.Reads last (')' :: (lead ++ ['{'])) rest := by
  obtain @⟨gap, margin, word, blankGap, modifier, blankMargin⟩ := isLead
  refine ⟨')' :: (gap ++ (word.toList ++ margin)), ['{'], by simp, ?_, reads_lit.mpr rfl⟩
  refine ⟨')' :: (gap ++ word.toList), margin, by simp, ?_, reads_blanks.mpr blankMargin⟩
  refine ⟨')' :: gap, word.toList, by simp, ⟨[')'], gap, rfl, reads_lit.mpr rfl, reads_blanks.mpr blankGap⟩, ?_⟩
  simp only [List.mem_cons, List.not_mem_nil, or_false] at modifier
  rcases modifier with rfl | rfl | rfl | rfl
  · exact .inr rfl
  · exact .inl (.inl ⟨"async".toList, [], rfl, reads_lit.mpr rfl, .inr rfl⟩)
  · exact .inl (.inl ⟨"async".toList, "*".toList, rfl, reads_lit.mpr rfl, .inl (reads_lit.mpr rfl)⟩)
  · exact .inl (.inr (reads_lit.mpr rfl))

structure IsParameterText (text : List Char) : Prop where
  matched : ClosesAll 0 text
  noArrow : ¬"=>".toList <:+: text
  noBody : ∀ lead, IsBodyLead lead → ¬(')' :: (lead ++ ['{'])) <:+: text

theorem isParameterText_of_splitAtClose {afterOpen text rest : List Char}
    (closed : splitAtClose 0 afterOpen = some (text, rest)) (noArrow : contains text "=>".toList = false)
    (noClosure : closureBody.occurs text = false) : IsParameterText text where
  matched := (closesAll_of_splitAtClose closed).2
  noArrow := by
    rw [← contains_iff_infix, noArrow]
    exact Bool.false_ne_true
  noBody := by
    rintro lead isLead ⟨left, right, split⟩
    have occurs : closureBody.occurs text :=
      occurs_iff.mpr ⟨left, _, right, by rw [← split, List.append_assoc], reads_closureBody isLead⟩
    rw [noClosure] at occurs
    cases occurs

/-! ### What follows -/

private theorem eq_append_of_stripLead? {text rest : List Char} {lead : String}
    (found : stripLead? text lead = some rest) : text = lead.toList ++ rest := by
  obtain ⟨starts, stripped⟩ := Option.ite_none_right_eq_some.mp found
  obtain ⟨tail, rfl⟩ := List.isPrefixOf_iff_prefix.mp starts
  rw [List.drop_left] at stripped
  rw [Option.some.inj stripped]

theorem exists_bodyLead (rest : List Char) :
    ∃ lead, IsBodyLead lead ∧ rest = lead ++ dropBodyModifier (trimStart rest) := by
  have blank (text : List Char) : ∀ c ∈ indent text, isBlank c := fun _ => List.mem_takeWhile_imp
  have whole (text : List Char) : text = indent text ++ trimStart text := List.takeWhile_append_dropWhile.symm
  unfold dropBodyModifier
  split
  case h_1 after found =>
    obtain ⟨word, listed, stripped⟩ := List.exists_of_findSome?_eq_some found
    have modifier : word ∈ ["", "async", "async*", "sync*"] := by
      apply List.mem_cons_of_mem
      simp only [List.mem_cons, List.not_mem_nil, or_false] at listed ⊢
      exact or_left_comm.mp listed
    refine ⟨indent rest ++ (word.toList ++ indent after), ⟨blank rest, modifier, blank after⟩, ?_⟩
    rw [List.append_assoc, List.append_assoc, ← whole, ← eq_append_of_stripLead? stripped, ← whole]
  case h_2 =>
    refine ⟨indent rest ++ ("".toList ++ []), ⟨blank rest, List.mem_cons_self, ?_⟩, ?_⟩
    · exact fun c absent => absurd absent List.not_mem_nil
    · rw [List.append_nil]
      simp [← whole]

/-- The text after parameters that opens a body. Initializers open only that of a constructor. -/
inductive OpensBody (isConstructor : Bool) : List Char → Prop where
  | intro {lead rest : List Char} {mark : String} (isLead : IsBodyLead lead)
      (opens : mark ∈ ["\x7b", "=>", ";"] ∨ mark = ":" ∧ isConstructor) :
      OpensBody isConstructor (lead ++ (mark.toList ++ rest))

theorem exists_mark_of_opener? {isConstructor : Bool} {text : List Char} {opener : Opener}
    (found : opener? isConstructor text = some opener) :
    ∃ mark rest, text = String.toList mark ++ rest ∧
      (mark ∈ ["\x7b", "=>", ";"] ∨ mark = ":" ∧ isConstructor) := by
  have opens {mark : String} (allowed : mark ∈ ["\x7b", "=>", ";"] ∨ mark = ":" ∧ isConstructor)
      (leads : startsWith text mark) : ∃ mark rest, text = String.toList mark ++ rest ∧
        (mark ∈ ["\x7b", "=>", ";"] ∨ mark = ":" ∧ isConstructor) := by
    obtain ⟨rest, whole⟩ := List.isPrefixOf_iff_prefix.mp leads
    exact ⟨mark, rest, whole.symm, allowed⟩
  unfold opener? at found
  split at found
  case isTrue leads => exact opens (.inl (by simp)) leads
  split at found
  case isTrue leads => exact opens (.inl (by simp)) leads
  split at found
  case isTrue leads => exact opens (.inl (by simp)) leads
  split at found
  case isTrue leads =>
    obtain ⟨leads, constructs⟩ := Bool.and_eq_true_iff.mp leads
    exact opens (.inr ⟨rfl, constructs⟩) leads
  case isFalse => cases found

theorem opensBody_of_opener? {isConstructor : Bool} {rest : List Char} {opener : Opener}
    (opens : opener? isConstructor (dropBodyModifier (trimStart rest)) = some opener) :
    OpensBody isConstructor rest := by
  obtain ⟨lead, isLead, split⟩ := exists_bodyLead rest
  obtain ⟨mark, later, marked, allowed⟩ := exists_mark_of_opener? opens
  rw [split, marked]
  exact ⟨isLead, allowed⟩

/-! ### What stands before -/

structure MayPrecede (front : List Char) : Prop where
  last : ∀ c ∈ (trimEnd front).getLast?, (isNameChar c ∨ c ∈ ['>', '?', ']']) ∧ c ∉ ['.', '=', '(', ',']
  noArrow : ¬"=>".toList <:+ trimEnd front

private theorem notMem_of_ends {c : Char} (ends : isNameChar c ∨ c ∈ ['>', '?', ']']) : c ∉ ['.', '=', '(', ','] := by
  have excluded : ['.', '=', '(', ','].all (fun d => !(isNameChar d || ['>', '?', ']'].contains d)) = true := by decide
  intro member
  have neither := List.all_eq_true.mp excluded c member
  rw [Bool.not_eq_true', Bool.or_eq_false_iff] at neither
  rcases ends with letter | listed
  · exact Bool.false_ne_true (neither.1.symm.trans letter)
  · exact Bool.false_ne_true (neither.2.symm.trans (List.contains_iff_mem.mpr listed))

theorem mayPrecede_of_fitsBefore {isConstructor : Bool} {name front : List Char} {opener : Opener}
    (fits : fitsBefore isConstructor name opener (trimEnd front)) : MayPrecede front := by
  have ends (arrow : "=>".toList <:+ trimEnd front) : (trimEnd front).getLast? = some '>' := by
    obtain ⟨lead, whole⟩ := arrow
    rw [← whole, List.getLast?_append]
    rfl
  unfold fitsBefore at fits
  split at fits
  case h_1 empty =>
    refine ⟨?_, fun arrow => ?_⟩
    · rw [empty]
      exact fun c absent => by cases absent
    · rw [ends arrow] at empty
      cases empty
  case h_2 last here =>
    have settled (kind : isNameChar last ∨ last ∈ ['>', '?', ']']) (noArrow : ¬"=>".toList <:+ trimEnd front) :
        MayPrecede front := by
      refine ⟨fun c same => ?_, noArrow⟩
      obtain rfl := Option.some.inj (here.symm.trans same)
      exact ⟨kind, notMem_of_ends kind⟩
    -- Only the branch for `>` has to look at the character before the last one.
    have other (differs : last ≠ '>') : ¬"=>".toList <:+ trimEnd front := fun arrow =>
      differs (Option.some.inj (here.symm.trans (ends arrow)))
    split at fits
    case isTrue letter =>
      refine settled (.inl letter) (other ?_)
      rintro rfl
      exact absurd letter (by decide)
    split at fits
    case isTrue greater =>
      refine settled (.inr ?_) fun arrow => ?_
      · rw [eq_of_beq greater]
        exact List.mem_cons_self
      · rw [endsWith, List.isSuffixOf_iff_suffix.mpr arrow] at fits
        cases fits
    case isFalse notGreater =>
      refine settled (.inr ?_) (other fun same => notGreater (beq_iff_eq.mpr same))
      apply List.mem_cons_of_mem
      simpa using fits

private theorem count_le_of_trimEnd {text : List Char} (balanced : parenBalance (trimEnd text) ≤ 0) :
    text.count '(' ≤ text.count ')' := by
  obtain ⟨tail, whole, blank⟩ := exists_blank_trimEnd text
  have none : tail.count '(' = 0 :=
    List.count_eq_zero_of_not_mem fun member => absurd (blank _ member) (by decide)
  unfold parenBalance at balanced
  rw [whole, List.count_append, List.count_append, none]
  omega

/-! ### Signatures -/

structure SignatureParts where
  front : List Char
  /-- The class of a named constructor with its dot. -/
  qualifier : List Char
  name : List Char
  arguments : List Char
  parameters : List Char
  after : List Char
deriving DecidableEq, Repr

def SignatureParts.text (parts : SignatureParts) : List Char :=
  parts.front ++ (parts.qualifier ++ (parts.name ++ (parts.arguments ++
    '(' :: (parts.parameters ++ ')' :: parts.after))))

structure SignatureParts.Define (parts : SignatureParts) (context : LineContext) (name : String)
    (isConstructor : Bool) : Prop where
  isName : IsName parts.name
  unreserved : isReserved (String.ofList parts.name) = false
  typed : IsTypeArguments parts.arguments
  parameters : IsParameterText parts.parameters
  opens : OpensBody isConstructor parts.after
  balanced : (parts.front ++ parts.qualifier).count '(' ≤ (parts.front ++ parts.qualifier).count ')'
  precedes : MayPrecede parts.front
  named : (parts.qualifier = [] ∧ name = String.ofList parts.name) ∨
    ∃ owner gap, context.enclosing = some owner ∧ (∀ c ∈ gap, isBlank c) ∧
      parts.qualifier = owner.toList ++ '.' :: gap ∧ name = owner ++ "." ++ String.ofList parts.name
  constructs : isConstructor ↔
    ∃ owner, context.enclosing = some owner ∧ (name = owner ∨ ∃ simple, name = owner ++ "." ++ simple)
  new : isConstructor = false → name ∉ context.known

/-- A name without a class in front is a constructor's only if it is the name of the class around. -/
private theorem constructs_iff_of_plain {word : List Char} (isName : IsName word) (enclosing : Option String) :
    (some (String.ofList word) == enclosing) = true ↔
      ∃ owner, enclosing = some owner ∧
        (String.ofList word = owner ∨ ∃ simple, String.ofList word = owner ++ "." ++ simple) := by
  rw [beq_iff_eq]
  constructor
  · intro same
    exact ⟨_, same.symm, .inl rfl⟩
  · rintro ⟨owner, around, rfl | ⟨simple, dotted⟩⟩
    · exact around.symm
    · have dot : '.' ∈ word := by
        have letters := congrArg String.toList dotted
        rw [String.toList_ofList] at letters
        simp [letters]
      exact absurd dot isName.dot_notMem

section
variable {context : LineContext}

theorem exists_parts_of_judged {before word arguments afterOpen parameters rest : List Char} {defined : DefinedName}
    {opener : Opener} (isName : IsName word) (unreserved : isReserved (String.ofList word) = false)
    (typed : IsTypeArguments arguments)
    (judged : Judged context (before ++ (word ++ (arguments ++ '(' :: afterOpen))) (byteLength before) word afterOpen
      defined opener parameters rest) :
    ∃ parts : SignatureParts, parts.text = before ++ (word ++ (arguments ++ '(' :: afterOpen)) ∧
      parts.front ++ parts.qualifier = before ∧ defined.offset = byteLength parts.front ∧
      parts.Define context defined.name defined.isConstructor := by
  obtain ⟨balanced, closed, noArrow, noClosure, named, new, opens, fits⟩ := judged
  have isText := isParameterText_of_splitAtClose closed noArrow noClosure
  have opened := opensBody_of_opener? opens
  obtain ⟨rfl, -⟩ := closesAll_of_splitAtClose closed
  rw [takeBytes_append] at balanced named
  have balanced := count_le_of_trimEnd balanced
  cases named with
  | plain unowned same =>
    -- All that stands before the name is the front.
    subst same
    rw [takeBytes_append] at fits
    refine ⟨⟨before, [], word, arguments, parameters, rest⟩, rfl, List.append_nil before, rfl, ?_⟩
    refine ⟨isName, unreserved, typed, isText, opened, ?_, mayPrecede_of_fitsBefore fits, .inl ⟨rfl, rfl⟩, ?_, new⟩
    · rwa [List.append_nil]
    · exact constructs_iff_of_plain isName context.enclosing
  | @owned owner owned same =>
    -- The class and its dot end what stands before the name, up to blanks, and the front is what comes before them.
    subst same
    obtain ⟨⟨lead, dotted, start⟩, -, -, enclosing⟩ := exists_owner owned
    obtain ⟨gap, whole, blank⟩ := exists_blank_trimEnd before
    have split : before = lead ++ (owner ++ '.' :: gap) := by
      rw [whole, dotted]
      simp
    rw [start, split, List.append_assoc, takeBytes_append] at fits
    refine ⟨⟨lead, owner ++ '.' :: gap, word, arguments, parameters, rest⟩, ?_, split.symm, start, ?_⟩
    · rw [split, List.append_assoc]
      rfl
    refine ⟨isName, unreserved, typed, isText, opened, split ▸ balanced, mayPrecede_of_fitsBefore fits, ?_, ?_, ?_⟩
    · refine .inr ⟨String.ofList owner, gap, enclosing, blank, ?_, rfl⟩
      rw [String.toList_ofList]
    · exact ⟨fun _ => ⟨_, enclosing, .inr ⟨_, rfl⟩⟩, fun _ => rfl⟩
    · exact fun isPlain => absurd isPlain.symm Bool.false_ne_true

end

end DeadCode.Source
