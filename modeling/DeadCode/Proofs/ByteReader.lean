import DeadCode.Proofs.QuietText
import Mathlib.Logic.Function.Iterate

/-!
A reader that blanks a line in place, byte by byte: what opens or closes a construct is one to three bytes of ASCII,
the byte after a backslash is passed over whatever it is, and the mark of a raw literal is blanked when the quote after
it is seen. Between two characters the reader sees what stands in the text, and the bytes of a character that is not
ASCII it passes over one by one.
-/
namespace DeadCode.Text

/-! ### Bytes -/

def utf8 (text : List Char) : List UInt8 := text.flatMap String.utf8EncodeChar

@[simp] theorem utf8_nil : utf8 [] = [] := rfl

theorem utf8_cons (c : Char) (text : List Char) : utf8 (c :: text) = String.utf8EncodeChar c ++ utf8 text := rfl

theorem utf8_append (a b : List Char) : utf8 (a ++ b) = utf8 a ++ utf8 b := List.flatMap_append

theorem length_utf8 (text : List Char) : (utf8 text).length = byteLength text := by
  induction text with
  | nil => rfl
  | cons c text ih => rw [utf8_cons, List.length_append, String.length_utf8EncodeChar, ih, byteLength_cons]

def IsAscii (c : Char) : Prop := c.toNat ≤ 127

instance : DecidablePred IsAscii := fun c => inferInstanceAs (Decidable (c.toNat ≤ 127))

theorem isAscii_of_all {text : List Char} (all : text.all (IsAscii ·)) : ∀ c ∈ text, IsAscii c :=
  fun c member => of_decide_eq_true (List.all_eq_true.mp all c member)

theorem isAscii_of_isNameChar {c : Char} (named : isNameChar c) : IsAscii c := by
  have below {bound : Char} (high : c.val ≤ bound.val) (small : bound.val ≤ 127) : IsAscii c :=
    UInt32.le_iff_toNat_le.mp (UInt32.le_trans high small)
  rcases Bool.or_eq_true_iff.mp named with named | dollar
  · rcases Bool.or_eq_true_iff.mp named with alphanumeric | underscore
    · rcases Bool.or_eq_true_iff.mp alphanumeric with letter | digit
      · rcases Bool.or_eq_true_iff.mp letter with upper | lower
        · exact below (of_decide_eq_true upper).2 (by decide)
        · exact below (of_decide_eq_true (Bool.and_eq_true_iff.mp lower).2) (by decide)
      · exact below (of_decide_eq_true (Bool.and_eq_true_iff.mp digit).2) (by decide)
    · rw [beq_iff_eq.mp underscore]
      decide
  · rw [beq_iff_eq.mp dollar]
    decide

theorem utf8Size_of_isAscii {c : Char} (ascii : IsAscii c) : c.utf8Size = 1 :=
  Char.utf8Size_eq_one_iff.mpr (UInt32.le_iff_toNat_le.mpr ascii)

theorem encode_of_isAscii {c : Char} (ascii : IsAscii c) : String.utf8EncodeChar c = [c.toUInt8] :=
  String.utf8EncodeChar_eq_singleton (utf8Size_of_isAscii ascii)

theorem toNat_toUInt8 {c : Char} (ascii : IsAscii c) : c.toUInt8.toNat = c.toNat := by
  show c.val.toUInt8.toNat = c.val.toNat
  have small : c.val.toNat ≤ 127 := ascii
  rw [UInt32.toNat_toUInt8]
  omega

theorem ofUInt8_toUInt8 {c : Char} (ascii : IsAscii c) : Char.ofUInt8 c.toUInt8 = c := by
  apply Char.toNat_inj.mp
  rw [← toNat_toUInt8 ascii]
  exact UInt8.toNat_toUInt32 _

/-- The bytes of any other character are none of ASCII. -/
theorem high_of_mem_encode {c : Char} (other : ¬ IsAscii c) {byte : UInt8} (member : byte ∈ String.utf8EncodeChar c) :
    128 ≤ byte.toNat := by
  have large : ¬ c.val.toNat ≤ 127 := other
  simp only [String.utf8EncodeChar, if_neg large] at member
  split at member
  · simp only [List.mem_cons, List.not_mem_nil, or_false] at member
    rcases member with rfl | rfl <;> rw [UInt8.toNat_ofNat'] <;> omega
  · split at member
    · simp only [List.mem_cons, List.not_mem_nil, or_false] at member
      rcases member with rfl | rfl | rfl <;> rw [UInt8.toNat_ofNat'] <;> omega
    · simp only [List.mem_cons, List.not_mem_nil, or_false] at member
      rcases member with rfl | rfl | rfl | rfl <;> rw [UInt8.toNat_ofNat'] <;> omega

/-- Where the first byte of a text is that of an ASCII character, the text begins with the character. -/
theorem encode_head_ne {c d : Char} (ascii : IsAscii c) (different : c ≠ d) {byte : UInt8} {others : List UInt8}
    (bytes : String.utf8EncodeChar d = byte :: others) : c.toUInt8 ≠ byte := by
  rintro rfl
  by_cases asciiToo : IsAscii d
  · rw [encode_of_isAscii asciiToo] at bytes
    have same := congrArg UInt8.toNat (List.cons.inj bytes).1
    rw [toNat_toUInt8 asciiToo, toNat_toUInt8 ascii] at same
    exact different (Char.toNat_inj.mp same.symm)
  · have high := high_of_mem_encode asciiToo (bytes ▸ List.mem_cons_self)
    rw [toNat_toUInt8 ascii] at high
    have small : c.toNat ≤ 127 := ascii
    omega

/-- An ASCII text is seen in the bytes where it is seen in the text. -/
theorem isPrefixOf_utf8 {word : List Char} (ascii : ∀ c ∈ word, IsAscii c) (text : List Char) :
    (utf8 word).isPrefixOf (utf8 text) = word.isPrefixOf text := by
  induction word generalizing text with
  | nil => simp
  | cons c word ih =>
    obtain ⟨first, others⟩ := List.forall_mem_cons.mp ascii
    rw [utf8_cons, encode_of_isAscii first, List.singleton_append]
    cases text with
    | nil => rfl
    | cons d text =>
      rw [utf8_cons, List.isPrefixOf_cons_cons]
      by_cases same : c = d
      · subst same
        rw [encode_of_isAscii first, List.singleton_append, List.isPrefixOf_cons_cons, ih others, beq_self_eq_true,
          beq_self_eq_true]
      · obtain ⟨byte, more, bytes⟩ := List.exists_cons_of_ne_nil (String.utf8EncodeChar_ne_nil (c := d))
        have apart := encode_head_ne first same bytes
        rw [bytes, List.cons_append, List.isPrefixOf_cons_cons, beq_eq_false_iff_ne.mpr apart,
          beq_eq_false_iff_ne.mpr same]
        rfl

end DeadCode.Text

namespace DeadCode.Source
open DeadCode.Text

/-! ### The reader of bytes -/

structure ByteReader where
  nest : Nest
  /-- The bytes that were read, the last one first, with what they belong to. -/
  read : List (UInt8 × Mark)
  rest : List UInt8

namespace ByteReader

def sees (reader : ByteReader) (text : List Char) : Bool := (utf8 text).isPrefixOf reader.rest

def pass (reader : ByteReader) (width : Nat) (mark : Mark) (nest : Nest) : ByteReader :=
  ⟨nest, ((reader.rest.take width).map (·, mark)).reverse ++ reader.read, reader.rest.drop width⟩

def isNameByte (byte : UInt8) : Bool := isNameChar (Char.ofUInt8 byte)

/-- Whether the byte before is an `r` that does not end a longer name. -/
def afterRaw (reader : ByteReader) : Bool :=
  match reader.read with
  | [] => false
  | (byte, _) :: before => byte == 'r'.toUInt8 && !before.head?.any (isNameByte ·.1)

def blankLast (reader : ByteReader) : ByteReader :=
  match reader.read with
  | [] => reader
  | (byte, _) :: before => { reader with read := (byte, .literal) :: before }

def openLiteral (reader : ByteReader) (quote : Quote) : ByteReader :=
  let triple := reader.sees (quote.run true)
  (if reader.afterRaw then reader.blankLast else reader).pass (quote.run triple).length .literal
    (.string quote.char triple reader.afterRaw :: reader.nest)

def readCode (reader : ByteReader) : ByteReader :=
  if reader.sees ['/', '/'] then reader.pass reader.rest.length .comment reader.nest
  else if reader.sees ['/', '*'] then reader.pass 2 .comment (.comment 1 :: reader.nest)
  else if reader.sees ['\''] then reader.openLiteral .single
  else if reader.sees ['"'] then reader.openLiteral .double
  else
    match reader.nest.mode with
    | .interpolation depth =>
      if reader.sees ['{'] then reader.pass 1 .code (reader.nest.withMode (.interpolation (depth + 1)))
      else if reader.sees ['}'] then
        if depth = 0 then reader.pass 1 .literal reader.nest.tail
        else reader.pass 1 .code (reader.nest.withMode (.interpolation (depth - 1)))
      else reader.pass 1 .code reader.nest
    | _ => reader.pass 1 .code reader.nest

def readComment (reader : ByteReader) (depth : Nat) : ByteReader :=
  if reader.sees ['/', '*'] then reader.pass 2 .comment (reader.nest.withMode (.comment (depth + 1)))
  else if reader.sees ['*', '/'] then
    reader.pass 2 .comment (if depth ≤ 1 then reader.nest.tail else reader.nest.withMode (.comment (depth - 1)))
  else reader.pass 1 .comment reader.nest

def readString (reader : ByteReader) (quote : Char) (triple raw : Bool) : ByteReader :=
  if !raw && reader.sees ['\\'] then reader.pass 2 .literal reader.nest
  else if !raw && reader.sees ['$', '{'] then reader.pass 2 .literal (.interpolation 0 :: reader.nest)
  else if reader.sees (if triple then [quote, quote, quote] else [quote]) then
    reader.pass (if triple then 3 else 1) .literal reader.nest.tail
  else reader.pass 1 .literal reader.nest

def readMode (reader : ByteReader) : ByteReader :=
  match reader.nest.mode with
  | .code => reader.readCode
  | .interpolation _ => reader.readCode
  | .comment depth => reader.readComment depth
  | .string quote triple raw => reader.readString quote triple raw

/-- One round of the loop over the bytes of a line. -/
def next (reader : ByteReader) : ByteReader := if reader.rest.isEmpty then reader else reader.readMode

/-! ### Between characters -/

def bytesOf (spelled : List (Char × Mark)) : List (UInt8 × Mark) :=
  spelled.flatMap fun c => (String.utf8EncodeChar c.1).map (·, c.2)

theorem bytesOf_append (a b : List (Char × Mark)) : bytesOf (a ++ b) = bytesOf a ++ bytesOf b := List.flatMap_append

theorem bytesOf_marked (mark : Mark) (text : List Char) : bytesOf (marked mark text) = (utf8 text).map (·, mark) := by
  induction text with
  | nil => rfl
  | cons c text ih =>
    rw [marked_cons, utf8_cons, List.map_append, ← ih]
    rfl

def between (nest : Nest) (before : List (Char × Mark)) (text : List Char) : ByteReader :=
  ⟨nest, (bytesOf before).reverse, utf8 text⟩

section
variable {nest after : Nest} {before : List (Char × Mark)} {text word : List Char} {mark : Mark}

theorem sees_between (ascii : ∀ c ∈ word, IsAscii c) : (between nest before text).sees word = word.isPrefixOf text :=
  isPrefixOf_utf8 ascii text

theorem sees_one (nest : Nest) (before : List (Char × Mark)) (c : Char) (text : List Char) {d : Char}
    (ascii : IsAscii d) : (between nest before (c :: text)).sees [d] ↔ c = d := by
  rw [sees_between (List.forall_mem_singleton.mpr ascii), List.isPrefixOf_cons_cons, List.isPrefixOf_nil_left,
    Bool.and_true, beq_iff_eq, eq_comm]

theorem sees_two (nest : Nest) (before : List (Char × Mark)) (c : Char) (text : List Char) {d e : Char}
    (ascii : IsAscii d) (asciiToo : IsAscii e) :
    (between nest before (c :: text)).sees [d, e] ↔ c = d ∧ text.head? = some e := by
  rw [sees_between (List.forall_mem_cons.mpr ⟨ascii, List.forall_mem_singleton.mpr asciiToo⟩),
    List.isPrefixOf_cons_cons, Bool.and_eq_true, beq_iff_eq, eq_comm]
  refine and_congr_right fun _ => ?_
  cases text with
  | nil => simp
  | cons f text =>
    rw [List.isPrefixOf_cons_cons, List.isPrefixOf_nil_left, Bool.and_true, beq_iff_eq, List.head?_cons,
      Option.some.injEq, eq_comm]

theorem pass_between (word follow : List Char) (ascii : ∀ c ∈ word, IsAscii c) :
    (between nest before (word ++ follow)).pass word.length mark after =
      between after (before ++ marked mark word) follow := by
  have width : word.length = (utf8 word).length := by
    rw [length_utf8]
    induction word with
    | nil => rfl
    | cons c word ih =>
      obtain ⟨first, others⟩ := List.forall_mem_cons.mp ascii
      rw [List.length_cons, ih others, byteLength_cons, utf8Size_of_isAscii first, Nat.add_comm]
  simp only [pass, between, utf8_append, bytesOf_append, bytesOf_marked, List.reverse_append, width, List.take_left,
    List.drop_left]

theorem pass_all {width : Nat} (enough : (utf8 text).length ≤ width) :
    (between nest before text).pass width mark after = between after (before ++ marked mark text) [] := by
  simp only [pass, between, bytesOf_append, bytesOf_marked, List.reverse_append, List.take_of_length_le enough,
    List.drop_of_length_le enough, utf8_nil]

end

theorem isAscii_of_isQuote {quote : Char} (isQuote : isQuote quote) : IsAscii quote := by
  rcases Bool.or_eq_true_iff.mp isQuote with single | double
  · rw [beq_iff_eq.mp single]
    decide
  · rw [beq_iff_eq.mp double]
    decide

/-- Whether an `r` was read last that does not end a longer name. -/
def endsRaw (before : List (Char × Mark)) : Bool :=
  lastOf none before == some 'r' && !(lastOf none before.dropLast).any isNameChar

/-- The last byte before the reader, which is the last one of a character. -/
theorem exists_last_byte (before : List (Char × Mark)) (c : Char) (mark : Mark) :
    ∃ byte others, (bytesOf (before ++ [(c, mark)])).reverse = (byte, mark) :: others ∧
      (IsAscii c ∧ byte = c.toUInt8 ∧ others = (bytesOf before).reverse ∨ ¬ IsAscii c ∧ 128 ≤ byte.toNat) := by
  have last : bytesOf [(c, mark)] = (String.utf8EncodeChar c).map (·, mark) := List.append_nil _
  rw [bytesOf_append, last, List.reverse_append]
  by_cases ascii : IsAscii c
  · rw [encode_of_isAscii ascii]
    exact ⟨_, _, rfl, .inl ⟨ascii, rfl, rfl⟩⟩
  · obtain ⟨bytes, byte, split⟩ := (List.eq_nil_or_concat' (String.utf8EncodeChar c)).resolve_left
      String.utf8EncodeChar_ne_nil
    have high : 128 ≤ byte.toNat := high_of_mem_encode ascii (by simp [split])
    rw [split, List.map_append, List.reverse_append]
    exact ⟨byte, _, rfl, .inr ⟨ascii, high⟩⟩

theorem any_isNameByte (before : List (Char × Mark)) :
    (bytesOf before).reverse.head?.any (isNameByte ·.1) = (lastOf none before).any isNameChar := by
  rcases List.eq_nil_or_concat' before with rfl | ⟨before, ⟨c, mark⟩, rfl⟩
  · rfl
  obtain ⟨byte, others, bytes, isLast⟩ := exists_last_byte before c mark
  rw [bytes, lastOf, List.getLast?_concat]
  show isNameChar (Char.ofUInt8 byte) = isNameChar c
  rcases isLast with ⟨ascii, rfl, -⟩ | ⟨other, high⟩
  · rw [ofUInt8_toUInt8 ascii]
  · have highToo : ¬ IsAscii (Char.ofUInt8 byte) := by
      have same : (Char.ofUInt8 byte).toNat = byte.toNat := UInt8.toNat_toUInt32 byte
      rw [IsAscii, same]
      omega
    rw [Bool.eq_false_iff.mpr (mt isAscii_of_isNameChar highToo),
      Bool.eq_false_iff.mpr (mt isAscii_of_isNameChar other)]

/-- Bytes tell where the mark of a raw literal was read. -/
theorem afterRaw_between (nest : Nest) (before : List (Char × Mark)) (text : List Char) :
    (between nest before text).afterRaw = endsRaw before := by
  rcases List.eq_nil_or_concat' before with rfl | ⟨before, ⟨c, mark⟩, rfl⟩
  · rfl
  obtain ⟨byte, others, bytes, isLast⟩ := exists_last_byte before c mark
  have last : lastOf none (before ++ [(c, mark)]) = some c := by rw [lastOf, List.getLast?_concat]; rfl
  rw [afterRaw, between, bytes, endsRaw, List.dropLast_concat, last]
  show (byte == 'r'.toUInt8 && !others.head?.any (isNameByte ·.1)) = (some c == some 'r' && _)
  rcases isLast with ⟨ascii, rfl, rfl⟩ | ⟨other, high⟩
  · rw [any_isNameByte]
    congr 1
    rw [Bool.eq_iff_iff, beq_iff_eq, beq_iff_eq, Option.some.injEq]
    refine ⟨fun same => ?_, fun same => congrArg Char.toUInt8 same⟩
    have equal := congrArg Char.ofUInt8 same
    rwa [ofUInt8_toUInt8 ascii] at equal
  · have apart : byte ≠ 'r'.toUInt8 := by rintro rfl; exact absurd high (by decide)
    have different : c ≠ 'r' := by rintro rfl; exact other (by decide)
    rw [beq_eq_false_iff_ne.mpr apart, beq_eq_false_iff_ne.mpr (mt Option.some.inj different)]
    rfl

/-! ### Inside of a character -/

section
variable {nest : Nest} (read : List (UInt8 × Mark)) (rest : List UInt8) {byte : UInt8} (high : 128 ≤ byte.toNat)
include high

private theorem sees_high {c : Char} (ascii : IsAscii c) (word : List Char) :
    (ByteReader.mk nest read (byte :: rest)).sees (c :: word) = false := by
  have apart : c.toUInt8 ≠ byte := by
    rintro rfl
    rw [toNat_toUInt8 ascii] at high
    have small : c.toNat ≤ 127 := ascii
    omega
  rw [sees, utf8_cons, encode_of_isAscii ascii, List.singleton_append, List.isPrefixOf_cons_cons,
    beq_eq_false_iff_ne.mpr apart, Bool.false_and]

/-- A byte that is no ASCII character belongs to what is around it. -/
private theorem next_high (quoted : nest.IsQuoted) :
    next ⟨nest, read, byte :: rest⟩ = ⟨nest, (byte, nest.mode.mark) :: read, rest⟩ := by
  have unseen {c : Char} (ascii : IsAscii c) (word : List Char) :
      (ByteReader.mk nest read (byte :: rest)).sees (c :: word) = false := sees_high read rest high ascii word
  have code : (ByteReader.mk nest read (byte :: rest)).readCode = ⟨nest, (byte, .code) :: read, rest⟩ := by
    simp only [readCode, unseen (c := '/') (by decide), unseen (c := '\'') (by decide), unseen (c := '"') (by decide),
      unseen (c := '{') (by decide), unseen (c := '}') (by decide)]
    cases nest.mode <;> rfl
  show readMode _ = _
  rw [readMode]
  cases mode : nest.mode with
  | code => exact code
  | interpolation depth => exact code
  | comment depth =>
    simp only [readComment, unseen (c := '/') (by decide), unseen (c := '*') (by decide)]
    rfl
  | string quote triple raw =>
    have ascii : IsAscii quote := isAscii_of_isQuote (quoted quote triple raw (mem_of_mode mode))
    have closing : (ByteReader.mk nest read (byte :: rest)).sees
        (if triple then [quote, quote, quote] else [quote]) = false := by
      cases triple <;> exact unseen ascii _
    simp only [readString, unseen (c := '\\') (by decide), unseen (c := '$') (by decide), closing, Bool.and_false]
    rfl

omit high in
/-- So do several. -/
theorem iterate_next_high (quoted : nest.IsQuoted) {bytes : List UInt8}
    (high : ∀ byte ∈ bytes, 128 ≤ byte.toNat) :
    next^[bytes.length] ⟨nest, read, bytes ++ rest⟩ =
      ⟨nest, (bytes.map (·, nest.mode.mark)).reverse ++ read, rest⟩ := by
  induction bytes generalizing read with
  | nil => rfl
  | cons byte bytes ih =>
    obtain ⟨first, others⟩ := List.forall_mem_cons.mp high
    rw [List.length_cons, Function.iterate_succ_apply, List.cons_append, next_high read _ first quoted, ih _ others]
    simp

end

/-! ### From character to character -/

/-- From between characters the reader gets past some more, in no more rounds than they have bytes. -/
def Passes (nest : Nest) (before spelled : List (Char × Mark)) (after : Nest) (follow : List Char) : Prop :=
  ∃ rounds ≤ byteLength (spelled.map (·.1)),
    next^[rounds] (between nest before (spelled.map (·.1) ++ follow)) = between after (before ++ spelled) follow

section
variable {nest middle after : Nest} {before : List (Char × Mark)} {follow : List Char} {mark : Mark}

theorem Passes.nothing : Passes nest before [] nest follow := ⟨0, Nat.le_refl _, by rw [List.append_nil]; rfl⟩

theorem Passes.append {first second : List (Char × Mark)}
    (one : Passes nest before first middle (second.map (·.1) ++ follow))
    (two : Passes middle (before ++ first) second after follow) :
    Passes nest before (first ++ second) after follow := by
  obtain ⟨rounds, most, there⟩ := one
  obtain ⟨more, mostToo, ended⟩ := two
  refine ⟨more + rounds, ?_, ?_⟩
  · rw [List.map_append, byteLength_append]
    omega
  · rw [List.map_append, List.append_assoc, Function.iterate_add_apply, there, ended, List.append_assoc]

theorem next_between (nest : Nest) (before : List (Char × Mark)) (c : Char) (rest : List Char) :
    next (between nest before (c :: rest)) = readMode (between nest before (c :: rest)) := by
  obtain ⟨byte, bytes, split⟩ := List.exists_cons_of_ne_nil (String.utf8EncodeChar_ne_nil (c := c))
  rw [next, if_neg]
  simp [between, utf8_cons, split]

/-- One round may pass over several characters. -/
theorem Passes.round {c : Char} {others : List Char}
    (now : readMode (between nest before (c :: others ++ follow)) =
      between after (before ++ marked mark (c :: others)) follow) :
    Passes nest before (marked mark (c :: others)) after follow := by
  refine ⟨1, ?_, ?_⟩
  · rw [map_fst_marked, byteLength_cons]
    have := c.utf8Size_pos
    omega
  · rw [map_fst_marked, Function.iterate_one, ← now, List.cons_append, next_between]

/-- A character that is not ASCII takes a round for each byte. -/
theorem Passes.high (quoted : nest.IsQuoted) {c : Char} (other : ¬ IsAscii c) :
    Passes nest before [(c, nest.mode.mark)] nest follow := by
  refine ⟨(String.utf8EncodeChar c).length, ?_, ?_⟩
  · rw [String.length_utf8EncodeChar]
    exact Nat.le_refl _
  · have bytes : bytesOf [(c, nest.mode.mark)] = (String.utf8EncodeChar c).map (·, nest.mode.mark) :=
      List.append_nil _
    rw [between, between, bytesOf_append, bytes, List.reverse_append]
    exact iterate_next_high _ _ quoted fun _ => high_of_mem_encode other

end

end ByteReader

end DeadCode.Source
