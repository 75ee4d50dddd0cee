/-!
Positions in a text count the bytes of its UTF-8 form. The functions here move between such
positions and the characters that stand at them.
-/
namespace DeadCode.Text

def byteLength : List Char → Nat
  | [] => 0
  | c :: rest => c.utf8Size + byteLength rest

/-- The text from a position on. A position inside a character counts as the end of it. -/
def dropBytes : Nat → List Char → List Char
  | 0, text => text
  | _ + 1, [] => []
  | n + 1, c :: rest => dropBytes (n + 1 - c.utf8Size) rest

/-- The text before a position. A character that the position splits is left out. -/
def takeBytes : Nat → List Char → List Char
  | _, [] => []
  | n, c :: rest => if c.utf8Size ≤ n then c :: takeBytes (n - c.utf8Size) rest else []

/-- The character that begins at a position. -/
def charAt? (text : List Char) (offset : Nat) : Option Char :=
  (dropBytes offset text).head?

def slice (text : List Char) (start stop : Nat) : List Char :=
  takeBytes (stop - start) (dropBytes start text)

@[simp] theorem byteLength_nil : byteLength [] = 0 := rfl

@[simp] theorem byteLength_cons (c : Char) (rest : List Char) :
    byteLength (c :: rest) = c.utf8Size + byteLength rest := rfl

@[simp] theorem byteLength_append (a b : List Char) :
    byteLength (a ++ b) = byteLength a + byteLength b := by
  induction a with
  | nil => simp
  | cons c rest ih => simp [ih, Nat.add_assoc]

@[simp] theorem dropBytes_zero (text : List Char) : dropBytes 0 text = text := by
  cases text <;> rfl

/-- Dropping the bytes of a leading piece leaves what follows it. -/
@[simp] theorem dropBytes_append (a b : List Char) : dropBytes (byteLength a) (a ++ b) = b := by
  induction a with
  | nil => simp
  | cons c rest ih =>
    have pos : 0 < c.utf8Size := Char.utf8Size_pos c
    obtain ⟨n, hn⟩ : ∃ n, c.utf8Size + byteLength rest = n + 1 := ⟨_, (Nat.succ_pred (by omega)).symm⟩
    have : n + 1 - c.utf8Size = byteLength rest := by omega
    simp only [byteLength_cons, List.cons_append, hn, dropBytes, this, ih]

/-- Taking the bytes of a leading piece gives that piece. -/
@[simp] theorem takeBytes_append (a b : List Char) : takeBytes (byteLength a) (a ++ b) = a := by
  induction a with
  | nil =>
    cases b with
    | nil => rfl
    | cons c rest =>
      have pos : 0 < c.utf8Size := Char.utf8Size_pos c
      have : ¬ c.utf8Size ≤ 0 := by omega
      simp [takeBytes, this]
  | cons c rest ih =>
    simp [takeBytes, ih]

end DeadCode.Text
