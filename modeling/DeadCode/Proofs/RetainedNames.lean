import DeadCode.Proofs.Exclusions

/-!
What patterns without slashes mean for names. Such a pattern is a text with stars in front of it, behind it or on both
sides. One star stands for any text; any further ones stand for themselves. So a pattern with several stars retains too
little, and no name without a star in it.
-/
namespace DeadCode
namespace Glob
open DeadCode.Text

structure Wildcard where
  lead : Nat
  word : Literal
  trail : Nat
deriving DecidableEq, Repr

namespace Wildcard

def chars (wildcard : Wildcard) : List Char :=
  List.replicate wildcard.lead '*' ++ wildcard.word.chars ++ List.replicate wildcard.trail '*'

def pattern (wildcard : Wildcard) : String := String.ofList wildcard.chars

def stars (wildcard : Wildcard) : Nat := wildcard.lead + wildcard.trail

/-- What a pattern means where stars stand for any text, however many they are. -/
def Means (wildcard : Wildcard) (name : List Char) : Prop :=
  match wildcard.lead, wildcard.trail with
  | 0, 0 => name = wildcard.word.chars
  | _ + 1, 0 => wildcard.word.chars <:+ name
  | 0, _ + 1 => wildcard.word.chars <+: name
  | _ + 1, _ + 1 => wildcard.word.chars <:+: name

theorem slash_not_mem_chars (wildcard : Wildcard) : '/' ∉ wildcard.chars := by
  simp [chars, List.mem_replicate, wildcard.word.noSlash]

theorem star_mem_chars {wildcard : Wildcard} (some : 0 < wildcard.stars) : '*' ∈ wildcard.chars := by
  rw [stars, Nat.add_pos_iff_pos_or_pos] at some
  simpa [chars, List.mem_replicate, wildcard.word.starless, Nat.pos_iff_ne_zero] using some

theorem means_word (wildcard : Wildcard) : wildcard.Means wildcard.word.chars := by
  unfold Means
  split
  · rfl
  · exact List.suffix_refl _
  · exact List.prefix_refl _
  · exact List.infix_refl _

/-! ### One star -/

section
variable {name : List Char} (word : Literal)

theorem chars_of_word : (Wildcard.mk 0 word 0).chars = word.chars := List.append_nil _

/-- Without stars a pattern is a name. -/
theorem fits_word : fits (Wildcard.mk 0 word 0).chars name ↔ name = word.chars := by
  have starless {piece : List Char} (within : piece <:+: word.chars) : '*' ∉ piece :=
    fun star => word.starless (within.subset star)
  have starts : startsWith word.chars "*" = false := by
    rw [Bool.eq_false_iff]
    exact fun lead => starless (List.isPrefixOf_iff_prefix.mp lead).isInfix List.mem_cons_self
  have ends : endsWith word.chars "*" = false := by
    rw [Bool.eq_false_iff]
    exact fun tail => starless (List.isSuffixOf_iff_suffix.mp tail).isInfix List.mem_cons_self
  have between : contains word.chars "**".toList = false := by
    rw [Bool.eq_false_iff]
    intro inner
    have within := contains_iff_infix.mp inner
    exact starless within List.mem_cons_self
  rw [chars_of_word, fits, starts, ends, between]
  exact beq_iff_eq

/-- The first star stands for any text in front. -/
theorem fits_lead (lead trail : Nat) :
    fits (Wildcard.mk (lead + 1) word trail).chars name ↔ (Wildcard.mk lead word trail).chars <:+ name := by
  have split : (Wildcard.mk (lead + 1) word trail).chars = '*' :: (Wildcard.mk lead word trail).chars := rfl
  have noSlash : '/' ∉ (Wildcard.mk (lead + 1) word trail).chars := slash_not_mem_chars _
  rw [fits, if_pos, split]
  · exact List.isSuffixOf_iff_suffix
  · simpa [startsWith, split] using noSlash

/-- Where none stands in front, the last one stands for any text behind. -/
theorem fits_trail (some : word.chars ≠ []) (trail : Nat) :
    fits (Wildcard.mk 0 word (trail + 1)).chars name ↔ (Wildcard.mk 0 word trail).chars <+: name := by
  have split : (Wildcard.mk 0 word (trail + 1)).chars = (Wildcard.mk 0 word trail).chars ++ ['*'] := by
    simp [chars, List.replicate_succ']
  have noSlash : '/' ∉ (Wildcard.mk 0 word (trail + 1)).chars := slash_not_mem_chars _
  have starts : startsWith (Wildcard.mk 0 word (trail + 1)).chars "*" = false := by
    rw [Bool.eq_false_iff]
    intro lead
    obtain ⟨rest, same⟩ := List.isPrefixOf_iff_prefix.mp lead
    exact head?_append_ne word.starless some _ (congrArg List.head? same).symm
  have ends : endsWith (Wildcard.mk 0 word (trail + 1)).chars "*" := by
    rw [split]
    exact List.isSuffixOf_iff_suffix.mpr (List.suffix_append _ _)
  rw [fits, starts, ends, if_neg (by simp), if_pos (by simpa using noSlash), split, List.dropLast_concat]
  exact List.isPrefixOf_iff_prefix

/-- Stars alone stand in front as well as behind. -/
theorem chars_of_stars (none : word.chars = []) (trail : Nat) :
    (Wildcard.mk 0 word trail).chars = (Wildcard.mk trail word 0).chars := by
  simp [chars, none]

end

/-! ### All stars -/

section
variable {wildcard : Wildcard} {name : List Char}

/-- A name that fits is one that should. -/
theorem means_of_fits (fitting : fits wildcard.chars name) : wildcard.Means name := by
  obtain ⟨_ | lead, word, _ | trail⟩ := wildcard
  · exact (fits_word word).mp fitting
  · by_cases none : word.chars = []
    · rw [Means, none]
      exact List.nil_prefix
    · exact (List.prefix_append word.chars _).trans ((fits_trail word none trail).mp fitting)
  · have ends := (fits_lead word lead 0).mp fitting
    rw [chars, List.replicate_zero, List.append_nil] at ends
    exact (List.suffix_append _ word.chars).trans ends
  · have within := ((fits_lead word lead (trail + 1)).mp fitting).isInfix
    exact (List.infix_append _ word.chars _).trans within

/-- With one star it is any name that should. -/
theorem fits_iff_means (few : wildcard.stars ≤ 1) : fits wildcard.chars name ↔ wildcard.Means name := by
  refine ⟨means_of_fits, fun means => ?_⟩
  obtain ⟨lead, word, trail⟩ := wildcard
  obtain ⟨rfl, rfl⟩ | ⟨rfl, rfl⟩ | ⟨rfl, rfl⟩ : lead = 0 ∧ trail = 0 ∨ lead = 1 ∧ trail = 0 ∨ lead = 0 ∧ trail = 1 := by
    have few : lead + trail ≤ 1 := few
    omega
  · exact (fits_word word).mpr means
  · rw [fits_lead, chars_of_word]
    exact means
  · by_cases none : word.chars = []
    · rw [chars_of_stars word none, fits_lead, chars_of_word, none]
      exact List.nil_suffix
    · rw [fits_trail word none, chars_of_word]
      exact means

/-- The second star is looked for in the name. -/
theorem star_mem_of_fits (many : 2 ≤ wildcard.stars) (fitting : fits wildcard.chars name) : '*' ∈ name := by
  obtain ⟨_ | lead, word, trail⟩ := wildcard
  · have many : 2 ≤ 0 + trail := many
    obtain ⟨trail, rfl⟩ : ∃ others, trail = others + 1 := Nat.exists_eq_add_one.mpr (by omega)
    have more : 0 < trail := by omega
    by_cases none : word.chars = []
    · rw [chars_of_stars word none, fits_lead] at fitting
      exact fitting.subset (star_mem_chars more)
    · rw [fits_trail word none] at fitting
      exact fitting.subset (star_mem_chars (Nat.add_pos_right 0 more))
  · have many : 2 ≤ lead + 1 + trail := many
    have more : 0 < lead + trail := by omega
    exact ((fits_lead word lead trail).mp fitting).subset (star_mem_chars more)

end

end Wildcard
end Glob

/-! ### Names -/

namespace Settings
open Glob

theorem retains_pattern_iff (settings : Settings) (wildcard : Wildcard) (name : String) :
    ({ settings with retain := [wildcard.pattern] } : Settings).retains name ↔ fits wildcard.chars name.toList := by
  simp [retains, Wildcard.pattern]

/-- A pattern retains only names that it should. It retains all of them exactly if it has no more than one star; with
more, it retains none that has no star in it. -/
theorem retains_as_meant_iff (settings : Settings) (wildcard : Wildcard) :
    let given : Settings := { settings with retain := [wildcard.pattern] }
    (∀ name, given.retains name → wildcard.Means name.toList) ∧
      ((∀ name, given.retains name ↔ wildcard.Means name.toList) ↔ wildcard.stars ≤ 1) ∧
      ∀ name, '*' ∉ name.toList → (given.retains name ↔ wildcard.stars ≤ 1 ∧ wildcard.Means name.toList) := by
  intro given
  have retains_iff := retains_pattern_iff settings wildcard
  refine ⟨fun name retained => ?_, ⟨fun agree => ?_, fun few name => ?_⟩, fun name starless => ⟨fun retained => ?_, ?_⟩⟩
  · exact Wildcard.means_of_fits ((retains_iff name).mp retained)
  · -- the text between the stars should be retained, and has no star in it
    by_contra many
    have meant : wildcard.Means (String.ofList wildcard.word.chars).toList := by
      rw [String.toList_ofList]
      exact wildcard.means_word
    have star := Wildcard.star_mem_of_fits (Nat.lt_of_not_le many) ((retains_iff _).mp ((agree _).mpr meant))
    rw [String.toList_ofList] at star
    exact wildcard.word.starless star
  · rw [retains_iff, Wildcard.fits_iff_means few]
  · have fitting := (retains_iff name).mp retained
    refine ⟨?_, Wildcard.means_of_fits fitting⟩
    by_contra many
    exact starless (Wildcard.star_mem_of_fits (Nat.lt_of_not_le many) fitting)
  · rintro ⟨few, meant⟩
    exact (retains_iff name).mpr ((Wildcard.fits_iff_means few).mpr meant)

/-- Names that end in a text, and none that begins with it. -/
theorem retains_as_meant_iff_ending :
    let given : Settings := { default with retain := ["*Page"] }
    given.retains "HomePage" ∧ ¬ given.retains "PageView" := by
  let page : Wildcard := ⟨1, ⟨"Page".toList, by decide, by decide⟩, 0⟩
  have agree := (retains_as_meant_iff default page).2.1.mpr (by decide)
  have ends : "Page".toList <:+ "HomePage".toList := by decide
  have begins : ¬ "Page".toList <:+ "PageView".toList := by decide
  exact ⟨(agree "HomePage").mpr ends, mt (agree "PageView").mp begins⟩

/-- A text inside of a name, and any name at all. -/
theorem not_retains_several_stars :
    let widget : Wildcard := ⟨1, ⟨"Widget".toList, by decide, by decide⟩, 1⟩
    let anything : Wildcard := ⟨2, ⟨[], List.not_mem_nil, List.not_mem_nil⟩, 0⟩
    widget.Means "ProfileWidgetState".toList ∧ anything.Means "Foo".toList ∧
      widget.pattern = "*Widget*" ∧ anything.pattern = "**" ∧
      ({ default with retain := ["*Widget*"] } : Settings).retains "ProfileWidgetState" = false ∧
      ({ default with retain := ["**"] } : Settings).retains "Foo" = false := by
  refine ⟨?_, List.nil_suffix, rfl, rfl, by decide, by decide⟩
  exact ⟨"Profile".toList, "State".toList, by decide⟩

end Settings
end DeadCode
