import Mathlib.Data.List.Induction
import Mathlib.Data.List.TakeWhile
import WasmX64.Text.Lines

/-!
# Blanks and lines

Trimming takes off exactly the blanks at the two ends, so it does not see blanks added there, and
neither do the trimmed pieces of a text between separators.  Cutting a text into lines is splitting
it at line feeds, but for an empty piece at the very end.
-/

namespace WasmX64.Text

variable {chars before after : List Char}

/-- Nothing but blanks. -/
def Blank (chars : List Char) : Prop :=
  ∀ char ∈ chars, isBlank char = true

instance (chars : List Char) : Decidable (Blank chars) :=
  List.decidableBAll (fun char => isBlank char = true) chars

theorem trim_cons_blank {char : Char} (blank : isBlank char = true) (chars : List Char) :
    trim (char :: chars) = trim chars := by
  rw [trim, trim, List.dropWhile_cons_of_pos blank]

theorem trim_append_blank {char : Char} (blank : isBlank char = true) (chars : List Char) :
    trim (chars ++ [char]) = trim chars := by
  rw [trim, trim, List.dropWhile_append]
  split
  · rename_i empty
    rw [List.isEmpty_iff.mp empty, List.dropWhile_cons_of_pos blank]
    rfl
  · rw [List.reverse_append, List.reverse_singleton, List.singleton_append,
      List.dropWhile_cons_of_pos blank]

/-- Blanks around a text are trimmed away. -/
theorem trim_padded (blankBefore : Blank before) (blankAfter : Blank after) (chars : List Char) :
    trim (before ++ chars ++ after) = trim chars := by
  induction before with
  | cons char before ih =>
    obtain ⟨blank, blanks⟩ := List.forall_mem_cons.mp blankBefore
    rw [List.cons_append, List.cons_append, trim_cons_blank blank, ih blanks]
  | nil =>
    rw [List.nil_append]
    induction after using List.reverseRecOn with
    | nil => rw [List.append_nil]
    | append_singleton after char ih =>
      obtain ⟨blanks, blank⟩ := List.forall_mem_append.mp blankAfter
      rw [← List.append_assoc, trim_append_blank (blank char (List.mem_singleton_self char)),
        ih blanks]

/-- A text is its trimmed form with blanks around it. -/
theorem exists_trim_padding (chars : List Char) :
    ∃ before after, Blank before ∧ Blank after ∧ chars = before ++ trim chars ++ after := by
  refine ⟨chars.takeWhile isBlank, ((chars.dropWhile isBlank).reverse.takeWhile isBlank).reverse,
    fun char member => List.mem_takeWhile_imp member,
    fun char member => List.mem_takeWhile_imp (List.mem_reverse.mp member), ?_⟩
  rw [trim, List.append_assoc, ← List.reverse_append, List.takeWhile_append_dropWhile,
    List.reverse_reverse, List.takeWhile_append_dropWhile]

/-- A text without blanks is left alone. -/
theorem trim_of_solid (solid : ∀ char ∈ chars, isBlank char = false) : trim chars = chars := by
  have first : chars.dropWhile isBlank = chars :=
    List.dropWhile_eq_self_iff.mpr fun nonempty => by
      rw [solid _ (List.getElem_mem nonempty)]
      exact Bool.false_ne_true
  have last : chars.reverse.dropWhile isBlank = chars.reverse :=
    List.dropWhile_eq_self_iff.mpr fun nonempty => by
      rw [solid _ (List.mem_reverse.mp (List.getElem_mem nonempty))]
      exact Bool.false_ne_true
  rw [trim, first, last, List.reverse_reverse]

/-! ## Pieces between separators -/

section Pieces

variable {separator : Char → Bool} (solid : ∀ char, isBlank char = true → separator char = false)

include solid

theorem splitOnPPrepend_append_blank {char : Char} (blank : isBlank char = true)
    (chars current : List Char) :
    ((chars ++ [char]).splitOnPPrepend separator current).map trim =
      (chars.splitOnPPrepend separator current).map trim := by
  induction chars generalizing current with
  | nil =>
    rw [List.nil_append, List.splitOnPPrepend_cons_eq_if, solid char blank]
    simp [trim_append_blank blank]
  | cons first rest ih =>
    rw [List.cons_append, List.splitOnPPrepend_cons_eq_if, List.splitOnPPrepend_cons_eq_if]
    split
    · rw [List.map_cons, List.map_cons, ← List.splitOnPPrepend_nil_right, ih,
        List.splitOnPPrepend_nil_right]
    · exact ih _

/-- The trimmed pieces of a text do not depend on blanks around it. -/
theorem splitOnP_padded (blankBefore : Blank before) (blankAfter : Blank after)
    (chars : List Char) :
    ((before ++ chars ++ after).splitOnP separator).map trim =
      (chars.splitOnP separator).map trim := by
  induction before with
  | cons char before ih =>
    obtain ⟨blank, blanks⟩ := List.forall_mem_cons.mp blankBefore
    rw [List.cons_append, List.cons_append, List.splitOnP_cons_eq_if_modifyHead,
      solid char blank, ← ih blanks]
    cases (before ++ chars ++ after).splitOnP separator with
    | nil => rfl
    | cons piece pieces => simp [trim_cons_blank blank]
  | nil =>
    rw [List.nil_append]
    induction after using List.reverseRecOn with
    | nil => rw [List.append_nil]
    | append_singleton after char ih =>
      obtain ⟨blanks, blank⟩ := List.forall_mem_append.mp blankAfter
      rw [← List.append_assoc, ← List.splitOnPPrepend_nil_right,
        splitOnPPrepend_append_blank solid (blank char (List.mem_singleton_self char)),
        List.splitOnPPrepend_nil_right, ih blanks]

/-- The trimmed pieces of a text are those of its trimmed form. -/
theorem splitOnP_trim (chars : List Char) :
    ((trim chars).splitOnP separator).map trim = (chars.splitOnP separator).map trim := by
  obtain ⟨before, after, blankBefore, blankAfter, same⟩ := exists_trim_padding chars
  calc ((trim chars).splitOnP separator).map trim
      = ((before ++ trim chars ++ after).splitOnP separator).map trim :=
        (splitOnP_padded solid blankBefore blankAfter _).symm
    _ = (chars.splitOnP separator).map trim := by rw [← same]

end Pieces

end WasmX64.Text

/-!
## Lines and their words

Cutting a text into lines is splitting it at line feeds, but for an empty piece at the very end.
A carriage return at the end of a line is blank, so the words of the line do not depend on it.
-/

namespace WasmX64.Text

/-- Lines are the pieces between line feeds; an empty last piece is no line. -/
theorem splitLinesFrom_eq (current chars : List Char) :
    splitLinesFrom current chars = (chars.splitOn '\n').modifyHead (current.reverse ++ ·) ∨
      splitLinesFrom current chars ++ [[]] =
        (chars.splitOn '\n').modifyHead (current.reverse ++ ·) := by
  induction chars generalizing current with
  | nil =>
    cases current with
    | nil => exact .inr rfl
    | cons char current =>
      left
      simp [splitLinesFrom]
  | cons char rest ih =>
    rw [splitLinesFrom, List.splitOn, List.splitOnP_cons_eq_if_modifyHead, ← List.splitOn]
    by_cases feed : char = '\n'
    · have same : (rest.splitOn '\n').modifyHead (([] : List Char).reverse ++ ·) =
          rest.splitOn '\n' := by
        cases rest.splitOn '\n' <;> rfl
      rw [if_pos feed, if_pos (beq_iff_eq.mpr feed)]
      have later := ih []
      rw [same] at later
      rcases later with later | later
      · left
        simp [later]
      · right
        simp [← later]
    · rw [if_neg feed, if_neg (by simpa using feed)]
      have same : ((rest.splitOn '\n').modifyHead (List.cons char)).modifyHead
          (current.reverse ++ ·) =
            (rest.splitOn '\n').modifyHead ((char :: current).reverse ++ ·) := by
        cases rest.splitOn '\n' <;> simp
      rw [same]
      exact ih (char :: current)

/-- The lines of a text are its pieces between line feeds, but for an empty one at the end. -/
theorem splitLinesFrom_pieces (chars : List Char) :
    splitLinesFrom [] chars = chars.splitOn '\n' ∨
      splitLinesFrom [] chars ++ [[]] = chars.splitOn '\n' := by
  have same : (chars.splitOn '\n').modifyHead (([] : List Char).reverse ++ ·) =
      chars.splitOn '\n' := by
    cases chars.splitOn '\n' <;> rfl
  have pieces := splitLinesFrom_eq [] chars
  rw [same] at pieces
  exact pieces

theorem splitLines_of_short {text : String}
    (short : ∀ line ∈ text.toList.splitOn '\n', byteLength line < lineLimit) :
    splitLines text = ((splitLinesFrom [] text.toList).map dropReturn, false) := by
  have all : ∀ line ∈ splitLinesFrom [] text.toList, byteLength line < lineLimit := by
    intro line member
    apply short
    rcases splitLinesFrom_pieces text.toList with same | same
    · exact same ▸ member
    · exact same ▸ List.mem_append_left _ member
  have whole : (splitLinesFrom [] text.toList).takeWhile
      (fun line => decide (byteLength line < lineLimit)) = splitLinesFrom [] text.toList :=
    List.takeWhile_eq_self_iff.2 fun line member => decide_eq_true (all line member)
  unfold splitLines
  dsimp only
  rw [whole, decide_eq_false (Nat.lt_irrefl _)]

theorem wordsFrom_append_blank {blank : Char} (isBlank : isBlank blank = true)
    (current chars : List Char) :
    wordsFrom current (chars ++ [blank]) = wordsFrom current chars := by
  induction chars generalizing current with
  | nil => cases current <;> simp [wordsFrom, isBlank]
  | cons char rest ih =>
    rw [List.cons_append, wordsFrom, wordsFrom, ih [], ih (char :: current)]

end WasmX64.Text
