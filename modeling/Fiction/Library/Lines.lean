import Mathlib.Tactic.Common

/-!
# Reading a text line by line and word by word

`splitLines t l` cuts a list after every terminator `t`. What follows the last terminator is a line
of its own unless it is empty. Terminated lines without terminators inside are found again.
`words blank l` are the longest parts of a list without blanks.
-/

namespace Fiction.Lines

variable {α : Type*} {t : α}

section Lines

def joinLines (t : α) (lines : List (List α)) : List α := lines.flatMap fun line => line ++ [t]

theorem joinLines_append (lines lines' : List (List α)) :
    joinLines t (lines ++ lines') = joinLines t lines ++ joinLines t lines' :=
  List.flatMap_append

variable [DecidableEq α]

def splitLines (t : α) : List α → List (List α)
  | [] => []
  | a :: l =>
    if a = t then [] :: splitLines t l
    else match splitLines t l with
      | [] => [[a]]
      | line :: lines => (a :: line) :: lines

theorem splitLines_append {line : List α} (h : t ∉ line) (rest : List α) :
    splitLines t (line ++ t :: rest) = line :: splitLines t rest := by
  induction line with
  | nil => exact if_pos rfl
  | cons a line ih =>
    rw [List.mem_cons, not_or] at h
    rw [List.cons_append, splitLines, if_neg (Ne.symm h.1), ih h.2]

theorem splitLines_joinLines {lines : List (List α)} (h : ∀ line ∈ lines, t ∉ line) :
    splitLines t (joinLines t lines) = lines := by
  induction lines with
  | nil => rfl
  | cons line lines ih =>
    rw [joinLines, List.flatMap_cons, List.append_assoc, List.singleton_append,
      splitLines_append (h line List.mem_cons_self)]
    exact congrArg _ (ih fun l hl => h l (List.mem_cons_of_mem line hl))

end Lines

section Words

variable {blank : α → Bool}

def words (blank : α → Bool) (l : List α) : List (List α) :=
  (l.splitOnP blank).filter fun word => !word.isEmpty

theorem words_append_cons {word : List α} (hne : word ≠ []) (hword : ∀ a ∈ word, blank a = false)
    {b : α} (hb : blank b = true) (rest : List α) :
    words blank (word ++ b :: rest) = word :: words blank rest := by
  rw [words, List.splitOnP_append_cons_of_forall_mem hword b hb, List.filter_cons_of_pos]
  · rfl
  · simpa using hne

/-- A blank at the end makes no difference. -/
theorem words_concat (l : List α) {b : α} (hb : blank b = true) :
    words blank (l ++ [b]) = words blank l := by
  rw [words, List.splitOnP_append_cons l [] hb, List.splitOnP_nil, List.filter_append]
  exact List.append_nil _

end Words

end Fiction.Lines
