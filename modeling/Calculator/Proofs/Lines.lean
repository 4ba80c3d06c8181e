import Calculator.Text.Lines
import Mathlib.Data.List.Basic

/-!
The lines of a text by its line feeds. They are the parts between the line feeds, each without the
carriage return that ends it together with a line feed; only behind the last line feed there has to
be something for a line to be there.
-/

namespace Calculator.Text

/-- A line without the carriage return at its end, if it has one. -/
def withoutReturn (line : List Char) : List Char :=
  if line.getLast? = some '\r' then line.dropLast else line

/-- The parts between the line feeds, with the carriage return directly before a line feed left
out. -/
def splitLines (cs : List Char) : List (List Char) :=
  (cs.splitOn '\n').dropLast.map withoutReturn ++ (cs.splitOn '\n').getLast?.toList

theorem lines_cons {c : Char} {cs : List Char} (hfeed : c ≠ '\n')
    (hreturn : c = '\r' → cs.head? ≠ some '\n') :
    lines (c :: cs) = match lines cs with
      | [] => [[c]]
      | line :: rest => (c :: line) :: rest := by
  refine lines.eq_4 c cs hfeed ?_
  intro ds hc hcs
  exact hreturn hc (by rw [hcs]; rfl)

theorem withoutReturn_cons (c : Char) {line : List Char} (h : line ≠ []) :
    withoutReturn (c :: line) = c :: withoutReturn line := by
  obtain ⟨d, rest, rfl⟩ := List.exists_cons_of_ne_nil h
  rw [withoutReturn, withoutReturn, List.getLast?_cons_cons]
  split <;> rfl

theorem lines_append_cons {line : List Char} (h : '\n' ∉ line) (cs : List Char) :
    lines (line ++ '\n' :: cs) = withoutReturn line :: lines cs := by
  induction line with
  | nil => rfl
  | cons c line ih =>
      rw [List.mem_cons, not_or] at h
      obtain ⟨hc, hline⟩ := h
      cases line with
      | nil =>
          by_cases hreturn : c = '\r'
          · rw [hreturn]
            rfl
          · rw [List.singleton_append, lines_cons (Ne.symm hc) (absurd · hreturn), withoutReturn,
              if_neg (by simp [hreturn])]
            rfl
      | cons d line =>
          have hd : '\n' ≠ d := fun hd => hline (hd ▸ List.mem_cons_self)
          rw [List.cons_append, lines_cons (Ne.symm hc) (by simp [hd.symm]), ih hline,
            withoutReturn_cons c (List.cons_ne_nil d line)]

theorem lines_of_not_mem {line : List Char} (h : '\n' ∉ line) (hne : line ≠ []) :
    lines line = [line] := by
  induction line with
  | nil => exact absurd rfl hne
  | cons c line ih =>
      rw [List.mem_cons, not_or] at h
      obtain ⟨hc, hline⟩ := h
      have hnext : c = '\r' → line.head? ≠ some '\n' := fun _ hhead =>
        hline (List.mem_of_mem_head? hhead)
      rw [lines_cons (Ne.symm hc) hnext]
      cases line with
      | nil => rfl
      | cons d line => rw [ih hline (List.cons_ne_nil d line)]

theorem splitLines_append_cons {line : List Char} (h : '\n' ∉ line) (cs : List Char) :
    splitLines (line ++ '\n' :: cs) = withoutReturn line :: splitLines cs := by
  obtain ⟨part, parts, hparts⟩ := List.exists_cons_of_ne_nil (List.splitOn_ne_nil '\n' cs)
  rw [splitLines, splitLines, List.splitOn_append_cons_self_of_not_mem h, hparts]
  rfl

theorem splitLines_of_not_mem {line : List Char} (h : '\n' ∉ line) : splitLines line = [line] := by
  rw [splitLines, List.splitOn_eq_singleton h]
  rfl

/-- The lines of a text are the parts between its line feeds, except that no line follows the last
line feed if nothing does. -/
theorem filter_lines {p : List Char → Bool} (hp : p [] = false) (cs : List Char) :
    (lines cs).filter p = (splitLines cs).filter p := by
  by_cases h : '\n' ∈ cs
  · obtain ⟨line, rest, hsplit, hline⟩ := List.eq_append_cons_of_mem h
    have hshorter : rest.length < cs.length := by
      simp only [hsplit, List.length_append, List.length_cons]
      omega
    rw [hsplit, lines_append_cons hline, splitLines_append_cons hline, List.filter_cons,
      List.filter_cons, filter_lines hp rest]
  · rw [splitLines_of_not_mem h]
    cases cs with
    | nil => simp [lines, hp]
    | cons c cs => rw [lines_of_not_mem h (List.cons_ne_nil c cs)]
termination_by cs.length

end Calculator.Text
