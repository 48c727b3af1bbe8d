import Mathlib.Data.List.TakeWhile
import PonyLens.Location

/-!
# The order of locations

The line counts first, then the column. Where a text goes on, the place past it only moves forward,
and neither number is larger than the number of characters and one more.
-/

namespace PonyLens.Location

variable {k l m : Location}

theorem isBefore_iff :
    l.isBefore m = true ↔ l.line < m.line ∨ l.line = m.line ∧ l.column < m.column := by
  simp [isBefore]

/-- A place that is not before `l` is not before one that is not after `l`. -/
theorem not_isBefore_trans (h : l.isBefore k = false) (h' : m.isBefore l = false) :
    m.isBefore k = false := by
  rw [← Bool.not_eq_true, isBefore_iff] at *
  omega

theorem isBefore_asymm (h : l.isBefore m = true) : m.isBefore l = false := by
  rw [← Bool.not_eq_true, isBefore_iff]
  rw [isBefore_iff] at h
  omega

theorem isBefore_trans (h : k.isBefore l = true) (h' : l.isBefore m = true) :
    k.isBefore m = true := by
  rw [isBefore_iff] at *
  omega

theorem isBefore_after (l : Location) (c : Char) : l.isBefore (l.after c) = true := by
  rw [isBefore_iff, after]
  split <;> simp

/-! ### The place past a text -/

/-- The place just past a text: one line more than it has line breaks, and one column more than it
has characters after the last of them. -/
def past (cs : List Char) : Location :=
  ⟨cs.count '\n' + 1, (cs.reverse.takeWhile (· != '\n')).length + 1⟩

variable {cs ds : List Char}

theorem past_concat (cs : List Char) (c : Char) : past (cs ++ [c]) = (past cs).after c := by
  rw [past, past, after, List.reverse_append, List.reverse_singleton, List.singleton_append,
    List.count_append]
  split <;> simp [*]

theorem foldl_after (cs ds : List Char) : ds.foldl after (past cs) = past (cs ++ ds) := by
  induction ds generalizing cs with
  | nil => rw [List.append_nil, List.foldl_nil]
  | cons d ds ih => rw [List.foldl_cons, ← past_concat, ih, List.append_assoc, List.singleton_append]

theorem isBefore_past_append (hds : ds ≠ []) : (past cs).isBefore (past (cs ++ ds)) = true := by
  induction ds generalizing cs with
  | nil => exact absurd rfl hds
  | cons d ds ih =>
    have hfirst : (past cs).isBefore (past (cs ++ [d])) = true := by
      rw [past_concat]
      exact isBefore_after _ d
    rw [← List.singleton_append, ← List.append_assoc]
    by_cases hnil : ds = []
    · rw [hnil, List.append_nil]
      exact hfirst
    · exact isBefore_trans hfirst (ih hnil)

theorem isBefore_past_of_prefix (h : cs <+: ds) (hlength : cs.length < ds.length) :
    (past cs).isBefore (past ds) = true := by
  obtain ⟨more, rfl⟩ := h
  refine isBefore_past_append ?_
  rintro rfl
  simp at hlength

theorem line_past_le (cs : List Char) : (past cs).line ≤ cs.length + 1 :=
  Nat.add_le_add_right List.count_le_length 1

theorem column_past_le (cs : List Char) : (past cs).column ≤ cs.length + 1 := by
  have hle := (cs.reverse.takeWhile_sublist (· != '\n')).length_le
  rw [List.length_reverse] at hle
  exact Nat.add_le_add_right hle 1

end PonyLens.Location
