import Mathlib.Data.List.Forall2
import PonyLens.Proofs.Arena.Acyclic
import PonyLens.Proofs.Dump.RoundTrip

/-!
# Line breaks

The printer decides from the root downwards and does not look into a tree that fits into its line.
Yet each tree is broken for its own sake: what stands around a tree on one line is longer than what
is saved by indenting less, so nothing in a tree that fits is too wide where it stands. A print is
therefore a list of parts in which only the gaps before children depend on the width, each of them
on the depth and the size of one tree.
-/

namespace PonyLens.Tree

/-- A piece of a print: a text as it is, or the gap before a child. -/
inductive Part where
  | text (s : String)
  | blank
  | lineBreak (indent : Nat)
deriving DecidableEq, Repr

namespace Part

def print : Part → String
  | text s => s
  | blank => " "
  | lineBreak indent => newLine indent

def unbroken : Part → Part
  | lineBreak _ => blank
  | part => part

/-- Two parts are the same, up to a line break that becomes a blank. -/
inductive Mended : Part → Part → Prop
  | same (part : Part) : Mended part part
  | lineBreak (indent : Nat) : Mended (lineBreak indent) blank

end Part

def printAll : List Part → String
  | [] => ""
  | part :: parts => part.print ++ printAll parts

mutual

/-- The parts of a tree at some depth, if `breaks` tells which trees are broken at which depth. A
broken tree has each child on a line of its own, indented by two columns for each level. -/
def parts (breaks : Nat → Tree → Bool) (depth : Nat) : Tree → List Part
  | .node kind text [] => [.text (leaf kind text)]
  | .node kind text (child :: children) =>
    let gap : Part :=
      if breaks depth (.node kind text (child :: children)) then .lineBreak (2 * (depth + 1))
      else .blank
    .text ("(" ++ head kind text) ::
      (partsAll breaks (depth + 1) gap (child :: children) ++ [.text ")"])

def partsAll (breaks : Nat → Tree → Bool) (depth : Nat) (gap : Part) : List Tree → List Part
  | [] => []
  | t :: ts => gap :: (parts breaks depth t ++ partsAll breaks depth gap ts)

end

/-- Whether a tree has children and is wider on one line than there is room at its depth. -/
def isWide (width depth : Nat) (t : Tree) : Bool :=
  !t.children.isEmpty && decide (width < 2 * depth + (flat t).utf8ByteSize)

variable {breaks breaks' : Nat → Tree → Bool} {ps qs : List Part} {t : Tree}
  {kind : Kind} {text : String} {children : List Tree} {width width' depth : Nat}

/-! ### Parts -/

theorem printAll_append (ps qs : List Part) : printAll (ps ++ qs) = printAll ps ++ printAll qs := by
  induction ps with
  | nil => simp [printAll]
  | cons p ps ih => rw [List.cons_append, printAll, printAll, ih, String.append_assoc]

mutual

theorem map_unbroken_parts (depth depth' : Nat) : ∀ t : Tree,
    (parts breaks depth t).map Part.unbroken = parts (fun _ _ => false) depth' t
  | .node kind text [] => rfl
  | .node kind text (child :: children) => by
    simp only [parts, List.map_cons, List.map_append, List.map_nil, Bool.false_eq_true, if_false]
    rw [map_unbroken_partsAll _ (depth' + 1) (by split <;> rfl)]
    rfl

theorem map_unbroken_partsAll {gap : Part} (depth depth' : Nat) (hgap : gap.unbroken = .blank) :
    ∀ ts : List Tree, (partsAll breaks depth gap ts).map Part.unbroken =
      partsAll (fun _ _ => false) depth' .blank ts
  | [] => rfl
  | t :: ts => by
    simp only [partsAll, List.map_cons, List.map_append, hgap]
    rw [map_unbroken_parts depth depth' t, map_unbroken_partsAll depth depth' hgap ts]

end

mutual

theorem printAll_parts_false (depth : Nat) : ∀ t : Tree,
    printAll (parts (fun _ _ => false) depth t) = flat t
  | .node kind text [] => by simp [parts, printAll, Part.print, flat]
  | .node kind text (child :: children) => by
    simp only [parts, Bool.false_eq_true, if_false, printAll, printAll_append, Part.print, flat,
      String.append_empty]
    rw [printAll_partsAll_false, String.append_assoc, String.append_assoc, String.append_assoc]

theorem printAll_partsAll_false (depth : Nat) : ∀ ts : List Tree,
    printAll (partsAll (fun _ _ => false) depth .blank ts) = flatAll ts
  | [] => rfl
  | t :: ts => by
    rw [partsAll, printAll, printAll_append, printAll_parts_false, printAll_partsAll_false,
      flatAll, Part.print, String.append_assoc]

end

/-! ### Trees that fit -/

theorem size_flat_lt_size_flatAll (h : t ∈ children) :
    (flat t).utf8ByteSize < (flatAll children).utf8ByteSize := by
  induction children with
  | nil => cases h
  | cons u ts ih =>
    have hblank : " ".utf8ByteSize = 1 := rfl
    rw [flatAll, String.utf8ByteSize_append, String.utf8ByteSize_append, hblank]
    rcases List.mem_cons.mp h with rfl | h
    · omega
    · have hlt := ih h
      omega

/-- Two columns that a child has less do not make up for the parentheses and the blank around it. -/
theorem fits_of_mem (h : t ∈ children)
    (hfits : 2 * depth + (flat (.node kind text children)).utf8ByteSize ≤ width) :
    2 * (depth + 1) + (flat t).utf8ByteSize ≤ width := by
  have hlt := size_flat_lt_size_flatAll h
  cases children with
  | nil => cases h
  | cons child children =>
    have hopening : "(".utf8ByteSize = 1 := rfl
    have hclosing : ")".utf8ByteSize = 1 := rfl
    simp only [flat, String.utf8ByteSize_append] at hfits
    omega

theorem isWide_eq_false (h : 2 * depth + (flat t).utf8ByteSize ≤ width) :
    isWide width depth t = false := by
  simp [isWide, h]

mutual

theorem parts_of_fits : ∀ {t : Tree} {depth : Nat},
    2 * depth + (flat t).utf8ByteSize ≤ width →
      parts (isWide width) depth t = parts (fun _ _ => false) depth t
  | .node kind text [], _, _ => rfl
  | .node kind text (child :: children), depth, h => by
    rw [parts, parts, isWide_eq_false h]
    simp only [Bool.false_eq_true, if_false]
    rw [partsAll_of_fits fun t ht => fits_of_mem ht h]

theorem partsAll_of_fits {gap : Part} : ∀ {ts : List Tree} {depth : Nat},
    (∀ t ∈ ts, 2 * depth + (flat t).utf8ByteSize ≤ width) →
      partsAll (isWide width) depth gap ts = partsAll (fun _ _ => false) depth gap ts
  | [], _, _ => rfl
  | t :: ts, depth, h => by
    rw [List.forall_mem_cons] at h
    rw [partsAll, partsAll, parts_of_fits h.1, partsAll_of_fits h.2]

end

mutual

/-- The printer breaks the trees that are too wide where they stand, and no others. -/
theorem layout_eq_printAll (width depth : Nat) : ∀ t : Tree,
    layout width (2 * depth) t = printAll (parts (isWide width) depth t)
  | .node kind text [] => by simp [layout, parts, printAll, Part.print]
  | .node kind text (child :: children) => by
    rcases Nat.lt_or_ge width
      (2 * depth + (flat (.node kind text (child :: children))).utf8ByteSize) with hlt | hle
    · have hwide : isWide width depth (.node kind text (child :: children)) = true := by
        simp [isWide, Tree.children, hlt]
      have hindent : 2 * depth + 2 = 2 * (depth + 1) := rfl
      rw [layout, if_neg (Nat.not_le.mpr hlt), parts, hwide, hindent, layoutAll_eq_printAll]
      simp only [if_true, printAll, printAll_append, Part.print, String.append_empty,
        String.append_assoc]
    · rw [layout_of_le hle, parts_of_fits hle, printAll_parts_false]

theorem layoutAll_eq_printAll (width depth : Nat) : ∀ ts : List Tree,
    layoutAll width (2 * depth) ts =
      printAll (partsAll (isWide width) depth (.lineBreak (2 * depth)) ts)
  | [] => rfl
  | t :: ts => by
    rw [layoutAll, partsAll, printAll, printAll_append, layout_eq_printAll, layoutAll_eq_printAll,
      Part.print, String.append_assoc]

end

/-! ### Wider lines -/

theorem isWide_of_le (hle : width ≤ width') (h : isWide width' depth t = true) :
    isWide width depth t = true := by
  simp only [isWide, Bool.and_eq_true, decide_eq_true_eq] at h ⊢
  exact h.imp_right (Nat.lt_of_le_of_lt hle)

mutual

/-- Where fewer trees are broken, line breaks become blanks and nothing else changes. -/
theorem mended_parts (hbreaks : ∀ depth t, breaks' depth t = true → breaks depth t = true)
    (depth : Nat) : ∀ t : Tree,
    List.Forall₂ Part.Mended (parts breaks depth t) (parts breaks' depth t)
  | .node kind text [] => .cons (.same _) .nil
  | .node kind text (child :: children) => by
    refine .cons (.same _) (List.rel_append (mended_partsAll hbreaks ?_ _ _) (.cons (.same _) .nil))
    cases hwhole : breaks' depth (.node kind text (child :: children)) with
    | true =>
      rw [hbreaks _ _ hwhole]
      exact .same _
    | false =>
      split
      · exact .lineBreak _
      · exact .same _

theorem mended_partsAll (hbreaks : ∀ depth t, breaks' depth t = true → breaks depth t = true)
    {gap gap' : Part} (hgap : gap.Mended gap') (depth : Nat) :
    ∀ ts : List Tree,
      List.Forall₂ Part.Mended (partsAll breaks depth gap ts) (partsAll breaks' depth gap' ts)
  | [] => .nil
  | t :: ts => .cons hgap (List.rel_append (mended_parts hbreaks depth t)
    (mended_partsAll hbreaks hgap depth ts))

end

/-- The number of line breaks in a text, be they the printer's or not. -/
def lineBreaks (s : String) : Nat := s.toList.count '\n'

theorem lineBreaks_append (s t : String) : lineBreaks (s ++ t) = lineBreaks s + lineBreaks t := by
  rw [lineBreaks, String.toList_append, List.count_append]
  rfl

theorem lineBreaks_le_of_mended (h : List.Forall₂ Part.Mended ps qs) :
    lineBreaks (printAll qs) ≤ lineBreaks (printAll ps) := by
  induction h with
  | nil => exact Nat.le_refl _
  | cons hpart _ ih =>
    rw [printAll, printAll, lineBreaks_append, lineBreaks_append]
    refine Nat.add_le_add ?_ ih
    cases hpart with
    | same => exact Nat.le_refl _
    | lineBreak indent => exact Nat.zero_le _

end PonyLens.Tree

namespace PonyLens.Dump

open PonyLens.Tree

variable {a : Arena} {root : NodeId}

/-- Below a node of an arena without cycles there is a tree, all of it. Its print breaks exactly the
trees that have children and are too wide at their depth, whatever is done with the trees around
them; with blanks for the line breaks it is the tree on one line. So prints differ in line breaks
only, and a wider line takes some of them back. -/
theorem print_eq_printAll (hacyclic : a.Acyclic) (hroot : root < a.size) :
    ∃ t, a.tree? (some root) = some t ∧
      (∀ levels, a.size ≤ levels → a.treeWithin levels root = some t) ∧
      ∀ width, a.print (some root) width = printAll (t.parts (isWide width) 0) ∧
        printAll ((t.parts (isWide width) 0).map Part.unbroken) = t.flat ∧
        ∀ width', (t.parts (isWide width') 0).map Part.unbroken =
            (t.parts (isWide width) 0).map Part.unbroken ∧
          (width ≤ width' →
            (∀ depth u, isWide width' depth u = true → isWide width depth u = true) ∧
            List.Forall₂ Part.Mended (t.parts (isWide width) 0) (t.parts (isWide width') 0) ∧
            lineBreaks (a.print (some root) width') ≤ lineBreaks (a.print (some root) width)) := by
  obtain ⟨t, htree, hlevels⟩ := Arena.exists_tree? hacyclic hroot
  have hprint (width : Nat) : a.print (some root) width = printAll (t.parts (isWide width) 0) := by
    rw [print_eq htree]
    exact layout_eq_printAll width 0 t
  refine ⟨t, htree, hlevels, fun width => ⟨hprint width, ?_, fun width' => ⟨?_, fun hle => ?_⟩⟩⟩
  · rw [map_unbroken_parts 0 0, printAll_parts_false]
  · rw [map_unbroken_parts 0 0, map_unbroken_parts 0 0]
  · have hwide (depth : Nat) (u : Tree) (h : isWide width' depth u = true) :
        isWide width depth u = true := isWide_of_le hle h
    have hmended := mended_parts hwide 0 t
    refine ⟨hwide, hmended, ?_⟩
    rw [hprint, hprint]
    exact lineBreaks_le_of_mended hmended

def sequenceArena : Arena := (read .empty "(seq (call (id a) (id b)) x)").2

theorem print_eq_printAll_sequence :
    sequenceArena.Acyclic ∧ 0 < sequenceArena.size ∧
      sequenceArena.print (some 0) 24 = "(seq\n  (call (id a) (id b))\n  x)" ∧
      ∃ t, sequenceArena.tree? (some 0) = some t ∧
        ∀ width, sequenceArena.print (some 0) width = printAll (t.parts (isWide width) 0) ∧
          (width ≤ 24 → lineBreaks (sequenceArena.print (some 0) 24) ≤
            lineBreaks (sequenceArena.print (some 0) width)) := by
  have hacyclic : sequenceArena.Acyclic :=
    Arena.acyclic_of_lt (by decide +kernel) (by decide +kernel)
  have hroot : 0 < sequenceArena.size := by decide +kernel
  obtain ⟨t, htree, _, hwidths⟩ := print_eq_printAll hacyclic hroot
  refine ⟨hacyclic, hroot, by decide +kernel, t, htree, fun width => ⟨(hwidths width).1, ?_⟩⟩
  intro hle
  exact (((hwidths width).2.2 24).2 hle).2.2

end PonyLens.Dump
