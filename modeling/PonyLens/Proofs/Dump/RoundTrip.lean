import PonyLens.Proofs.Dump.Cost
import PonyLens.Proofs.Dump.Depth
import PonyLens.Proofs.Dump.Rereading
import PonyLens.Proofs.Dump.Simulation

/-!
# Reading printed trees

A tree is read back from its print, at every width, exactly if it is printable. One direction goes
through the tokens of the tree. For the other one, a tree that is read from its own print on one
line costs all that the print weighs, so it is legible, and its tokens are read as the tree itself.
-/

namespace PonyLens

open Dump

namespace Tree

variable {t : Tree} {child : Tree} {kind : Kind} {text s : String} {children : List Tree}

theorem Legible.writesWords (h : t.Legible) : t.WritesWords := by
  obtain ⟨kind, text, children⟩ := t
  cases kind.form with
  | name => exact h
  | string => trivial
  | number hkind =>
    rw [legible_number hkind] at h
    have hword (hnil : children = []) : IsWord text := by
      rw [if_pos hnil] at h
      exact h.1
    rcases hkind with rfl | rfl <;> exact hword
  | file hkind => rcases hkind with rfl | rfl <;> trivial
  | other => exact h.imp And.right And.left
  | plain _ => cases kind <;> trivial

theorem treeOf?_layout (h : t.Everywhere Legible) (hheight : t.height ≤ Limits.dumpDepth)
    (width : Nat) : treeOf? (layout width 0 t) = some t.reread := by
  obtain ⟨place, htokens, hending⟩ := scan_layout (h.imp fun _ => Legible.writesWords) width
  rw [treeOf?, hending, htokens]
  exact Outline.outline?_spell h hheight

theorem layout_of_le {width indent : Nat} (h : indent + (flat t).utf8ByteSize ≤ width) :
    layout width indent t = flat t := by
  obtain ⟨kind, text, children⟩ := t
  cases children with
  | nil => rfl
  | cons child children => rw [layout, if_pos h]

/-- A text that the kind does not carry is left out, so that trees which differ in it look alike. -/
theorem layout_plain (h : kind.carriesText = false) (text s : String) (width indent : Nat) :
    layout width indent (.node kind text children) =
      layout width indent (.node kind s children) := by
  cases children with
  | nil => rw [layout, layout, leaf_plain h, leaf_plain h, head_plain h, head_plain h]
  | cons child children => simp only [layout, flat, head_plain h]

theorem Printable.treeOf?_layout (h : t.Printable) (width : Nat) :
    treeOf? (layout width 0 t) = some t := by
  have hlegible : t.Everywhere Legible := h.readsBack.imp fun _ => ReadsBack.legible
  rw [Tree.treeOf?_layout hlegible h.height_le, (reread_eq_iff hlegible).mpr h.readsBack]

/-- The trees that are read back at every width. -/
theorem treeOf?_layout_iff : (∀ width, treeOf? (layout width 0 t) = some t) ↔ t.Printable := by
  refine ⟨fun h => ?_, fun h => h.treeOf?_layout⟩
  have hflat : treeOf? (flat t) = some t := by
    have hfits : 0 + (flat t).utf8ByteSize ≤ (flat t).utf8ByteSize := Nat.le_of_eq (Nat.zero_add _)
    rw [← layout_of_le hfits]
    exact h _
  have hlegible : t.Everywhere Legible := (treeCovered_of_treeOf? hflat).good_of_eq rfl
  have hheight : t.height ≤ Limits.dumpDepth := by
    rw [treeOf?] at hflat
    split at hflat
    · exact Outline.height_le_of_outline? hflat
    · cases hflat
  have hreread := Tree.treeOf?_layout hlegible hheight 0
  rw [h 0] at hreread
  exact ⟨hheight, (reread_eq_iff hlegible).mp (Option.some.inj hreread).symm⟩

/-! ### Canonical trees -/

/-- Whether the node of a tree has the text that its kind asks for, and none otherwise. -/
def NodeCanonical : Tree → Prop
  | .node kind text children =>
    match kind with
    | .ident => IsWord text
    | .stringLit => children = []
    | .intLit | .floatLit =>
      children = [] ∧ IsWord text ∧ '@' ∉ text.toList ∧ numberKind? text = some kind
    | .package | .sourceModule =>
      text ≠ "" ∨ ∀ child ∈ children.head?, ¬ (child.kind = .stringLit ∧ child.children = [])
    | .other =>
      IsWord text ∧ '@' ∉ text.toList ∧ Kind.ofWord? text = none ∧ numberKind? text = none
    | _ =>
      text = "" ∧
        (kind.isTypeDefinition = true → children.head?.any (·.kind == .ident) = true)

/-- Trees of at most as many levels as a dump may have, in which every node is canonical. -/
structure Canonical (t : Tree) : Prop where
  height_le : t.height ≤ Limits.dumpDepth
  nodes : t.Everywhere NodeCanonical

theorem eq_string_of_spell (h : child.spell = [.quoted s]) :
    child.kind = .stringLit ∧ child.children = [] := by
  obtain ⟨kind, text, children⟩ := child
  cases children with
  | cons child children => cases h
  | nil =>
    rw [spell] at h
    cases kind.form with
    | string => exact ⟨rfl, rfl⟩
    | name => cases h
    | number hkind => rcases hkind with rfl | rfl <;> cases h
    | file hkind => rcases hkind with rfl | rfl <;> cases h
    | other => cases h
    | plain hplain =>
      rw [leafTokens_plain hplain] at h
      split at h <;> cases h

theorem taken?_file (hkind : kind = .package ∨ kind = .sourceModule)
    (h : text ≠ "" ∨
      ∀ child ∈ children.head?, ¬ (child.kind = .stringLit ∧ child.children = []))
    (hchild : child ∈ children.head?) : taken? kind text child = none := by
  unfold taken?
  split
  · rename_i hempty
    have htext : text = "" := String.isEmpty_iff.mp (Bool.and_eq_true_iff.mp hempty).2
    have hstring := h.resolve_left (not_not_intro htext) child hchild
    split
    · rename_i x hspell
      cases x with
      | quoted s => exact absurd (eq_string_of_spell hspell) hstring
      | _ => rcases hkind with rfl | rfl <;> rfl
    · rfl
  · rfl

theorem NodeCanonical.legible (h : t.NodeCanonical) : t.Legible := by
  obtain ⟨kind, text, children⟩ := t
  cases kind.form with
  | name => exact h
  | string => exact .inl h
  | number hkind =>
    rcases hkind with rfl | rfl
    all_goals
      obtain ⟨rfl, hword, hat, hnumber⟩ := h
      exact ⟨hword, unplaced_of_not_mem hat, hnumber⟩
  | file hkind => exact legible_file hkind
  | other =>
    obtain ⟨hword, hat, hkind, _⟩ := h
    exact .inr ⟨hword, unplaced_of_not_mem hat, congrArg (Option.getD · .other) hkind⟩
  | plain hplain =>
    rw [legible_plain hplain]
    cases kind <;> first | exact h | cases hplain

/-- Where a node may have a text, a canonical one has it or has no leaf that could be taken. -/
theorem NodeCanonical.not_taken (h : t.NodeCanonical) (hchild : child ∈ t.children.head?) :
    taken? t.kind t.text child = none := by
  obtain ⟨kind, text, children⟩ := t
  cases kind.form with
  | name => rfl
  | string =>
    cases h
    cases hchild
  | number hkind =>
    rcases hkind with rfl | rfl
    all_goals
      cases h.1
      cases hchild
  | file hkind =>
    refine taken?_file hkind ?_ hchild
    rcases hkind with rfl | rfl <;> exact h
  | other => rfl
  | plain hplain => simp [taken?, Tree.kind, mayHaveText_plain hplain]

theorem NodeCanonical.readsBack (h : t.NodeCanonical) : t.ReadsBack where
  legible := h.legible
  not_taken _ := h.not_taken
  not_mistaken := by
    obtain ⟨kind, text, children⟩ := t
    rintro rfl _
    exact ⟨h.2.2.2, h.2.2.1⟩

theorem Canonical.printable (h : t.Canonical) : t.Printable :=
  ⟨h.height_le, h.nodes.imp fun _ => NodeCanonical.readsBack⟩

end Tree

namespace Dump

variable {a : Arena} {root : Link} {t : Tree}

theorem print_eq (h : a.tree? root = some t) (width : Nat) :
    a.print root width = Tree.layout width 0 t := by
  rw [Arena.print, h]
  rfl

/-- Whatever the arena holds already, reading adds the tree of the dump. -/
theorem exists_read_iff {source : String} {dest : Arena} :
    (∃ n b, read dest source = (.ok n, b) ∧ b.tree? (some n) = some t) ↔
      treeOf? source = some t := by
  rcases read_cases dest source with ⟨u, m, c, hu, hread, hholds⟩ | ⟨error, c, hnone, hread⟩
  · rw [hu, hread]
    constructor
    · rintro ⟨n, b, heq, htree⟩
      cases heq
      rw [← htree, hholds.tree?_eq]
    · intro heq
      cases heq
      exact ⟨m, c, rfl, hholds.tree?_eq⟩
  · rw [hnone, hread]
    constructor
    · rintro ⟨n, b, heq, _⟩
      cases heq
    · intro heq
      cases heq

/-- A canonical tree is read back, at every width and into every arena. -/
theorem read_print_of_canonical (h : a.tree? root = some t) (hcanonical : t.Canonical)
    (width : Nat) (dest : Arena) :
    ∃ n b, read dest (a.print root width) = (.ok n, b) ∧ b.tree? (some n) = some t := by
  rw [exists_read_iff, print_eq h]
  exact hcanonical.printable.treeOf?_layout width

/-- A package with a class, an expression of unknown kind, a number and a quoted text. -/
def library : Tree :=
  .node .package "pony \"lens\"" [
    .node .classDef "" [.node .ident "C" [], .node .absent "" []],
    .node .other "+" [.node .intLit "0x1F" [], .node .stringLit "a\n" []]]

def librarySource : String :=
  "(package \"pony \\\"lens\\\"\" (class@3:1 (id C) x) (+ 0x1F \"a\\n\"))"

def libraryArena : Arena := (read .empty librarySource).2

theorem read_print_of_canonical_library :
    libraryArena.tree? (some 0) = some library ∧ library.Canonical ∧
      ∀ width dest, ∃ n b, read dest (libraryArena.print (some 0) width) = (.ok n, b) ∧
        b.tree? (some n) = some library := by
  have htree : libraryArena.tree? (some 0) = some library := by
    decide +kernel
  have hcanonical : library.Canonical := by
    refine ⟨by decide, ?_⟩
    simp only [library, Tree.Everywhere, Tree.EverywhereIn, Tree.NodeCanonical]
    decide +kernel
  exact ⟨htree, hcanonical, read_print_of_canonical htree hcanonical⟩

/-- A class whose node has a text of its own, beside its name. -/
def classOf (text : String) : Tree := .node .classDef text [.node .ident "C" []]

/-- Of type definitions it is not enough to ask for a name. If one has a text too, it looks like one
without, and is read back without it. -/
theorem not_read_print_of_classText :
    let a := ((Arena.empty.add .ident "C" []).1.add .classDef "foo" [some 0]).1
    a.tree? (some 1) = some (classOf "foo") ∧
    ((classOf "foo").height ≤ Limits.dumpDepth ∧
      (classOf "foo").Everywhere fun t => t.NodeCanonical ∨
        t.kind.isTypeDefinition = true ∧ t.children.head?.any (·.kind == .ident) = true) ∧
    ∀ width dest,
      (∃ n b, read dest (a.print (some 1) width) = (.ok n, b) ∧
        b.tree? (some n) = some (classOf "")) ∧
      ¬ ∃ n b, read dest (a.print (some 1) width) = (.ok n, b) ∧
        b.tree? (some n) = some (classOf "foo") := by
  intro a
  have htree : a.tree? (some 1) = some (classOf "foo") := by
    decide +kernel
  have hname : IsWord "C" := by decide
  have hcanonical : (classOf "").Canonical :=
    ⟨by decide, ⟨rfl, fun _ => rfl⟩, ⟨hname, trivial⟩, trivial⟩
  refine ⟨htree, ⟨by decide, ?_⟩, fun width dest => ?_⟩
  · exact ⟨.inr ⟨rfl, rfl⟩, ⟨.inl hname, trivial⟩, trivial⟩
  · have hread : treeOf? (a.print (some 1) width) = some (classOf "") := by
      rw [print_eq htree, classOf, Tree.layout_plain rfl "foo" ""]
      exact hcanonical.printable.treeOf?_layout width
    rw [exists_read_iff, exists_read_iff, hread]
    exact ⟨rfl, by decide⟩

/-- The dump of a program that has been read is read back as the same program at every width,
exactly if its tree is printable. -/
theorem read_print_iff {source : String} {n : NodeId} {b : Arena} (h : read a source = (.ok n, b)) :
    ∃ t, b.tree? (some n) = some t ∧ ∀ dest,
      ((∀ width, ∃ m c, read dest (b.print (some n) width) = (.ok m, c) ∧
        c.tree? (some m) = some t) ↔ t.Printable) := by
  rcases read_cases a source with ⟨t, m, c, _, hread, hholds⟩ | ⟨error, c, _, hread⟩
  · rw [hread] at h
    cases h
    have htree := hholds.tree?_eq
    refine ⟨t, htree, fun dest => ?_⟩
    rw [← Tree.treeOf?_layout_iff]
    apply forall_congr'
    intro width
    rw [exists_read_iff, print_eq htree]
  · rw [hread] at h
    cases h

theorem read_print_iff_library :
    read .empty librarySource = (.ok 0, libraryArena) ∧
      ∃ t, libraryArena.tree? (some 0) = some t ∧ ∀ dest,
        ((∀ width, ∃ m c, read dest (libraryArena.print (some 0) width) = (.ok m, c) ∧
          c.tree? (some m) = some t) ↔ t.Printable) := by
  have hread : read .empty librarySource = (.ok 0, libraryArena) := by
    refine Prod.ext ?_ rfl
    decide +kernel
  exact ⟨hread, read_print_iff hread⟩

/-- A name that is no word is read in quotation marks and printed without them. -/
theorem read_print_parenthesis :
    (read .empty "(id \"(\")").1 = .ok 0 ∧
      (read .empty ((read .empty "(id \"(\")").2.print (some 0) 80)).1 =
        .error (.missingName ⟨1, 2⟩) := by
  decide +kernel

end Dump

end PonyLens
