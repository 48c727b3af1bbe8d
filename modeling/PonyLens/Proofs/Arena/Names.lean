import Mathlib.Data.List.Nodup
import PonyLens.Proofs.Arena.Operations

/-!
# Names of nodes

A name table has no name twice and knows the empty name, and the nodes of an arena have their texts
from its table. So nodes can be compared by their atoms as well as by their texts.
-/

namespace PonyLens

namespace NameTable

/-- Whether the table has no name twice, and the empty name first. -/
structure Sound (t : NameTable) : Prop where
  nodup : t.names.toList.Nodup
  has_empty : t.Has .empty ""

variable {t : NameTable} {atom atom' : Atom} {name : String}

theorem not_mem_of_get?_eq_none (h : t.get? name = none) : name ∉ t.names := by
  simpa [get?] using h

theorem Sound.intern (h : t.Sound) (name : String) : (t.intern name).2.Sound := by
  refine ⟨?_, h.has_empty.intern name⟩
  rw [NameTable.intern]
  cases hget : t.get? name with
  | some atom => exact h.nodup
  | none =>
    have hnew := not_mem_of_get?_eq_none hget
    have hdistinct : ∀ other ∈ t.names, ¬ other = name := by
      rintro other hother rfl
      exact hnew hother
    simpa [List.nodup_append, h.nodup] using hdistinct

theorem Sound.internAll (h : t.Sound) (names : List String) : (t.internAll names).Sound := by
  induction names generalizing t with
  | nil => exact h
  | cons name names ih => exact ih (h.intern name)

theorem sound_empty : NameTable.empty.Sound :=
  ⟨by decide, by simp [Has, size, NameTable.text, empty, Atom.empty]⟩

theorem Sound.unique (h : t.Sound) (hatom : t.Has atom name) (hatom' : t.Has atom' name) :
    atom = atom' := by
  obtain ⟨i⟩ := atom
  obtain ⟨j⟩ := atom'
  obtain ⟨hi, htext⟩ := hatom
  obtain ⟨hj, htext'⟩ := hatom'
  have hi : i < t.names.size := hi
  have hj : j < t.names.size := hj
  have heq : t.names.toList[i] = t.names.toList[j] := by
    simpa [NameTable.text, hi, hj] using htext.trans htext'.symm
  rw [(h.nodup.getElem_inj_iff).mp heq]

theorem Sound.get?_eq_some_iff (h : t.Sound) : t.get? name = some atom ↔ t.Has atom name := by
  refine ⟨has_of_get?, fun hatom => ?_⟩
  cases hget : t.get? name with
  | some atom' => rw [h.unique (has_of_get? hget) hatom]
  | none =>
    obtain ⟨hlt, rfl⟩ := hatom
    have hlt : atom.index < t.names.size := hlt
    have hmem : t.text atom ∈ t.names := by simp [NameTable.text, hlt]
    exact absurd hmem (not_mem_of_get?_eq_none hget)

end NameTable

namespace Arena

structure Named (a : Arena) : Prop where
  sound : a.names.Sound
  lt_size (n : NodeId) (node : Node) : a.nodes[n]? = some node → node.text.index < a.names.size

variable {a : Arena}

theorem Named.addNode (h : a.Named) (kind : Kind) (text : String) (location : Location) :
    (a.addNode kind text location).2.Named := by
  refine ⟨h.sound.intern text, fun n node hnode => ?_⟩
  rw [getElem?_addNode] at hnode
  split at hnode
  · cases hnode
    exact (a.names.has_intern text).1
  · have hhas : a.names.Has node.text (a.names.text node.text) := ⟨h.lt_size n node hnode, rfl⟩
    exact (hhas.intern text).1

theorem Named.join (h : a.Named) (m n : NodeId) : (a.join m n).Named := by
  refine ⟨h.sound, fun i node hnode => ?_⟩
  rw [getElem?_join, Option.map_eq_some_iff] at hnode
  obtain ⟨old, hold, rfl⟩ := hnode
  exact h.lt_size i old hold

theorem Named.setLocation (h : a.Named) (l : Link) (location : Location) :
    (a.setLocation l location).Named := by
  cases l with
  | none => exact h
  | some m =>
    refine ⟨h.sound, fun i node hnode => ?_⟩
    simp only [Arena.setLocation, modify, Array.getElem?_modify] at hnode
    split at hnode
    · obtain ⟨old, hold, rfl⟩ := Option.map_eq_some_iff.mp hnode
      exact h.lt_size i old hold
    · exact h.lt_size i node hnode

theorem Named.steps {b : Arena} {lost : List (NodeId × NodeId)} (h : a.Named)
    (hsteps : a.Steps b lost) : b.Named := by
  induction hsteps with
  | refl => exact h
  | addNode _ kind text location ih => exact ih.addNode kind text location
  | join _ m _ _ ih => exact ih.join m _
  | setLocation _ l location ih => exact ih.setLocation l location

theorem named_empty : empty.Named := by
  have hnodes : empty.nodes = #[] := rfl
  refine ⟨NameTable.sound_empty.internAll _, fun n node hnode => ?_⟩
  simp [hnodes] at hnode

theorem named_after (ops : List Operation) : (empty.after ops).Named :=
  named_empty.steps (empty.steps_after ops)

/-! ### Comparing texts -/

theorem Named.has_text (h : a.Named) {n : Nat} (hn : n < a.size) :
    a.names.Has (a.atom (some n)) (a.text (some n)) := by
  obtain ⟨node, hnode⟩ : ∃ node, a.nodes[n]? = some node := ⟨_, Array.getElem?_eq_getElem hn⟩
  have hown : a.atom (some n) = node.text := by simp [Arena.atom, get?, hnode]
  exact ⟨hown ▸ h.lt_size n node hnode, rfl⟩

/-! ### Texts of nodes -/

theorem atom_addNode (a : Arena) (kind : Kind) (text : String) (location : Location) {n : Nat}
    (hn : n < a.size) : (a.addNode kind text location).2.atom (some n) = a.atom (some n) := by
  have hnode := getElem?_addNode a kind text location n
  rw [if_neg (Nat.ne_of_lt hn)] at hnode
  simp [atom, get?, hnode]

theorem atom_join (a : Arena) (m n i : Nat) : (a.join m n).atom (some i) = a.atom (some i) := by
  simp only [atom, get?, Option.bind_some, getElem?_join]
  cases a.nodes[i]? <;> rfl

theorem atom_setLocation (a : Arena) (l : Link) (location : Location) (i : Nat) :
    (a.setLocation l location).atom (some i) = a.atom (some i) := by
  cases l with
  | none => rfl
  | some m =>
    simp only [atom, get?, Option.bind_some, setLocation, modify, Array.getElem?_modify]
    split
    · cases a.nodes[i]? <;> rfl
    · rfl

@[simp]
theorem names_setLocation (a : Arena) (l : Link) (location : Location) :
    (a.setLocation l location).names = a.names := by
  cases l <;> rfl

@[simp]
theorem size_setLocation (a : Arena) (l : Link) (location : Location) :
    (a.setLocation l location).size = a.size := by
  cases l <;> simp [setLocation, modify, size]

theorem text_addNode (h : a.Named) (kind : Kind) (text : String) (location : Location) {n : Nat}
    (hn : n ≤ a.size) : (a.addNode kind text location).2.text (some n) =
      if n = a.size then text else a.text (some n) := by
  by_cases hlast : n = a.size
  · have hnode := getElem?_addNode a kind text location n
    rw [if_pos hlast] at hnode ⊢
    have hatom : (a.addNode kind text location).2.atom (some n) = (a.names.intern text).1 := by
      simp [atom, get?, hnode]
    rw [Arena.text, hatom]
    exact (a.names.has_intern text).2
  · have hlt : n < a.size := Nat.lt_of_le_of_ne hn hlast
    rw [if_neg hlast, Arena.text, atom_addNode a kind text location hlt]
    exact ((h.has_text hlt).intern text).2

theorem text_join (a : Arena) (m n i : Nat) : (a.join m n).text (some i) = a.text (some i) := by
  rw [Arena.text, atom_join]
  rfl

theorem text_setLocation (a : Arena) (l : Link) (location : Location) (i : Nat) :
    (a.setLocation l location).text (some i) = a.text (some i) := by
  rw [Arena.text, atom_setLocation, names_setLocation]
  rfl

section Compare

variable {atom : Atom} {name : String} {n : Nat} (h : a.Named) (hatom : a.names.Has atom name)
include h hatom

theorem Named.atom_eq_iff (hn : n < a.size) :
    a.atom (some n) = atom ↔ a.text (some n) = name := by
  constructor
  · intro heq
    rw [text, heq]
    exact hatom.2
  · intro heq
    exact h.sound.unique (heq ▸ h.has_text hn) hatom

theorem Named.ne_empty (hname : name ≠ "") : atom ≠ .empty := by
  rintro rfl
  exact hname (hatom.2.symm.trans h.sound.has_empty.2)

theorem Named.get?_eq_some_iff (other : String) :
    a.names.get? other = some atom ↔ other = name := by
  rw [h.sound.get?_eq_some_iff]
  constructor
  · intro hother
    exact hother.2.symm.trans hatom.2
  · rintro rfl
    exact hatom

/-- A node is named by the atom of its name. -/
theorem Named.nameAtom_eq_iff (hname : name ≠ "") (l : Link) :
    a.nameAtom l = atom ↔ a.name? l = some name := by
  rw [nameAtom, name?]
  cases hchild : a.firstChild l .ident with
  | none => simpa [Arena.atom, get?] using (h.ne_empty hatom hname).symm
  | some c =>
    have hkind : a.kind? (some c) = some .ident := by
      simpa [Arena.is] using List.find?_some hchild
    rw [h.atom_eq_iff hatom (lt_size_of_kind? hkind), Option.map_some, Option.some.injEq]

end Compare

end Arena

end PonyLens
