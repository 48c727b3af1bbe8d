import PonyLens.Proofs.Dump.Shape

/-!
# Trees in an arena

When a node holds a tree. The nodes below it come after it in the order of creation and know their
parents. A node that has a parent is settled: what is added to the arena later leaves it alone. Only
a node without a parent may still get children or become one.
-/

namespace PonyLens

namespace NameTable

def Has (t : NameTable) (atom : Atom) (text : String) : Prop :=
  atom.index < t.size ∧ t.text atom = text

variable {t : NameTable} {atom : Atom} {text : String}

theorem has_of_get? (h : t.get? text = some atom) : t.Has atom text := by
  obtain ⟨⟨names⟩⟩ := t
  obtain ⟨i, hi, rfl⟩ := Option.map_eq_some_iff.mp h
  rw [List.idxOf?_toArray, List.idxOf?_eq_some_iff] at hi
  obtain ⟨hlt, htext, _⟩ := hi
  exact ⟨hlt, by simpa [NameTable.text, hlt] using htext⟩

theorem has_intern (t : NameTable) (text : String) :
    (t.intern text).2.Has (t.intern text).1 text := by
  rw [intern]
  split
  · exact has_of_get? ‹_›
  · simp [Has, size, NameTable.text]

theorem Has.intern (h : t.Has atom text) (name : String) : (t.intern name).2.Has atom text := by
  rw [NameTable.intern]
  split
  · exact h
  · obtain ⟨hlt, htext⟩ := h
    have hne : atom.index ≠ t.names.size := Nat.ne_of_lt hlt
    refine ⟨by simpa [size] using Nat.lt_succ_of_lt hlt, ?_⟩
    rw [← htext, NameTable.text, NameTable.text]
    simp [Array.getElem?_push, hne]

end NameTable

namespace Arena

/-- What the arena keeps about a node, its place aside. -/
def HasNode (a : Arena) (n : NodeId) (kind : Kind) (text : String) (parent : Link)
    (children : List NodeId) : Prop :=
  ∃ atom location, a.nodes[n]? = some ⟨kind, atom, location, parent, children⟩ ∧
    a.names.Has atom text

mutual

/-- Whether a node with this parent holds the tree. -/
def Holds (a : Arena) (n : NodeId) (parent : Link) : Tree → Prop
  | .node kind text children => ∃ ids, a.HasNode n kind text parent ids ∧ (∀ m ∈ ids, n < m) ∧
      a.HoldsAll n ids children

def HoldsAll (a : Arena) (parent : NodeId) : List NodeId → List Tree → Prop
  | [], [] => True
  | n :: ids, t :: ts => a.Holds n (some parent) t ∧ a.HoldsAll parent ids ts
  | _, _ => False

end

/-- Whether the settled nodes of an arena are in another one as well. -/
def Extends (a a' : Arena) : Prop :=
  ∀ n kind text parent ids,
    a.HasNode n kind text (some parent) ids → a'.HasNode n kind text (some parent) ids

variable {a a' : Arena} {n m parent : NodeId} {kind : Kind} {text : String} {link : Link}
  {ids : List NodeId} {t : Tree} {ts : List Tree}

theorem HasNode.lt_size (h : a.HasNode n kind text link ids) : n < a.size := by
  obtain ⟨_, _, hget, _⟩ := h
  exact (Array.getElem?_eq_some_iff.mp hget).1

theorem HoldsAll.imp (h : a.HoldsAll parent ids ts)
    (himp : ∀ t ∈ ts, ∀ n, a.Holds n (some parent) t → a'.Holds n (some parent) t) :
    a'.HoldsAll parent ids ts := by
  induction ts generalizing ids with
  | nil => cases ids with
    | nil => exact h
    | cons n ids => exact h
  | cons t ts ih => cases ids with
    | nil => exact h
    | cons n ids =>
      exact ⟨himp t List.mem_cons_self n h.1,
        ih h.2 fun u hu => himp u (List.mem_cons_of_mem t hu)⟩

theorem HoldsAll.exists_mem (h : a.HoldsAll parent ids ts) (ht : t ∈ ts) :
    ∃ n ∈ ids, a.Holds n (some parent) t := by
  induction ts generalizing ids with
  | nil => exact absurd ht List.not_mem_nil
  | cons u ts ih => cases ids with
    | nil => exact h.elim
    | cons n ids =>
      rcases List.mem_cons.mp ht with rfl | ht
      · exact ⟨n, List.mem_cons_self, h.1⟩
      · obtain ⟨m, hm, hholds⟩ := ih h.2 ht
        exact ⟨m, List.mem_cons_of_mem n hm, hholds⟩

theorem HoldsAll.append (h : a.HoldsAll parent ids ts) (hn : a.Holds n (some parent) t) :
    a.HoldsAll parent (ids ++ [n]) (ts ++ [t]) := by
  induction ts generalizing ids with
  | nil => cases ids with
    | nil => exact ⟨hn, trivial⟩
    | cons m ids => exact h.elim
  | cons u ts ih => cases ids with
    | nil => exact h.elim
    | cons m ids => exact ⟨h.1, ih h.2⟩

theorem HoldsAll.filterMap_eq {f : NodeId → Option Tree} (h : a.HoldsAll parent ids ts)
    (hf : ∀ t ∈ ts, ∀ n, a.Holds n (some parent) t → f n = some t) : ids.filterMap f = ts := by
  induction ts generalizing ids with
  | nil => cases ids with
    | nil => rfl
    | cons n ids => exact h.elim
  | cons t ts ih => cases ids with
    | nil => exact h.elim
    | cons n ids =>
      rw [List.filterMap_cons_some (hf t List.mem_cons_self n h.1),
        ih h.2 fun u hu => hf u (List.mem_cons_of_mem t hu)]

/-- A tree stays where it is if its first node does and the settled nodes do. -/
theorem Holds.of_hasNode {link' : Link} (h : a.Holds n link t) (hext : a.Extends a')
    (hnode : ∀ kind text ids, a.HasNode n kind text link ids → a'.HasNode n kind text link' ids) :
    a'.Holds n link' t := by
  induction t using Tree.induct generalizing n link link' with
  | node kind text ts ih =>
    obtain ⟨ids, hfirst, hlt, hall⟩ := h
    exact ⟨ids, hnode kind text ids hfirst, hlt, hall.imp fun t ht m hm =>
      ih t ht hm fun kind text ids => hext m kind text n ids⟩

/-- A tree has at most as many levels as there are nodes from its first one on. -/
theorem Holds.height_add_le (h : a.Holds n link t) : t.height + n ≤ a.size := by
  induction t using Tree.induct generalizing n link with
  | node kind text ts ih =>
    obtain ⟨ids, hfirst, hlt, hall⟩ := h
    have hsize := Nat.succ_le_of_lt hfirst.lt_size
    have hheight : (Tree.node kind text ts).height ≤ a.size - n - 1 + 1 := by
      rw [Tree.height_node_le_iff]
      intro t ht
      obtain ⟨m, hm, hholds⟩ := hall.exists_mem ht
      have hle := ih t ht hholds
      have hnm := Nat.succ_le_of_lt (hlt m hm)
      omega
    omega

theorem Holds.treeWithin_eq (h : a.Holds n link t) {levels : Nat} (hlevels : t.height ≤ levels) :
    a.treeWithin levels n = some t := by
  induction t using Tree.induct generalizing n link levels with
  | node kind text ts ih =>
    obtain ⟨ids, ⟨atom, location, hget, _, htext⟩, _, hall⟩ := h
    cases levels with
    | zero => simp [Tree.height] at hlevels
    | succ levels =>
      rw [Tree.height_node_le_iff] at hlevels
      have hchildren : ids.filterMap (a.treeWithin levels) = ts :=
        hall.filterMap_eq fun t ht m hm => ih t ht hm (hlevels t ht)
      simp only [treeWithin, get?, Option.bind_some, hget, Option.map_some, htext, hchildren]

theorem Holds.tree?_eq (h : a.Holds n link t) : a.tree? (some n) = some t := by
  have hheight := h.height_add_le
  exact h.treeWithin_eq (by omega)

theorem Holds.lt_size (h : a.Holds n link t) : n < a.size := by
  obtain ⟨kind, text, ts⟩ := t
  obtain ⟨ids, hnode, _⟩ := h
  exact hnode.lt_size

theorem Holds.kind?_eq (h : a.Holds n link t) : a.kind? (some n) = some t.kind := by
  obtain ⟨kind, text, ts⟩ := t
  obtain ⟨ids, ⟨atom, location, hget, _⟩, _⟩ := h
  simp [kind?, get?, hget, Tree.kind]

theorem Holds.isA_eq (h : a.Holds n link t) (p : Kind → Bool) :
    a.isA (some n) p = p t.kind := by
  rw [isA, h.kind?_eq, Option.any_some]

theorem Holds.is_child_zero (h : a.Holds n link (.node kind text ts)) (k : Kind) :
    a.is (a.child (some n) 0) k = ts.head?.any (·.kind == k) := by
  obtain ⟨ids, ⟨atom, location, hget, _⟩, _, hall⟩ := h
  have hchild : a.child (some n) 0 = ids[0]? := by simp [child, children, get?, hget]
  cases ids with
  | nil => cases ts with
    | nil => simp [hchild, is, kind?, get?]
    | cons t ts => exact hall.elim
  | cons m ids => cases ts with
    | nil => exact hall.elim
    | cons t ts => simp [hchild, is, hall.1.kind?_eq, beq_eq_decide]

/-! ### Construction -/

theorem holds_addNode (a : Arena) (kind : Kind) (text : String) (location : Location) :
    (a.addNode kind text location).2.Holds a.size none (.node kind text []) := by
  refine ⟨[], ⟨(a.names.intern text).1, location, ?_, NameTable.has_intern a.names text⟩, ?_, ?_⟩
  · simp [addNode, size]
  · simp
  · simp [HoldsAll]

theorem HasNode.addNode (h : a.HasNode n kind text link ids) (kind' : Kind) (text' : String)
    (location' : Location) :
    (a.addNode kind' text' location').2.HasNode n kind text link ids := by
  have hne : n ≠ a.nodes.size := Nat.ne_of_lt h.lt_size
  obtain ⟨atom, location, hget, hatom⟩ := h
  refine ⟨atom, location, ?_, hatom.intern text'⟩
  simp [Arena.addNode, Array.getElem?_push, hne, hget]

theorem Holds.addNode (h : a.Holds n link t) (kind' : Kind) (text' : String)
    (location' : Location) : (a.addNode kind' text' location').2.Holds n link t :=
  h.of_hasNode (fun _ _ _ _ _ hm => hm.addNode kind' text' location')
    fun _ _ _ hn => hn.addNode kind' text' location'

theorem HasNode.link_eq {kind' : Kind} {text' : String} {link' : Link} {ids' : List NodeId}
    (h : a.HasNode n kind text link ids) (h' : a.HasNode n kind' text' link' ids') :
    link = link' := by
  obtain ⟨_, _, hget, _⟩ := h
  obtain ⟨_, _, hget', _⟩ := h'
  rw [hget] at hget'
  cases hget'
  rfl

def join (a : Arena) (m n : NodeId) : Arena :=
  (a.modify (some m) fun p => { p with children := p.children ++ [n] }).modify (some n)
    fun c => { c with parent := some m }

theorem appendChild_eq_join {node : Node} (m : NodeId) (hnode : a.nodes[n]? = some node)
    (hparent : node.parent = none) : a.appendChild (some m) (some n) = .ok (a.join m n) := by
  obtain ⟨kind, text, location, parent, children⟩ := node
  cases hparent
  simp only [appendChild, get?, Option.bind_some, hnode]
  rfl

theorem HasNode.appendChild_eq (h : a.HasNode n kind text none ids) (m : NodeId) :
    a.appendChild (some m) (some n) = .ok (a.join m n) := by
  obtain ⟨atom, location, hget, _⟩ := h
  exact appendChild_eq_join m hget rfl

theorem Holds.appendChild_eq (h : a.Holds n none t) (m : NodeId) :
    a.appendChild (some m) (some n) = .ok (a.join m n) := by
  obtain ⟨kind, text, ts⟩ := t
  obtain ⟨ids, hnode, _⟩ := h
  exact hnode.appendChild_eq m

theorem HasNode.join_parent (h : a.HasNode m kind text link ids) (hne : n ≠ m) :
    (a.join m n).HasNode m kind text link (ids ++ [n]) := by
  obtain ⟨atom, location, hget, hatom⟩ := h
  exact ⟨atom, location, by simp [join, modify, Array.getElem?_modify, hne, hget], hatom⟩

theorem HasNode.join_child (h : a.HasNode n kind text link ids) (hne : n ≠ m) :
    (a.join m n).HasNode n kind text (some m) ids := by
  obtain ⟨atom, location, hget, hatom⟩ := h
  exact ⟨atom, location, by simp [join, modify, Array.getElem?_modify, hne.symm, hget], hatom⟩

theorem HasNode.join_other {k : NodeId} (h : a.HasNode k kind text link ids) (hm : k ≠ m)
    (hn : k ≠ n) : (a.join m n).HasNode k kind text link ids := by
  obtain ⟨atom, location, hget, hatom⟩ := h
  exact ⟨atom, location,
    by simp [join, modify, Array.getElem?_modify, hm.symm, hn.symm, hget], hatom⟩

section Join

variable {u : Tree} (hm : a.Holds m none (.node kind text ts)) (hn : a.Holds n none t)
include hm hn

theorem extends_join : a.Extends (a.join m n) := by
  obtain ⟨_, hnodem, _, _⟩ := hm
  obtain ⟨_, _, _⟩ := t
  obtain ⟨_, hnoden, _, _⟩ := hn
  intro k kind text parent ids hk
  refine hk.join_other ?_ ?_
  · rintro rfl
    cases hk.link_eq hnodem
  · rintro rfl
    cases hk.link_eq hnoden

theorem holds_join_settled {k : NodeId} (hk : a.Holds k (some parent) u) :
    (a.join m n).Holds k (some parent) u :=
  hk.of_hasNode (extends_join hm hn) fun kind text ids =>
    extends_join hm hn k kind text parent ids

theorem holds_join_other {k : NodeId} (hk : a.Holds k none u) (hkm : k ≠ m) (hkn : k ≠ n) :
    (a.join m n).Holds k none u :=
  hk.of_hasNode (extends_join hm hn) fun _ _ _ h => h.join_other hkm hkn

theorem holds_join (hmn : m < n) : (a.join m n).Holds m none (.node kind text (ts ++ [t])) := by
  have hne : n ≠ m := Nat.ne_of_gt hmn
  have hchild : (a.join m n).Holds n (some m) t :=
    hn.of_hasNode (extends_join hm hn) fun _ _ _ h => h.join_child hne
  obtain ⟨ids, hnode, hlt, hall⟩ := id hm
  refine ⟨ids ++ [n], hnode.join_parent hne, ?_, ?_⟩
  · intro k hk
    rcases List.mem_append.mp hk with hk | hk
    · exact hlt k hk
    · rwa [List.mem_singleton.mp hk]
  · exact (hall.imp fun _ _ _ hk => holds_join_settled hm hn hk).append hchild

end Join

end Arena

end PonyLens
