import PonyLens.Proofs.Dump.Storage
import PonyLens.Types.Cache

/-!
# Arenas that grow

A reader only ever adds nodes and joins nodes that it has added. What an arena held before stays as
it was, and what a reader adds does not depend on it: two arenas that get the same nodes hold them
in the same order, under numbers that differ by the size the arenas had before.
-/

namespace PonyLens

/-- Whether the nodes are the same but for their numbers, which are `k` higher in the first one.
Each has an atom for the text from its own table. -/
structure Node.Shifted (k : Nat) (names names' : NameTable) (node node' : Node) : Prop where
  kind : node.kind = node'.kind
  text : ∃ text, names.Has node.text text ∧ names'.Has node'.text text
  location : node.location = node'.location
  parent : node.parent = node'.parent.map (k + ·)
  children : node.children = node'.children.map (k + ·)

namespace Arena

/-- Whether the second arena is the first one after nodes were added and joined. A node that becomes
a child is younger than its parent, and both are new. -/
inductive Grows (a : Arena) : Arena → Prop
  | refl : Grows a a
  | addNode {b : Arena} (h : Grows a b) (kind : Kind) (text : String) (location : Location) :
    Grows a (b.addNode kind text location).2
  | join {b : Arena} {m n : NodeId} {node : Node} (h : Grows a b) (hm : a.size ≤ m) (hmn : m < n)
    (hnode : b.nodes[n]? = some node) (hparent : node.parent = none) : Grows a (b.join m n)

structure HoldsFrom (a : Arena) (k : Nat) (b : Arena) : Prop where
  size_eq : a.size = k + b.size
  rel_node (i : NodeId) : Option.Rel (Node.Shifted k a.names b.names) a.nodes[k + i]? b.nodes[i]?

variable {a b : Arena} {k m n i : Nat} {node : Node}

/-! ### The two steps -/

@[simp]
theorem size_addNode (a : Arena) (kind : Kind) (text : String) (location : Location) :
    (a.addNode kind text location).2.size = a.size + 1 := by
  simp [addNode, size]

theorem getElem?_addNode (a : Arena) (kind : Kind) (text : String) (location : Location)
    (i : Nat) :
    (a.addNode kind text location).2.nodes[i]? =
      if i = a.size then some { kind, text := (a.names.intern text).1, location }
      else a.nodes[i]? :=
  Array.getElem?_push

@[simp]
theorem size_join (a : Arena) (m n : NodeId) : (a.join m n).size = a.size := by
  simp [join, modify, size]

@[simp]
theorem names_join (a : Arena) (m n : NodeId) : (a.join m n).names = a.names := rfl

theorem getElem?_join (a : Arena) (m n i : NodeId) :
    (a.join m n).nodes[i]? = a.nodes[i]?.map fun node =>
      { node with
        parent := if i = n then some m else node.parent
        children := if i = m then node.children ++ [n] else node.children } := by
  simp only [join, modify, Array.getElem?_modify]
  cases a.nodes[i]? with
  | none => split <;> split <;> rfl
  | some node => split <;> split <;> simp_all [eq_comm]

/-! ### What was there before -/

theorem Grows.size_le (h : a.Grows b) : a.size ≤ b.size := by
  induction h with
  | refl => exact Nat.le_refl a.size
  | addNode _ _ _ _ ih => simpa using Nat.le_succ_of_le ih
  | join _ _ _ _ _ ih => simpa using ih

theorem Grows.getElem?_eq (h : a.Grows b) (hi : i < a.size) : b.nodes[i]? = a.nodes[i]? := by
  induction h with
  | refl => rfl
  | addNode h kind text location ih =>
    have hne : i ≠ _ := Nat.ne_of_lt (Nat.lt_of_lt_of_le hi h.size_le)
    rw [getElem?_addNode, if_neg hne, ih]
  | @join b m n node h hm hmn _ _ ih =>
    have hne : i ≠ m := Nat.ne_of_lt (Nat.lt_of_lt_of_le hi hm)
    have hne' : i ≠ n := Nat.ne_of_lt (Nat.lt_trans (Nat.lt_of_lt_of_le hi hm) hmn)
    simp [getElem?_join, hne, hne', ih]

theorem Grows.has {atom : Atom} {text : String} (h : a.Grows b) (hatom : a.names.Has atom text) :
    b.names.Has atom text := by
  induction h with
  | refl => exact hatom
  | addNode _ _ text' _ ih => exact ih.intern text'
  | join _ _ _ _ _ ih => exact ih

theorem Grows.bind_eq (h : a.Grows b) (hi : i < a.size) (c : Cache) (target : Link) :
    c.bind b (some i) target = c.bind a (some i) target := by
  simp only [Cache.bind, get?, Option.bind_some, h.getElem?_eq hi]

/-! ### What is new -/

theorem holdsFrom_empty (a : Arena) : a.HoldsFrom a.size empty := by
  have hnodes : empty.nodes = #[] := rfl
  refine ⟨by simp [size, hnodes], fun i => ?_⟩
  simp [hnodes, size]

theorem HoldsFrom.addNode (h : a.HoldsFrom k b) (kind : Kind) (text : String)
    (location : Location) :
    (a.addNode kind text location).2.HoldsFrom k (b.addNode kind text location).2 := by
  refine ⟨by simp [h.size_eq, Nat.add_assoc], fun i => ?_⟩
  have hiff : k + i = a.size ↔ i = b.size := by rw [h.size_eq, Nat.add_left_cancel_iff]
  simp only [getElem?_addNode, hiff]
  split
  · exact .some ⟨rfl, ⟨text, a.names.has_intern text, b.names.has_intern text⟩, rfl, rfl, rfl⟩
  · have hrel := h.rel_node i
    generalize a.nodes[k + i]? = node, b.nodes[i]? = node' at hrel ⊢
    cases hrel with
    | none => exact .none
    | some hnode =>
      obtain ⟨text', htext, htext'⟩ := hnode.text
      exact .some { hnode with text := ⟨text', htext.intern text, htext'.intern text⟩ }

theorem HoldsFrom.join (h : a.HoldsFrom k b) (m n : NodeId) :
    (a.join (k + m) (k + n)).HoldsFrom k (b.join m n) := by
  refine ⟨by simpa using h.size_eq, fun i => ?_⟩
  simp only [getElem?_join, Nat.add_left_cancel_iff, names_join]
  have hrel := h.rel_node i
  generalize a.nodes[k + i]? = node, b.nodes[i]? = node' at hrel ⊢
  cases hrel with
  | none => exact .none
  | some hnode =>
    refine .some { hnode with parent := ?_, children := ?_ }
    · dsimp only
      split
      · rfl
      · exact hnode.parent
    · dsimp only
      split
      · simp [hnode.children]
      · exact hnode.children

theorem HoldsFrom.exists_node (h : a.HoldsFrom k b) (hnode : a.nodes[k + i]? = some node) :
    ∃ node', b.nodes[i]? = some node' ∧ node.Shifted k a.names b.names node' := by
  have hrel := h.rel_node i
  rw [hnode] at hrel
  generalize b.nodes[i]? = node' at hrel ⊢
  obtain ⟨hshifted⟩ := hrel
  exact ⟨_, rfl, hshifted⟩

theorem HoldsFrom.get?_rel (h : a.HoldsFrom k b) (l : Link) :
    Option.Rel (Node.Shifted k a.names b.names) (a.get? (l.map (k + ·))) (b.get? l) := by
  cases l with
  | none => exact .none
  | some i => exact h.rel_node i

theorem HoldsFrom.kind?_eq (h : a.HoldsFrom k b) (l : Link) :
    a.kind? (l.map (k + ·)) = b.kind? l := by
  have hrel := h.get?_rel l
  rw [kind?, kind?]
  generalize a.get? (l.map (k + ·)) = node, b.get? l = node' at hrel ⊢
  cases hrel with
  | none => rfl
  | some hnode => exact congrArg some hnode.kind

theorem HoldsFrom.child_eq (h : a.HoldsFrom k b) (l : Link) (i : Nat) :
    a.child (l.map (k + ·)) i = (b.child l i).map (k + ·) := by
  have hrel := h.get?_rel l
  rw [child, child, children, children]
  generalize a.get? (l.map (k + ·)) = node, b.get? l = node' at hrel ⊢
  cases hrel with
  | none => rfl
  | some hnode => simp [hnode.children]

end Arena

end PonyLens
