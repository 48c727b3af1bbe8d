import Mathlib.Data.List.Nodup
import PonyLens.Proofs.Arena.Operations

/-!
# Links between parents and children

The child list of a node and the parents that its children know say the same, whatever is done to an
arena, with one exception: a node may be attached to a number that no node has yet. Then it knows a
parent that does not know it, also after the number has been given to a node.
-/

namespace PonyLens.Arena

/-- Whether parents and children know each other, except for the pairs that are listed: there the
child knows the parent only. -/
structure Linked (a : Arena) (lost : List (NodeId × NodeId)) : Prop where
  parent_iff (c p : NodeId) :
    a.parent (some c) = some p ↔ c ∈ a.children (some p) ∨ (c, p) ∈ lost
  not_mem (c p : NodeId) : (c, p) ∈ lost → c ∉ a.children (some p)
  nodup (p : NodeId) : (a.children (some p)).Nodup

variable {a b : Arena} {lost lost' : List (NodeId × NodeId)} {m n c p : Nat} {node : Node}

/-! ### Parents and children after one step -/

theorem parent_addNode (a : Arena) (kind : Kind) (text : String) (location : Location) (n : Nat) :
    (a.addNode kind text location).2.parent (some n) = a.parent (some n) := by
  simp only [parent, get?, Option.bind_some, getElem?_addNode]
  split
  · subst n
    simp [size]
  · rfl

theorem children_addNode (a : Arena) (kind : Kind) (text : String) (location : Location)
    (n : Nat) :
    (a.addNode kind text location).2.children (some n) = a.children (some n) := by
  simp only [children, get?, Option.bind_some, getElem?_addNode]
  split
  · subst n
    simp [size]
  · rfl

theorem parent_setLocation (a : Arena) (l : Link) (location : Location) (n : Nat) :
    (a.setLocation l location).parent (some n) = a.parent (some n) := by
  cases l with
  | none => rfl
  | some m =>
    simp only [parent, get?, Option.bind_some, setLocation, modify, Array.getElem?_modify]
    split
    · cases a.nodes[n]? <;> rfl
    · rfl

theorem children_setLocation (a : Arena) (l : Link) (location : Location) (n : Nat) :
    (a.setLocation l location).children (some n) = a.children (some n) := by
  cases l with
  | none => rfl
  | some m =>
    simp only [children, get?, Option.bind_some, setLocation, modify, Array.getElem?_modify]
    split
    · cases a.nodes[n]? <;> rfl
    · rfl

theorem parent_join (hnode : a.nodes[n]? = some node) (m c : Nat) :
    (a.join m n).parent (some c) = if c = n then some m else a.parent (some c) := by
  simp only [parent, get?, Option.bind_some, getElem?_join]
  split
  · subst c
    simp [hnode]
  · cases a.nodes[c]? <;> rfl

theorem children_join (a : Arena) (m n p : Nat) :
    (a.join m n).children (some p) =
      if p = m ∧ m < a.size then a.children (some p) ++ [n] else a.children (some p) := by
  simp only [children, get?, Option.bind_some, getElem?_join]
  cases hp : a.nodes[p]? with
  | none =>
    have hle : ¬(p = m ∧ m < a.size) := by
      rintro ⟨rfl, hlt⟩
      exact absurd hlt (Nat.not_lt.mpr (Array.getElem?_eq_none_iff.mp hp))
    simp [hle]
  | some node =>
    have hlt : p < a.size := (Array.getElem?_eq_some_iff.mp hp).1
    by_cases hm : p = m
    · subst p
      simp [hlt]
    · simp [hm]

/-! ### Steps -/

theorem linked_empty : empty.Linked [] := by
  have hnodes : empty.nodes = #[] := rfl
  refine ⟨fun c p => ?_, fun c p h => ?_, fun p => ?_⟩
  · simp [parent, children, get?, hnodes]
  · simp at h
  · simp [children, get?, hnodes]

theorem Linked.congr (h : a.Linked lost) (hparent : ∀ n, b.parent (some n) = a.parent (some n))
    (hchildren : ∀ n, b.children (some n) = a.children (some n)) : b.Linked lost := by
  refine ⟨fun c p => ?_, fun c p hmem => ?_, fun p => ?_⟩
  · rw [hparent, hchildren]
    exact h.parent_iff c p
  · rw [hchildren]
    exact h.not_mem c p hmem
  · rw [hchildren]
    exact h.nodup p

theorem Linked.addNode (h : a.Linked lost) (kind : Kind) (text : String) (location : Location) :
    (a.addNode kind text location).2.Linked lost :=
  h.congr (a.parent_addNode kind text location) (a.children_addNode kind text location)

/-- A node without a parent becomes a child. The two know each other if the parent exists. -/
theorem Linked.join (h : a.Linked lost) (m : Nat) (hnode : a.nodes[n]? = some node)
    (hparent : node.parent = none) :
    (a.join m n).Linked (lost ++ if a.size ≤ m then [(n, m)] else []) := by
  have hfree : a.parent (some n) = none := by simp [parent, get?, hnode, hparent]
  have hnew (p : Nat) : n ∉ a.children (some p) ∧ (n, p) ∉ lost := by
    rw [← not_or, ← h.parent_iff, hfree]
    exact Option.some_ne_none p ∘ Eq.symm
  have hold {c : Nat} (hc : c ≠ n) (p : Nat) :
      (c ∈ (a.join m n).children (some p) ↔ c ∈ a.children (some p)) ∧
      ((c, p) ∈ lost ++ (if a.size ≤ m then [(n, m)] else []) ↔ (c, p) ∈ lost) := by
    rw [children_join]
    constructor
    · split <;> simp [hc]
    · split <;> simp [hc]
  have hjoined (p : Nat) :
      (n ∈ (a.join m n).children (some p) ↔ p = m ∧ m < a.size) ∧
      ((n, p) ∈ lost ++ (if a.size ≤ m then [(n, m)] else []) ↔ p = m ∧ a.size ≤ m) := by
    rw [children_join]
    constructor
    · split <;> simp_all
    · split <;> simp_all
  refine ⟨fun c p => ?_, fun c p hmem => ?_, fun p => ?_⟩
  · rw [parent_join hnode]
    by_cases hc : c = n
    · subst c
      rw [if_pos rfl, (hjoined p).1, (hjoined p).2, ← and_or_left, Option.some.injEq]
      simp [Nat.lt_or_ge m a.size, eq_comm]
    · rw [if_neg hc, (hold hc p).1, (hold hc p).2]
      exact h.parent_iff c p
  · by_cases hc : c = n
    · subst c
      have hle := ((hjoined p).2.mp hmem).2
      rw [(hjoined p).1]
      exact fun hlt => absurd hlt.2 (Nat.not_lt.mpr hle)
    · rw [(hold hc p).1]
      exact h.not_mem c p ((hold hc p).2.mp hmem)
  · rw [children_join]
    split
    · have hdisjoint : ∀ c ∈ a.children (some p), c ≠ n := by
        rintro c hc rfl
        exact (hnew p).1 hc
      simpa [List.nodup_append, h.nodup p] using hdisjoint
    · exact h.nodup p

/-- Steps keep all links as they should be, except for what they strand. -/
theorem Linked.steps (h : a.Linked lost) (hsteps : a.Steps b lost') :
    b.Linked (lost ++ lost') := by
  induction hsteps with
  | refl => rwa [List.append_nil]
  | addNode _ kind text location ih => exact ih.addNode kind text location
  | join _ m hnode hparent ih =>
    rw [← List.append_assoc]
    exact ih.join m hnode hparent
  | setLocation _ l location ih =>
    exact ih.congr (parent_setLocation _ l location) (children_setLocation _ l location)

theorem linked_after (ops : List Operation) : (empty.after ops).Linked (empty.stranded ops) :=
  linked_empty.steps (empty.steps_after ops)

theorem Linked.nodup_children (h : a.Linked lost) :
    ((List.range a.size).flatMap fun p => a.children (some p)).Nodup := by
  rw [List.nodup_flatMap]
  refine ⟨fun p _ => h.nodup p, List.nodup_range.imp fun {p q} hne => ?_⟩
  intro c hp hq
  have hparent := (h.parent_iff c p).mpr (.inl hp)
  have hparent' := (h.parent_iff c q).mpr (.inl hq)
  exact hne (Option.some.inj (hparent.symm.trans hparent'))

/-- After any operations parents and children know each other exactly if no node was attached to a
number without a node. The nodes for which that was done are the ones that know a parent in vain.
No node is ever a child twice. -/
theorem links_agree_iff (ops : List Operation) :
    ((∀ c p, (empty.after ops).parent (some c) = some p ↔
        c ∈ (empty.after ops).children (some p)) ↔ empty.stranded ops = []) ∧
    (∀ c p, (empty.after ops).parent (some c) = some p ↔
      c ∈ (empty.after ops).children (some p) ∨ (c, p) ∈ empty.stranded ops) ∧
    ((List.range (empty.after ops).size).flatMap fun p =>
      (empty.after ops).children (some p)).Nodup := by
  have hlinked := linked_after ops
  refine ⟨⟨fun hagree => ?_, fun hnone c p => ?_⟩, hlinked.parent_iff, hlinked.nodup_children⟩
  · rw [List.eq_nil_iff_forall_not_mem]
    rintro ⟨c, p⟩ hmem
    have hparent := (hlinked.parent_iff c p).mpr (.inr hmem)
    exact hlinked.not_mem c p hmem ((hagree c p).mp hparent)
  · have hiff := hlinked.parent_iff c p
    rwa [hnone, or_iff_left List.not_mem_nil] at hiff

/-- A node that was attached to a number before the number was given away. -/
theorem parent_unaware_of_child :
    ((empty.after [.addNode .other "x" .unknown, .appendChild (some 1) (some 0),
        .addNode .other "x" .unknown]).parent (some 0) = some 1) ∧
      (empty.after [.addNode .other "x" .unknown, .appendChild (some 1) (some 0),
        .addNode .other "x" .unknown]).kind? (some 1) = some .other ∧
      (empty.after [.addNode .other "x" .unknown, .appendChild (some 1) (some 0),
        .addNode .other "x" .unknown]).children (some 1) = [] := by
  decide

end PonyLens.Arena
