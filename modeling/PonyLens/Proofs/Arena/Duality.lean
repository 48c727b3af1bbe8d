import PonyLens.Proofs.Arena.Acyclic
import PonyLens.Proofs.Arena.Walks

/-!
# The walk down and the way up

The walk down follows the child lists with a stack, the way up follows the parents. As long as nodes
are only attached to nodes that exist, and no cycle comes of it, both see the same trees: a node is
met on the walk down from a root exactly if the root is met on the way up from the node. Reading a
dump needs no such care, since its nodes are numbered downwards.
-/

namespace PonyLens.Arena

open Relation

/-- Whether parents and children know each other and no node leads back to itself. -/
structure Forest (a : Arena) : Prop where
  linked : a.Linked []
  acyclic : a.Acyclic

def Operation.attaches : Operation → Bool
  | .add .. | .appendChild .. => true
  | .read _ | .addNode .. | .setLocation .. => false

/-- Whether the operations attach nodes to nodes that exist only, and close no cycle. -/
def KeepsForest (a : Arena) : List Operation → Prop
  | [] => True
  | op :: ops => a.strands op = [] ∧ (op.attaches = true → (a.apply op).Acyclic) ∧
      (a.apply op).KeepsForest ops

variable {a b : Arena} {root m n c p : Nat} {path : List NodeId}

/-! ### Forests -/

theorem Linked.up_eq (h : a.Linked []) : a.Up = Function.swap a.Down := by
  funext c p
  simp [Up, Down, Function.swap, h.parent_iff c p]

theorem Linked.transGen_up_iff (h : a.Linked []) : TransGen a.Up n m ↔ TransGen a.Down m n := by
  rw [h.up_eq, transGen_swap]

/-- Where the links agree, a cycle of parents is a cycle of children. -/
theorem Linked.forest (h : a.Linked []) (hdown : ∀ n, ¬ TransGen a.Down n n) : a.Forest :=
  ⟨h, hdown, fun n hn => hdown n (h.transGen_up_iff.mp hn)⟩

theorem forest_empty : empty.Forest := by
  refine linked_empty.forest fun n hn => ?_
  have hdown {m n : Nat} : ¬ empty.Down m n := fun h => absurd h.lt_size (Nat.not_lt_zero m)
  cases hn with
  | single h => exact hdown h
  | tail _ h => exact hdown h

theorem Acyclic.congr (h : a.Acyclic) (hparent : ∀ n, b.parent (some n) = a.parent (some n))
    (hchildren : ∀ n, b.children (some n) = a.children (some n)) : b.Acyclic := by
  have hdown : b.Down = a.Down := by
    funext p c
    simp only [Down, hchildren]
  have hup : b.Up = a.Up := by
    funext c p
    simp only [Up, hparent]
  exact ⟨hdown ▸ h.down, hup ▸ h.up⟩

theorem Grows.lt_of_down (h : a.Grows b) (hp : a.size ≤ p) (hc : b.Down p c) : p < c := by
  induction h with
  | refl => exact absurd hc.lt_size (Nat.not_lt.mpr hp)
  | addNode _ kind text location ih => exact ih (by rwa [Down, children_addNode] at hc)
  | @join b m n node _ _ hmn _ _ ih =>
    rw [Down, children_join] at hc
    split at hc
    · rename_i hm
      rcases List.mem_append.mp hc with hc | hc
      · exact ih hc
      · rw [hm.1, List.mem_singleton.mp hc]
        exact hmn
    · exact ih hc

theorem Grows.down_iff (h : a.Grows b) (hp : p < a.size) : b.Down p c ↔ a.Down p c := by
  simp only [Down, children, get?, Option.bind_some, h.getElem?_eq hp]

/-- Where a way down in the grown arena starts with an old node, it has been there before. Where it
starts with a new one, the numbers on it go up. -/
theorem Grows.transGen_down (h : a.Grows b) (hlinked : a.Linked []) (hmn : TransGen b.Down m n) :
    (m < a.size → TransGen a.Down m n ∧ n < a.size) ∧ (a.size ≤ m → m < n) := by
  have hold {p c : Nat} (hp : p < a.size) (hc : b.Down p c) : a.Down p c ∧ c < a.size := by
    rw [h.down_iff hp] at hc
    exact ⟨hc, hlinked.lt_size hc⟩
  induction hmn with
  | single hc =>
    exact ⟨fun hm => (hold hm hc).imp_left .single, fun hm => h.lt_of_down hm hc⟩
  | tail _ hc ih =>
    constructor
    · intro hm
      obtain ⟨hway, hlt⟩ := ih.1 hm
      exact (hold hlt hc).imp_left hway.tail
    · intro hm
      have hlt := ih.2 hm
      exact Nat.lt_trans hlt (h.lt_of_down (Nat.le_trans hm (Nat.le_of_lt hlt)) hc)

theorem Grows.forest (h : a.Grows b) (hforest : a.Forest) : b.Forest := by
  have hlinked : b.Linked [] := hforest.linked.steps h.steps
  refine hlinked.forest fun n hn => ?_
  obtain ⟨hold, hnew⟩ := h.transGen_down hforest.linked hn
  rcases Nat.lt_or_ge n a.size with hlt | hle
  · exact hforest.acyclic.down n (hold hlt).1
  · exact Nat.lt_irrefl n (hnew hle)

/-- An operation that closes no cycle leaves a forest. -/
theorem Forest.apply (h : a.Forest) {op : Operation} (hstrands : a.strands op = [])
    (hattaches : op.attaches = true → (a.apply op).Acyclic) : (a.apply op).Forest := by
  have hlinked : (a.apply op).Linked [] := by
    have hsteps := h.linked.steps (a.steps_apply op)
    rwa [hstrands] at hsteps
  cases op with
  | read source => exact (Dump.grows_read a source).forest h
  | addNode kind text location =>
    exact ⟨hlinked, h.acyclic.congr (a.parent_addNode kind text location)
      (a.children_addNode kind text location)⟩
  | setLocation l location =>
    exact ⟨hlinked, h.acyclic.congr (parent_setLocation a l location)
      (children_setLocation a l location)⟩
  | add kind text children => exact ⟨hlinked, hattaches rfl⟩
  | appendChild parent child => exact ⟨hlinked, hattaches rfl⟩

theorem Forest.after (h : a.Forest) {ops : List Operation} (hops : a.KeepsForest ops) :
    (a.after ops).Forest := by
  induction ops generalizing a with
  | nil => exact h
  | cons op ops ih => exact ih (h.apply hops.1 hops.2.1) hops.2.2

/-! ### Walks in a forest -/

theorem exists_ancestry_iff (hroot : root < a.size) :
    (∃ path, a.Ancestry root n path) ↔ ReflTransGen a.Down root n := by
  constructor
  · rintro ⟨path, h⟩
    induction h with
    | root _ => exact .refl
    | child hn _ ih => exact ih.tail hn
  · intro h
    induction h with
    | refl => exact ⟨[], .root hroot⟩
    | tail _ hn ih =>
      obtain ⟨path, hpath⟩ := ih
      exact ⟨_, .child hn hpath⟩

theorem Acyclic.isTree (h : a.Acyclic) (hroot : root < a.size) : a.IsTree root := by
  intro n path hpath hchild
  have hway := (exists_ancestry_iff hroot).mp ⟨path, hpath⟩
  exact h.down root (TransGen.tail' hway hchild)

/-- Whatever is read, added and attached: if nodes are attached to nodes that exist and no cycle is
closed, the walk down from a node comes to an end and lists the tree below it in pre-order, without
repetitions, and the way up from a node comes to an end as well. The nodes on the walk down from a
root are the root and those that have it among their ancestors. -/
theorem mem_descendants_iff_mem_ancestors {ops : List Operation} (hops : empty.KeepsForest ops)
    (hroot : root < (empty.after ops).size) :
    (∀ walk, (empty.after ops).walkOnce^[(empty.after ops).size + 1] walk [root] =
      (empty.after ops).descendants (some root)) ∧
    (∀ above, (empty.after ops).parentAnd^[(empty.after ops).size + 1] above =
      (empty.after ops).ancestors) ∧
    (empty.after ops).PreOrder [root] ((empty.after ops).descendants (some root)) ∧
    ((empty.after ops).descendants (some root)).Nodup ∧
    ∀ n, n ∈ (empty.after ops).descendants (some root) ↔
      n = root ∨ root ∈ (empty.after ops).ancestors (some n) := by
  obtain ⟨hlinked, hacyclic⟩ := forest_empty.after hops
  have htree := hacyclic.isTree hroot
  obtain ⟨hpre, hnodup, hways⟩ := preOrder_descendants hlinked htree hroot
  have hlength := (empty.after ops).length_visit_le (empty.after ops).size [root]
  refine ⟨fun walk => hpre.iterate_walkOnce walk (Nat.lt_succ_of_le hlength),
    iterate_parentAnd hacyclic, hpre, hnodup, fun n => ?_⟩
  rw [mem_descendants_iff hlinked htree hroot, exists_ancestry_iff hroot,
    reflTransGen_iff_eq_or_transGen, mem_ancestors_iff hacyclic, hlinked.transGen_up_iff]

/-- A tree that was read, a node above it and one more below one of its nodes. -/
def regrown : List Operation :=
  [.read "(seq (id a) (seq x))", .add .call "" [some 0], .addNode .absent "" .unknown,
    .appendChild (some 2) (some 5)]

theorem mem_descendants_iff_mem_ancestors_regrown :
    empty.KeepsForest regrown ∧ 2 < (empty.after regrown).size ∧
      (empty.after regrown).descendants (some 2) = [2, 3, 5] ∧
      (empty.after regrown).ancestors (some 5) = [2, 0, 4] ∧
      (∀ walk, (empty.after regrown).walkOnce^[7] walk [2] = [2, 3, 5]) ∧
      ∀ n, n ∈ (empty.after regrown).descendants (some 2) ↔
        n = 2 ∨ 2 ∈ (empty.after regrown).ancestors (some n) := by
  -- How far below the root of the whole tree the nodes are.
  let depth (n : NodeId) : Nat := [1, 2, 2, 3, 0, 3].getD n 0
  have hadded : (empty.after (regrown.take 2)).Acyclic :=
    acyclic_of_rank depth (by decide +kernel) (by decide +kernel)
  have hattached : (empty.after regrown).Acyclic :=
    acyclic_of_rank depth (by decide +kernel) (by decide +kernel)
  have hops : empty.KeepsForest regrown :=
    ⟨by decide +kernel, nofun, by decide +kernel, fun _ => hadded, by decide +kernel, nofun,
      by decide +kernel, fun _ => hattached, trivial⟩
  have hsize : (empty.after regrown).size = 6 := by decide +kernel
  have hdown : (empty.after regrown).descendants (some 2) = [2, 3, 5] := by decide +kernel
  have hroot : 2 < (empty.after regrown).size := by rw [hsize]; decide
  obtain ⟨hends, _, _, _, hiff⟩ := mem_descendants_iff_mem_ancestors hops hroot
  rw [hsize, hdown] at hends
  exact ⟨hops, hroot, hdown, by decide +kernel, hends, hiff⟩

end PonyLens.Arena
