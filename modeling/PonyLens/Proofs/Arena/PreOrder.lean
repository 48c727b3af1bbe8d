import Mathlib.Logic.Function.Iterate
import PonyLens.Arena.Walk

/-!
# Pre-order

The nodes of a tree in pre-order, said by the structure of the tree. A walk with a stack lists them
and comes to an end there. If a tree was made in this order, so that each subtree came right after
the node above it, its numbers follow one another.
-/

namespace PonyLens.Arena

/-- Whether the second list has the nodes of the trees with these roots, tree by tree, and each node
before the trees of its children. -/
inductive PreOrder (a : Arena) : List NodeId → List NodeId → Prop
  | nil : PreOrder a [] []
  | cons {n : NodeId} {children ids ms ns : List NodeId}
    (hchildren : a.nodes[n]?.map Node.children = some children) (below : PreOrder a children ms)
    (rest : PreOrder a ids ns) : PreOrder a (n :: ids) (n :: (ms ++ ns))

/-- Whether the nodes `lo`, `lo + 1`, … before `hi` are the nodes of the trees with these roots, in
pre-order. -/
inductive Block (a : Arena) : List NodeId → Nat → Nat → Prop
  | nil (lo : Nat) : Block a [] lo lo
  | cons {n mid hi : Nat} {children ids : List NodeId}
    (hchildren : a.nodes[n]?.map Node.children = some children)
    (below : Block a children (n + 1) mid) (rest : Block a ids mid hi) : Block a (n :: ids) n hi

def walkOnce (a : Arena) (walk : List NodeId → List NodeId) : List NodeId → List NodeId
  | [] => []
  | n :: pending =>
    match a.nodes[n]? with
    | some node => n :: walk (node.children ++ pending)
    | none => walk pending

variable {a b : Arena} {ids ids' ms ns : List NodeId} {n lo mid hi : Nat}

/-! ### Lists of nodes -/

theorem PreOrder.append (h : a.PreOrder ids ms) (h' : a.PreOrder ids' ns) :
    a.PreOrder (ids ++ ids') (ms ++ ns) := by
  induction h with
  | nil => exact h'
  | cons hchildren below _ _ ih =>
    rw [List.cons_append, List.cons_append, List.append_assoc]
    exact .cons hchildren below ih

theorem PreOrder.unique (h : a.PreOrder ids ms) (h' : a.PreOrder ids ns) : ms = ns := by
  induction h generalizing ns with
  | nil =>
    cases h' with
    | nil => rfl
  | cons hchildren _ _ ihbelow ihrest =>
    cases h' with
    | cons hchildren' below' rest' =>
      cases hchildren.symm.trans hchildren'
      rw [ihbelow below', ihrest rest']

/-- The walk with a bound is so many rounds of a walk without. -/
theorem visit_eq_iterate (a : Arena) (limit : Nat) :
    a.visit limit = a.walkOnce^[limit] fun _ => [] := by
  induction limit with
  | zero =>
    funext pending
    cases pending <;> rfl
  | succ limit ih =>
    rw [Function.iterate_succ_apply', ← ih]
    funext pending
    cases pending <;> rfl

/-- A walk passes over the trees node by node, and takes one round for each. -/
theorem PreOrder.iterate_walkOnce_append (h : a.PreOrder ids ns) (walk : List NodeId → List NodeId)
    (pending : List NodeId) (limit : Nat) :
    a.walkOnce^[ns.length + limit] walk (ids ++ pending) =
      ns ++ a.walkOnce^[limit] walk pending := by
  induction h generalizing pending limit with
  | nil => simp
  | @cons n children ids ms ns hchildren below rest ihbelow ihrest =>
    obtain ⟨node, hnode, rfl⟩ := Option.map_eq_some_iff.mp hchildren
    have hrounds : (n :: (ms ++ ns)).length + limit = ms.length + (ns.length + limit) + 1 := by
      simp [Nat.add_assoc, Nat.add_comm, Nat.add_left_comm]
    rw [List.cons_append, hrounds, Function.iterate_succ_apply', walkOnce, hnode]
    dsimp only
    rw [ihbelow, ihrest, List.cons_append, List.append_assoc]

theorem PreOrder.iterate_walkOnce (h : a.PreOrder ids ns) (walk : List NodeId → List NodeId)
    {rounds : Nat} (hlt : ns.length < rounds) : a.walkOnce^[rounds] walk ids = ns := by
  obtain ⟨more, rfl⟩ : ∃ more, rounds = ns.length + (more + 1) := ⟨rounds - ns.length - 1, by omega⟩
  have hwalk := h.iterate_walkOnce_append walk [] (more + 1)
  rwa [List.append_nil, Function.iterate_succ_apply', walkOnce, List.append_nil] at hwalk

theorem length_visit_le (a : Arena) (limit : Nat) (pending : List NodeId) :
    (a.visit limit pending).length ≤ limit := by
  induction limit generalizing pending with
  | zero => cases pending <;> exact Nat.le_refl 0
  | succ limit ih => cases pending with
    | nil => exact Nat.zero_le _
    | cons n pending =>
      rw [visit]
      split
      · exact Nat.succ_le_succ (ih _)
      · exact Nat.le_succ_of_le (ih _)

/-- The walk over a tree lists it in pre-order, if it has no more nodes than the arena. -/
theorem PreOrder.descendants_eq (h : a.PreOrder [n] ns) (hle : ns.length ≤ a.size) :
    a.descendants (some n) = ns := by
  obtain ⟨limit, hlimit⟩ : ∃ limit, a.size = ns.length + limit := Nat.exists_eq_add_of_le hle
  have hwalk := h.iterate_walkOnce_append (fun _ => []) [] limit
  have hend : a.walkOnce^[limit] (fun _ => []) [] = [] := by
    rw [← visit_eq_iterate]
    cases limit <;> rfl
  rw [hend, List.append_nil, List.append_nil] at hwalk
  rw [descendants, Option.toList_some, visit_eq_iterate, hlimit, hwalk]

/-! ### Blocks of numbers -/

theorem Block.le (h : a.Block ids lo hi) : lo ≤ hi := by
  induction h with
  | nil => exact Nat.le_refl _
  | cons _ _ _ hbelow hrest => omega

/-- Only the children of the nodes in it matter to a block. -/
theorem Block.congr (h : a.Block ids lo hi)
    (heq : ∀ i, lo ≤ i → i < hi → b.nodes[i]?.map Node.children = a.nodes[i]?.map Node.children) :
    b.Block ids lo hi := by
  induction h with
  | nil lo => exact .nil lo
  | @cons n mid hi children ids hchildren below rest ihbelow ihrest =>
    have hmid := below.le
    have hhi := rest.le
    refine .cons ((heq n (Nat.le_refl n) (by omega)).trans hchildren) (ihbelow ?_) (ihrest ?_)
    · exact fun i hlo hlt => heq i (by omega) (by omega)
    · exact fun i hlo hlt => heq i (by omega) hlt

theorem Block.append (h : a.Block ids lo mid) (h' : a.Block ids' mid hi) :
    a.Block (ids ++ ids') lo hi := by
  induction h with
  | nil => exact h'
  | cons hchildren below _ _ ih => exact .cons hchildren below (ih h')

theorem Block.preOrder (h : a.Block ids lo hi) : a.PreOrder ids (List.range' lo (hi - lo)) := by
  induction h with
  | nil lo => simpa using PreOrder.nil
  | @cons n mid hi children ids hchildren below rest ihbelow ihrest =>
    have hmid := below.le
    have hhi := rest.le
    have hcount : hi - n = mid - (n + 1) + (hi - mid) + 1 := by omega
    have hstart : n + 1 + (mid - (n + 1)) = mid := by omega
    rw [hcount, List.range'_succ, ← List.range'_append_1, hstart]
    exact .cons hchildren ihbelow ihrest

/-- If the last nodes of an arena are one tree in pre-order, the walk over the tree counts them
up. -/
theorem Block.descendants_eq (h : a.Block [n] n a.size) :
    a.descendants (some n) = List.range' n (a.size - n) :=
  h.preOrder.descendants_eq (by simp)

end PonyLens.Arena
