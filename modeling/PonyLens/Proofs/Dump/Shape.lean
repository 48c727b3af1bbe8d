import Mathlib.Data.List.Basic
import PonyLens.Arena.Tree

/-!
# Trees as such

Induction over trees, equality, properties that hold at every node, and the number of levels.
-/

namespace PonyLens.Tree

theorem induct {motive : Tree → Prop}
    (node : ∀ kind text children, (∀ t ∈ children, motive t) → motive (.node kind text children)) :
    ∀ t, motive t
  | .node kind text children => node kind text children fun t _ => induct node t

mutual

def decEq : (s t : Tree) → Decidable (s = t)
  | .node kind text children, .node kind' text' children' =>
    have := decEqAll children children'
    decidable_of_iff (kind = kind' ∧ text = text' ∧ children = children')
      (by rw [Tree.node.injEq])

def decEqAll : (ss ts : List Tree) → Decidable (ss = ts)
  | [], [] => .isTrue rfl
  | [], _ :: _ => .isFalse nofun
  | _ :: _, [] => .isFalse nofun
  | s :: ss, t :: ts =>
    have := decEq s t
    have := decEqAll ss ts
    decidable_of_iff (s = t ∧ ss = ts) (by rw [List.cons.injEq])

end

instance : DecidableEq Tree := decEq

theorem node_eta : ∀ t : Tree, node t.kind t.text t.children = t
  | .node _ _ _ => rfl

mutual

/-- Whether the property holds of a tree and of all trees in it. -/
def Everywhere (p : Tree → Prop) : Tree → Prop
  | .node kind text children => p (.node kind text children) ∧ EverywhereIn p children

def EverywhereIn (p : Tree → Prop) : List Tree → Prop
  | [] => True
  | t :: ts => Everywhere p t ∧ EverywhereIn p ts

end

mutual

def height : Tree → Nat
  | .node _ _ children => heightOf children + 1

def heightOf : List Tree → Nat
  | [] => 0
  | t :: ts => max (height t) (heightOf ts)

end

variable {p q : Tree → Prop} {kind : Kind} {text : String} {t : Tree} {children : List Tree}

theorem everywhereIn_iff : EverywhereIn p children ↔ ∀ t ∈ children, t.Everywhere p := by
  induction children with
  | nil => simp [EverywhereIn]
  | cons t children ih => simp [EverywhereIn, ih]

theorem everywhere_node : (node kind text children).Everywhere p ↔
    p (.node kind text children) ∧ ∀ t ∈ children, t.Everywhere p := by
  rw [Everywhere, everywhereIn_iff]

theorem Everywhere.imp (himp : ∀ t, p t → q t) (h : t.Everywhere p) : t.Everywhere q := by
  induction t using Tree.induct with
  | node kind text children ih =>
    rw [everywhere_node] at h ⊢
    exact ⟨himp _ h.1, fun t ht => ih t ht (h.2 t ht)⟩

theorem heightOf_le_iff {n : Nat} : heightOf children ≤ n ↔ ∀ t ∈ children, t.height ≤ n := by
  induction children with
  | nil => simp [heightOf]
  | cons t children ih => rw [heightOf, Nat.max_le, ih, List.forall_mem_cons]

theorem height_node_le_iff {n : Nat} :
    (node kind text children).height ≤ n + 1 ↔ ∀ t ∈ children, t.height ≤ n := by
  rw [height, Nat.add_le_add_iff_right, heightOf_le_iff]

theorem height_lt_of_mem (h : t ∈ children) : t.height < (node kind text children).height := by
  rw [height, Nat.lt_succ_iff]
  exact heightOf_le_iff.mp (Nat.le_refl _) t h

end PonyLens.Tree
