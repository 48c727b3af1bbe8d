import Mathlib.Data.List.Perm.Subperm
import Mathlib.Logic.Function.Iterate
import Mathlib.Logic.Relation
import PonyLens.Arena.Tree
import PonyLens.Arena.Walk

/-!
# Arenas without cycles

Where no node leads back to itself, a way along links meets no node twice and is no longer than the
arena has nodes. A walk that goes on as long as there are links comes to an end there, and the walks
with a bound are the walks without.
-/

namespace PonyLens.Arena

open Relation

def Down (a : Arena) (p c : NodeId) : Prop := c ∈ a.children (some p)

def Up (a : Arena) (c p : NodeId) : Prop := a.parent (some c) = some p

/-- No node leads back to itself, neither over children nor over parents. -/
structure Acyclic (a : Arena) : Prop where
  down (n : NodeId) : ¬ TransGen a.Down n n
  up (n : NodeId) : ¬ TransGen a.Up n n

variable {a : Arena} {step : NodeId → NodeId → Prop} {path : List NodeId} {m n limit : Nat}

theorem Down.lt_size (h : a.Down m n) : m < a.size := by
  by_contra hm
  have hnone : a.nodes[m]? = none := Array.getElem?_eq_none (Nat.le_of_not_lt hm)
  simp [Down, children, get?, hnone] at h

theorem Up.lt_size (h : a.Up m n) : m < a.size := by
  by_contra hm
  have hnone : a.nodes[m]? = none := Array.getElem?_eq_none (Nat.le_of_not_lt hm)
  simp [Up, parent, get?, hnone] at h

theorem acyclic_of_rank (rank : NodeId → Nat)
    (hdown : ∀ n < a.size, ∀ c ∈ a.children (some n), rank n < rank c)
    (hup : ∀ n < a.size, ∀ p ∈ a.parent (some n), rank p < rank n) : a.Acyclic where
  down n h := by
    have hlt : TransGen (fun m n : Nat => m < n) (rank n) (rank n) :=
      TransGen.lift rank (fun p c hc => hdown p (Down.lt_size hc) c hc) n n h
    rw [transGen_eq_self] at hlt
    exact Nat.lt_irrefl _ hlt
  up n h := by
    have hlt : TransGen (fun m n : Nat => m > n) (rank n) (rank n) :=
      TransGen.lift rank (fun c p hp => hup c (Up.lt_size hp) p hp) n n h
    rw [transGen_eq_self] at hlt
    exact Nat.lt_irrefl _ hlt

theorem acyclic_of_lt (hdown : ∀ n < a.size, ∀ c ∈ a.children (some n), n < c)
    (hup : ∀ n < a.size, ∀ p ∈ a.parent (some n), p < n) : a.Acyclic :=
  acyclic_of_rank id hdown hup

/-! ### Ways -/

/-- Distinct nodes that all lead to `n`. -/
structure Way (a : Arena) (step : NodeId → NodeId → Prop) (path : List NodeId) (n : NodeId) :
    Prop where
  nodup : path.Nodup
  lt_size : ∀ m ∈ path, m < a.size
  leads : ∀ m ∈ path, TransGen step m n

theorem way_nil (a : Arena) (step : NodeId → NodeId → Prop) (n : NodeId) : a.Way step [] n where
  nodup := List.nodup_nil
  lt_size := by simp
  leads := by simp

namespace Way

section Acyclic

variable (h : a.Way step path n) (hacyclic : ∀ n, ¬ TransGen step n n)
include h hacyclic

theorem nodup_cons : (n :: path).Nodup :=
  List.nodup_cons.mpr ⟨fun hmem => hacyclic n (h.leads n hmem), h.nodup⟩

theorem cons (hn : n < a.size) (hm : step n m) : a.Way step (n :: path) m where
  nodup := h.nodup_cons hacyclic
  lt_size := by simpa [hn] using h.lt_size
  leads := by
    rw [List.forall_mem_cons]
    exact ⟨.single hm, fun k hk => (h.leads k hk).tail hm⟩

theorem length_lt (hn : n < a.size) : path.length < a.size := by
  have hsub : n :: path ⊆ List.range a.size := by
    intro m hm
    rw [List.mem_range]
    rcases List.mem_cons.mp hm with rfl | hm
    · exact hn
    · exact h.lt_size m hm
  have hle := (List.subperm_of_subset (h.nodup_cons hacyclic) hsub).length_le
  rw [List.length_cons, List.length_range] at hle
  exact hle

end Acyclic

end Way

/-! ### Down -/

theorem treeWithin_of_size_le (hn : a.size ≤ n) (levels : Nat) : a.treeWithin levels n = none := by
  cases levels with
  | zero => rfl
  | succ levels =>
    have hnone : a.nodes[n]? = none := Array.getElem?_eq_none hn
    simp [treeWithin, get?, hnone]

/-- Of the tree below a node on a way nothing is cut off, if there are no fewer levels than nodes
that are not on the way yet. -/
theorem Way.treeWithin_eq (h : a.Way a.Down path n) (hacyclic : a.Acyclic) {levels : Nat}
    (hlimit : a.size ≤ limit + path.length) (hlevels : a.size ≤ levels + path.length) :
    a.treeWithin limit n = a.treeWithin levels n := by
  induction limit generalizing path n levels with
  | zero =>
    have hn : a.size ≤ n := by
      by_contra hlt
      have hlength := h.length_lt hacyclic.down (Nat.lt_of_not_le hlt)
      omega
    rw [treeWithin_of_size_le hn, treeWithin_of_size_le hn]
  | succ limit ih =>
    rcases Nat.lt_or_ge n a.size with hn | hn
    · have hlength := h.length_lt hacyclic.down hn
      obtain ⟨levels, rfl⟩ : ∃ k, levels = k + 1 := ⟨levels - 1, by omega⟩
      obtain ⟨node, hnode⟩ : ∃ node, a.nodes[n]? = some node := ⟨_, Array.getElem?_eq_getElem hn⟩
      have hchildren : ∀ c ∈ node.children, a.treeWithin limit c = a.treeWithin levels c := by
        intro c hc
        have hdown : a.Down n c := by simpa [Down, children, get?, hnode] using hc
        exact ih (h.cons hacyclic.down hn hdown) (by simp only [List.length_cons]; omega)
          (by simp only [List.length_cons]; omega)
      simp only [treeWithin, get?, Option.bind_some, hnode, Option.map_some,
        List.filterMap_congr hchildren]
    · rw [treeWithin_of_size_le hn, treeWithin_of_size_le hn]

theorem exists_tree? (hacyclic : a.Acyclic) (hn : n < a.size) :
    ∃ t, a.tree? (some n) = some t ∧
      ∀ levels, a.size ≤ levels → a.treeWithin levels n = some t := by
  obtain ⟨node, hnode⟩ : ∃ node, a.nodes[n]? = some node := ⟨_, Array.getElem?_eq_getElem hn⟩
  obtain ⟨size, hsize⟩ : ∃ k, a.size = k + 1 := ⟨a.size - 1, by omega⟩
  have htree : a.treeWithin a.size n = some (.node node.kind (a.names.text node.text)
      (node.children.filterMap (a.treeWithin size))) := by
    simp only [hsize, treeWithin, get?, Option.bind_some, hnode, Option.map_some]
  refine ⟨_, htree, fun levels hle => ?_⟩
  rw [← htree]
  exact (way_nil a a.Down n).treeWithin_eq hacyclic (by simpa using hle) (by simp)

/-! ### Up -/

def parentAnd (a : Arena) (above : Link → List NodeId) (l : Link) : List NodeId :=
  match a.parent l with
  | none => []
  | some p => p :: above (some p)

/-- The climb with so many steps left. What it is without a step left matters at its end only. -/
structure ClimbsBy (a : Arena) (up : Nat → Link → List NodeId) : Prop where
  zero (l : Link) (h : a.parent l = none) : up 0 l = []
  succ (limit : Nat) (l : Link) : up (limit + 1) l = a.parentAnd (up limit) l

theorem climbsBy_climb (a : Arena) : a.ClimbsBy fun limit l => a.climb limit (a.parent l) where
  zero l h := by
    rw [h]
    rfl
  succ limit l := by
    rw [parentAnd]
    cases a.parent l <;> rfl

namespace ClimbsBy

variable {up up' : Nat → Link → List NodeId} (hup : a.ClimbsBy up)
include hup

theorem of_parent_eq_none {l : Link} (h : a.parent l = none) (limit : Nat) : up limit l = [] := by
  cases limit with
  | zero => exact hup.zero l h
  | succ limit => rw [hup.succ, parentAnd, h]

variable (hup' : a.ClimbsBy up') (hacyclic : a.Acyclic)
include hup' hacyclic

/-- A climb does not depend on what it is without a step left, if the steps that are left are no
fewer than the nodes that are not on the way yet. -/
theorem eq_of_way (h : a.Way a.Up path n) (hlimit : a.size ≤ limit + path.length) :
    up limit (some n) = up' limit (some n) := by
  induction limit generalizing path n with
  | zero =>
    have hparent : a.parent (some n) = none := by
      by_contra hne
      obtain ⟨p, hp⟩ := Option.ne_none_iff_exists'.mp hne
      have hlt := h.length_lt hacyclic.up (Up.lt_size hp)
      omega
    rw [hup.zero _ hparent, hup'.zero _ hparent]
  | succ limit ih =>
    rw [hup.succ, hup'.succ]
    simp only [parentAnd]
    cases hparent : a.parent (some n) with
    | none => rfl
    | some p =>
      have hway := h.cons hacyclic.up (Up.lt_size hparent) hparent
      simp only [ih hway (by rw [List.length_cons]; omega)]

theorem eq_of_size : up a.size = up' a.size := by
  funext l
  cases l with
  | none => rw [hup.of_parent_eq_none rfl, hup'.of_parent_eq_none rfl]
  | some n => exact hup.eq_of_way hup' hacyclic (way_nil a a.Up n) (Nat.le_refl _)

end ClimbsBy

/-- The way up ends, and gives the ancestors: what is above it in the end does not matter. -/
theorem iterate_parentAnd (hacyclic : a.Acyclic) (above : Link → List NodeId) :
    a.parentAnd^[a.size + 1] above = a.ancestors := by
  have hup : a.ClimbsBy fun limit => a.parentAnd^[limit + 1] above := by
    refine ⟨fun l hparent => ?_, fun limit l => ?_⟩
    · rw [Function.iterate_one, parentAnd, hparent]
    · rw [Function.iterate_succ_apply']
  exact hup.eq_of_size a.climbsBy_climb hacyclic

theorem ancestors_eq_parentAnd (hacyclic : a.Acyclic) (l : Link) :
    a.ancestors l = a.parentAnd a.ancestors l := by
  have hone := iterate_parentAnd hacyclic (a.parentAnd fun _ => [])
  rw [← Function.iterate_succ_apply, Function.iterate_succ_apply',
    iterate_parentAnd hacyclic] at hone
  rw [hone]

theorem mem_ancestors_iff (hacyclic : a.Acyclic) :
    m ∈ a.ancestors (some n) ↔ TransGen a.Up n m := by
  constructor
  · have hclimb (limit : Nat) : m ∈ a.climb limit (a.parent (some n)) → TransGen a.Up n m := by
      induction limit generalizing n with
      | zero => cases a.parent (some n) <;> exact (absurd · List.not_mem_nil)
      | succ limit ih =>
        cases hparent : a.parent (some n) with
        | none => exact (absurd · List.not_mem_nil)
        | some p =>
          intro hm
          rcases List.mem_cons.mp hm with rfl | hm
          · exact .single hparent
          · exact .head hparent (ih hm)
    exact hclimb a.size
  · intro h
    induction h using TransGen.head_induction_on with
    | single hm =>
      rw [ancestors_eq_parentAnd hacyclic, parentAnd, hm]
      exact List.mem_cons_self
    | head hp _ ih =>
      rw [ancestors_eq_parentAnd hacyclic, parentAnd, hp]
      exact List.mem_cons_of_mem _ ih

end PonyLens.Arena
