import Mathlib.Data.List.Perm.Subperm
import PonyLens.Proofs.Arena.Links
import PonyLens.Proofs.Arena.PreOrder

/-!
# Walks reach what they should

In an arena whose links agree, the nodes that can be reached from a root form a finite tree, unless
the root can be reached itself: each has one way up, which ends at the root. So the bounds of the
walks are no bounds there. The walk down gives each node of the tree once, in pre-order, and if the
root has no parent, the walk up gives all ancestors.
-/

namespace PonyLens.Arena

/-- Whether the node is in the tree below the root and has these ancestors, nearest first. -/
inductive Ancestry (a : Arena) (root : NodeId) : NodeId → List NodeId → Prop
  | root (hroot : root < a.size) : Ancestry a root root []
  | child {n p : NodeId} {path : List NodeId} (hn : n ∈ a.children (some p))
    (hp : Ancestry a root p path) : Ancestry a root n (p :: path)

/-- Whether the root is not a child of a node below it. -/
def IsTree (a : Arena) (root : NodeId) : Prop :=
  ∀ n path, a.Ancestry root n path → root ∉ a.children (some n)

inductive Nearest (a : Arena) (p : Kind → Bool) : NodeId → NodeId → Prop
  | here {n s : NodeId} (hparent : a.parent (some n) = some s) (hs : a.isA (some s) p = true) :
    Nearest a p n s
  | further {n m s : NodeId} (hparent : a.parent (some n) = some m)
    (hm : a.isA (some m) p = false) (hs : Nearest a p m s) : Nearest a p n s

variable {a : Arena} {lost : List (NodeId × NodeId)} {root n m : Nat}
  {path path' ids ns : List NodeId}

theorem Linked.lt_size (h : a.Linked lost) {c p : Nat} (hc : c ∈ a.children (some p)) :
    c < a.size := by
  have hparent := (h.parent_iff c p).mpr (.inl hc)
  by_contra hle
  have hnone : a.nodes[c]? = none := Array.getElem?_eq_none (Nat.le_of_not_lt hle)
  simp [parent, get?, hnone] at hparent

/-- Each node on the way up has the rest of it as its own. -/
theorem Ancestry.exists_of_mem (h : a.Ancestry root n path) (hm : m ∈ path) :
    ∃ before rest, path = before ++ m :: rest ∧ a.Ancestry root m rest := by
  induction h with
  | root _ => simp at hm
  | @child n p path hn hp ih =>
    rcases List.mem_cons.mp hm with rfl | hm
    · exact ⟨[], path, rfl, hp⟩
    · obtain ⟨before, rest, rfl, hrest⟩ := ih hm
      exact ⟨p :: before, rest, rfl, hrest⟩

theorem Ancestry.root_lt_size (h : a.Ancestry root n path) : root < a.size := by
  induction h with
  | root hroot => exact hroot
  | child _ _ ih => exact ih

theorem children?_eq_some (h : n < a.size) :
    a.nodes[n]?.map Node.children = some (a.children (some n)) := by
  obtain ⟨node, hnode⟩ : ∃ node, a.nodes[n]? = some node := ⟨_, Array.getElem?_eq_getElem h⟩
  simp [children, get?, hnode]

theorem exists_preOrder_of_forall (h : ∀ c ∈ ids, ∃ ns, a.PreOrder [c] ns) :
    ∃ ns, a.PreOrder ids ns := by
  induction ids with
  | nil => exact ⟨[], .nil⟩
  | cons c ids ih =>
    obtain ⟨ms, hms⟩ := h c List.mem_cons_self
    obtain ⟨ns, hns⟩ := ih fun c hc => h c (List.mem_cons_of_mem _ hc)
    exact ⟨ms ++ ns, hms.append hns⟩

theorem PreOrder.mem_of_mem_roots (h : a.PreOrder ids ns) (hn : n ∈ ids) : n ∈ ns := by
  induction h with
  | nil => exact hn
  | cons _ _ _ _ ih =>
    rcases List.mem_cons.mp hn with rfl | hn
    · exact List.mem_cons_self
    · exact List.mem_cons_of_mem _ (List.mem_append_right _ (ih hn))

theorem PreOrder.mem_of_mem_children (h : a.PreOrder ids ns) (hm : m ∈ ns)
    (hn : n ∈ a.children (some m)) : n ∈ ns := by
  induction h with
  | nil => exact absurd hm List.not_mem_nil
  | @cons k children ids ms ns hchildren below rest ihbelow ihrest =>
    refine List.mem_cons_of_mem k (List.mem_append.mpr ?_)
    rcases List.mem_cons.mp hm with rfl | hm
    · have hsame : children = a.children (some m) := by simp [Arena.children, get?, hchildren]
      exact .inl (below.mem_of_mem_roots (hsame ▸ hn))
    · exact (List.mem_append.mp hm).imp ihbelow ihrest

theorem Nearest.isA {p : Kind → Bool} (h : a.Nearest p n m) : a.isA (some m) p = true := by
  induction h with
  | here _ hs => exact hs
  | further _ _ _ ih => exact ih

theorem nearest_iff {p : Kind → Bool} {s : Nat} (hparent : a.parent (some n) = some m) :
    a.Nearest p n s ↔ if a.isA (some m) p = true then m = s else a.Nearest p m s := by
  constructor
  · rintro (⟨hparent', hs⟩ | ⟨hparent', hm, hs⟩)
    · cases hparent.symm.trans hparent'
      rw [if_pos hs]
    · cases hparent.symm.trans hparent'
      rw [if_neg (by simp [hm])]
      exact hs
  · split
    · rename_i hm
      rintro rfl
      exact .here hparent hm
    · rename_i hm
      exact .further hparent (by simpa using hm)

theorem not_nearest {p : Kind → Bool} {s : Nat} (hparent : a.parent (some n) = none) :
    ¬ a.Nearest p n s := by
  rintro (⟨hparent', _⟩ | ⟨hparent', _, _⟩)
  · cases hparent.symm.trans hparent'
  · cases hparent.symm.trans hparent'

theorem Linked.isTree (h : a.Linked lost) (hroot : a.parent (some root) = none) :
    a.IsTree root := by
  intro n _ _ hchild
  have hparent := (h.parent_iff root n).mpr (.inl hchild)
  rw [hroot] at hparent
  cases hparent

section Tree

variable (hlinked : a.Linked lost)
include hlinked

theorem Ancestry.lt_size (h : a.Ancestry root n path) : n < a.size := by
  cases h with
  | root hroot => exact hroot
  | child hn _ => exact hlinked.lt_size hn

/-! ### The way up -/

section Ways

variable (htree : a.IsTree root)
include htree

theorem Ancestry.unique (h : a.Ancestry root n path) (h' : a.Ancestry root n path') :
    path = path' := by
  have hparent {n p : Nat} (hn : n ∈ a.children (some p)) : a.parent (some n) = some p :=
    (hlinked.parent_iff n p).mpr (.inl hn)
  induction h generalizing path' with
  | root _ => cases h' with
    | root _ => rfl
    | child hn hp => exact absurd hn (htree _ _ hp)
  | child hn hp ih => cases h' with
    | root _ => exact absurd hn (htree _ _ hp)
    | child hn' hp' =>
      have heq := (hparent hn).symm.trans (hparent hn')
      cases heq
      rw [ih hp']

theorem Ancestry.nodup (h : a.Ancestry root n path) : (n :: path).Nodup := by
  induction h with
  | root _ => simp
  | @child n p path hn hp ih =>
    refine List.nodup_cons.mpr ⟨fun hmem => ?_, ih⟩
    have h : a.Ancestry root n (p :: path) := .child hn hp
    obtain ⟨before, rest, heq, hrest⟩ := h.exists_of_mem hmem
    have hlength := congrArg List.length heq
    rw [h.unique hlinked htree hrest] at hlength
    simp at hlength
    omega

theorem Ancestry.length_lt (h : a.Ancestry root n path) : path.length < a.size := by
  have hsub : n :: path ⊆ List.range a.size := by
    intro m hm
    rw [List.mem_range]
    rcases List.mem_cons.mp hm with rfl | hm
    · exact h.lt_size hlinked
    · obtain ⟨_, _, _, hrest⟩ := h.exists_of_mem hm
      exact hrest.lt_size hlinked
  have hle := (List.subperm_of_subset (h.nodup hlinked htree) hsub).length_le
  rw [List.length_cons, List.length_range] at hle
  exact hle

end Ways

section Root

variable (hroot : a.parent (some root) = none)
include hroot

theorem Ancestry.parent_eq (h : a.Ancestry root n path) : a.parent (some n) = path.head? := by
  cases h with
  | root _ => exact hroot
  | child hn _ => exact (hlinked.parent_iff _ _).mpr (.inl hn)

theorem Ancestry.climb_eq (h : a.Ancestry root n path) {limit : Nat}
    (hlimit : path.length ≤ limit) : a.climb limit (a.parent (some n)) = path := by
  induction h generalizing limit with
  | root _ =>
    rw [hroot]
    cases limit <;> rfl
  | @child n p path hn hp ih =>
    obtain ⟨limit, rfl⟩ : ∃ k, limit = k + 1 := ⟨limit - 1, by simp at hlimit; omega⟩
    have h : a.Ancestry root n (p :: path) := .child hn hp
    rw [h.parent_eq hlinked hroot, List.head?_cons, climb, ih (by simpa using hlimit)]

theorem Ancestry.ancestors_eq (h : a.Ancestry root n path) : a.ancestors (some n) = path :=
  h.climb_eq hlinked hroot (Nat.le_of_lt (h.length_lt hlinked (hlinked.isTree hroot)))

theorem Ancestry.find?_ancestors_iff (h : a.Ancestry root n path) (p : Kind → Bool) {s : Nat} :
    (a.ancestors (some n)).find? (fun m => a.isA (some m) p) = some s ↔ a.Nearest p n s := by
  rw [h.ancestors_eq hlinked hroot]
  induction h with
  | root _ => simpa using not_nearest hroot
  | @child n m path hn hm ih =>
    have hparent := (Ancestry.child hn hm).parent_eq hlinked hroot
    rw [nearest_iff hparent, ← ih, List.find?_cons]
    cases a.isA (some m) p <;> simp

theorem Ancestry.of_nearest {p : Kind → Bool} (h : a.Ancestry root n path) (hm : a.Nearest p n m) :
    ∃ rest, a.Ancestry root m rest := by
  have hmem := List.mem_of_find?_eq_some ((h.find?_ancestors_iff hlinked hroot p).mpr hm)
  rw [h.ancestors_eq hlinked hroot] at hmem
  obtain ⟨_, rest, _, hrest⟩ := h.exists_of_mem hmem
  exact ⟨rest, hrest⟩

end Root

/-! ### The way down -/

variable (htree : a.IsTree root)
include htree

/-- Below each node there is a finite tree. The induction is on the levels that the arena leaves
below the node. -/
theorem Ancestry.exists_preOrder (h : a.Ancestry root n path) : ∃ ns, a.PreOrder [n] ns := by
  obtain ⟨levels, hlevels⟩ : ∃ levels, a.size - path.length = levels := ⟨_, rfl⟩
  induction levels generalizing n path with
  | zero =>
    have hlt := h.length_lt hlinked htree
    omega
  | succ levels ih =>
    have hchildren : ∀ c ∈ a.children (some n), ∃ ns, a.PreOrder [c] ns := by
      intro c hc
      exact ih (.child hc h) (by rw [List.length_cons]; omega)
    obtain ⟨ms, hms⟩ := exists_preOrder_of_forall hchildren
    exact ⟨_, .cons (children?_eq_some (h.lt_size hlinked)) hms .nil⟩

/-- The trees of siblings have no node in common: a node in one of them has its root on the way
up, right below the parent. -/
theorem PreOrder.nodup (h : a.PreOrder ids ns) (hids : ∀ c ∈ ids, a.Ancestry root c path)
    (hnodup : ids.Nodup) :
    ns.Nodup ∧ ∀ m ∈ ns, ∃ c ∈ ids, ∃ before path', a.Ancestry root m path' ∧
      m :: path' = before ++ c :: path := by
  induction h generalizing path with
  | nil => simp
  | @cons n children ids ms ns hchildren below rest ihbelow ihrest =>
    obtain ⟨hnew, hnodup⟩ := List.nodup_cons.mp hnodup
    have hn := hids n List.mem_cons_self
    have hsame : children = a.children (some n) :=
      Option.some.inj (hchildren.symm.trans (children?_eq_some (hn.lt_size hlinked)))
    subst hsame
    obtain ⟨hms, hbelow⟩ := ihbelow (fun c hc => .child hc hn) (hlinked.nodup n)
    obtain ⟨hns, hrest⟩ := ihrest (fun c hc => hids c (List.mem_cons_of_mem n hc)) hnodup
    -- The node with these siblings on its way up is none of them.
    have happend {m : Nat} (hm : m ∈ ns) {path' : List NodeId} (hpath : a.Ancestry root m path')
        (before : List NodeId) : m :: path' ≠ before ++ n :: path := by
      intro heq
      obtain ⟨c, hc, before', path'', hpath', heq'⟩ := hrest m hm
      rw [hpath.unique hlinked htree hpath', heq'] at heq
      have hhead := List.head_eq_of_cons_eq (List.append_inj_right' heq rfl)
      exact hnew (hhead ▸ hc)
    refine ⟨List.nodup_cons.mpr ⟨fun hmem => ?_, List.nodup_append.mpr ⟨hms, hns, ?_⟩⟩, ?_⟩
    · rcases List.mem_append.mp hmem with hmem | hmem
      · obtain ⟨c, _, before, path', hpath', heq⟩ := hbelow n hmem
        rw [hpath'.unique hlinked htree hn] at heq
        have hlength := congrArg List.length heq
        simp at hlength
        omega
      · exact happend hmem hn [] rfl
    · rintro m hm m' hm' rfl
      obtain ⟨c, _, before, path', hpath', heq⟩ := hbelow m hm
      exact happend hm' hpath' (before ++ [c]) (by simpa using heq)
    · intro m hm
      rcases List.mem_cons.mp hm with rfl | hm
      · exact ⟨m, List.mem_cons_self, [], path, hn, rfl⟩
      · rcases List.mem_append.mp hm with hm | hm
        · obtain ⟨c, _, before, path', hpath', heq⟩ := hbelow m hm
          exact ⟨n, List.mem_cons_self, before ++ [c], path', hpath', by simpa using heq⟩
        · obtain ⟨c, hc, h⟩ := hrest m hm
          exact ⟨c, List.mem_cons_of_mem n hc, h⟩

/-- The walk down from the root lists the tree in pre-order and no node twice. -/
theorem preOrder_descendants (hlt : root < a.size) :
    a.PreOrder [root] (a.descendants (some root)) ∧ (a.descendants (some root)).Nodup ∧
      ∀ n ∈ a.descendants (some root), ∃ path, a.Ancestry root n path := by
  obtain ⟨ns, hns⟩ := (Ancestry.root hlt).exists_preOrder hlinked htree
  have hids : ∀ c ∈ [root], a.Ancestry root c [] := by
    intro c hc
    rw [List.mem_singleton.mp hc]
    exact .root hlt
  obtain ⟨hnodup, hpaths⟩ := hns.nodup hlinked htree hids (List.nodup_singleton root)
  have hways : ∀ n ∈ ns, ∃ path, a.Ancestry root n path := by
    intro n hn
    obtain ⟨_, _, _, path, hpath, _⟩ := hpaths n hn
    exact ⟨path, hpath⟩
  have hsub : ns ⊆ List.range a.size := by
    intro n hn
    obtain ⟨path, hpath⟩ := hways n hn
    exact List.mem_range.mpr (hpath.lt_size hlinked)
  have hle := (List.subperm_of_subset hnodup hsub).length_le
  rw [List.length_range] at hle
  rw [hns.descendants_eq hle]
  exact ⟨hns, hnodup, hways⟩

theorem mem_descendants_iff (hlt : root < a.size) :
    n ∈ a.descendants (some root) ↔ ∃ path, a.Ancestry root n path := by
  obtain ⟨hns, _, hways⟩ := preOrder_descendants hlinked htree hlt
  refine ⟨hways n, ?_⟩
  rintro ⟨path, hpath⟩
  induction hpath with
  | root _ => exact hns.mem_of_mem_roots (List.mem_singleton_self root)
  | child hn _ ih => exact hns.mem_of_mem_children ih hn

end Tree

end PonyLens.Arena
