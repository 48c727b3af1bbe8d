import PonyLens.Proofs.Arena.Walks

/-!
# The order of a tree

Of two nodes of a tree, the one that comes first in pre-order is above the other one, or it stands
in an earlier branch: somewhere the ways to the two nodes part, and there the child that leads to it
comes first.
-/

namespace PonyLens.Arena

/-- Whether `m` and `n` are in different trees with these roots, `m` in the one that comes first. -/
def InEarlierTree (a : Arena) (ids : List NodeId) (m n : NodeId) : Prop :=
  ∃ c c' path path', [c, c'].Sublist ids ∧ a.Ancestry c m path ∧ a.Ancestry c' n path'

/-- Whether `m` and `n` are at or below different children of some node, `m` in the branch that
comes first. -/
def InEarlierBranch (a : Arena) (m n : NodeId) : Prop :=
  ∃ p, a.InEarlierTree (a.children (some p)) m n

variable {a : Arena} {lost : List (NodeId × NodeId)} {root m n p c : Nat}
  {path path' children ids ns : List NodeId}

/-! ### Pairs in a list -/

section Pairs

variable {k : NodeId} {l l' : List NodeId}

theorem pair_sublist_cons : [m, n].Sublist (k :: l) ↔ k = m ∧ n ∈ l ∨ [m, n].Sublist l := by
  constructor
  · intro h
    cases h with
    | cons _ h => exact .inr h
    | cons_cons _ h => exact .inl ⟨rfl, List.singleton_sublist.mp h⟩
  · rintro (⟨rfl, hn⟩ | h)
    · exact (List.singleton_sublist.mpr hn).cons_cons k
    · exact h.cons k

theorem pair_sublist_append :
    [m, n].Sublist (l ++ l') ↔ [m, n].Sublist l ∨ (m ∈ l ∧ n ∈ l') ∨ [m, n].Sublist l' := by
  induction l with
  | nil => simp
  | cons k l ih =>
    rw [List.cons_append, pair_sublist_cons, pair_sublist_cons, ih, List.mem_append, List.mem_cons]
    grind

theorem not_sublist_swap (hnodup : l.Nodup) (h : [m, n].Sublist l) : ¬ [n, m].Sublist l := by
  induction l with
  | nil => cases h
  | cons k l ih =>
    obtain ⟨hnew, hnodup⟩ := List.nodup_cons.mp hnodup
    have hold {x y : NodeId} (h : [x, y].Sublist l) : k ≠ x ∧ k ≠ y :=
      ⟨fun heq => hnew (heq ▸ h.subset (by simp)), fun heq => hnew (heq ▸ h.subset (by simp))⟩
    rw [pair_sublist_cons] at h ⊢
    rintro (⟨rfl, hm⟩ | h')
    · rcases h with ⟨rfl, _⟩ | h
      · exact hnew hm
      · exact (hold h).2 rfl
    · rcases h with ⟨rfl, _⟩ | h
      · exact (hold h').2 rfl
      · exact ih hnodup h h'

end Pairs

/-! ### Ways -/

theorem Ancestry.append (h : a.Ancestry root m path) (h' : a.Ancestry m n path') :
    a.Ancestry root n (path' ++ path) := by
  induction h' with
  | root _ => exact h
  | child hn _ ih => exact .child hn ih

theorem Ancestry.of_child (h : a.Ancestry c n path) (hp : p < a.size)
    (hc : c ∈ a.children (some p)) : a.Ancestry p n (path ++ [p]) :=
  .append (.child hc (.root hp)) h

theorem eq_children (h : a.nodes[n]?.map Node.children = some children) :
    n < a.size ∧ a.children (some n) = children := by
  have hlt : n < a.size := by
    by_contra hle
    rw [Array.getElem?_eq_none (Nat.le_of_not_lt hle)] at h
    cases h
  exact ⟨hlt, Option.some.inj ((children?_eq_some hlt).symm.trans h)⟩

theorem PreOrder.exists_root (h : a.PreOrder ids ns) (hn : n ∈ ns) :
    ∃ c ∈ ids, ∃ path, a.Ancestry c n path := by
  induction h with
  | nil => exact absurd hn List.not_mem_nil
  | @cons k children ids ms ns hchildren below rest ihbelow ihrest =>
    obtain ⟨hk, rfl⟩ := eq_children hchildren
    rcases List.mem_cons.mp hn with rfl | hn
    · exact ⟨n, List.mem_cons_self, [], .root hk⟩
    · rcases List.mem_append.mp hn with hn | hn
      · obtain ⟨c, hc, path, hpath⟩ := ihbelow hn
        exact ⟨k, List.mem_cons_self, _, hpath.of_child hk hc⟩
      · obtain ⟨c, hc, path, hpath⟩ := ihrest hn
        exact ⟨c, List.mem_cons_of_mem k hc, path, hpath⟩

/-! ### Two nodes -/

theorem InEarlierTree.cons (h : a.InEarlierTree ids m n) (k : NodeId) :
    a.InEarlierTree (k :: ids) m n := by
  obtain ⟨c, c', path, path', hsub, hm, hn⟩ := h
  exact ⟨c, c', path, path', hsub.cons k, hm, hn⟩

/-- What it means that a node comes before another one in trees: it is above the other one, or they
are in different branches, or in different trees. -/
theorem PreOrder.above_or_branch_or_tree (h : a.PreOrder ids ns) (hmn : [m, n].Sublist ns) :
    (∃ path, a.Ancestry m n path) ∨ a.InEarlierBranch m n ∨ a.InEarlierTree ids m n := by
  induction h with
  | nil => cases hmn
  | @cons k children ids ms ns hchildren below rest ihbelow ihrest =>
    obtain ⟨hk, rfl⟩ := eq_children hchildren
    have hinside {x : NodeId} (hx : x ∈ ms) : ∃ path, a.Ancestry k x path := by
      obtain ⟨c, hc, path, hx⟩ := below.exists_root hx
      exact ⟨_, hx.of_child hk hc⟩
    have hfirst {path : List NodeId} (hm : a.Ancestry k m path) (hn : n ∈ ns) :
        a.InEarlierTree (k :: ids) m n := by
      obtain ⟨c', hc', path', hn⟩ := rest.exists_root hn
      exact ⟨k, c', path, path', pair_sublist_cons.mpr (.inl ⟨rfl, hc'⟩), hm, hn⟩
    rcases pair_sublist_cons.mp hmn with ⟨rfl, hn⟩ | hmn
    · rcases List.mem_append.mp hn with hn | hn
      · exact .inl (hinside hn)
      · exact .inr (.inr (hfirst (.root hk) hn))
    · rcases pair_sublist_append.mp hmn with hmn | ⟨hm, hn⟩ | hmn
      · rcases ihbelow hmn with habove | hbranch | htree
        · exact .inl habove
        · exact .inr (.inl hbranch)
        · exact .inr (.inl ⟨k, htree⟩)
      · obtain ⟨path, hm⟩ := hinside hm
        exact .inr (.inr (hfirst hm hn))
      · exact (ihrest hmn).imp_right (.imp_right (·.cons k))

/-- Of two nodes of a tree, the one that comes first is above the other one or in an earlier branch.
-/
theorem above_or_branch (hlinked : a.Linked lost) (htree : a.IsTree root) (hlt : root < a.size)
    (hmn : [m, n].Sublist (a.descendants (some root))) :
    (∃ path, a.Ancestry m n path) ∨ a.InEarlierBranch m n := by
  obtain ⟨hpre, -, -⟩ := preOrder_descendants hlinked htree hlt
  rcases hpre.above_or_branch_or_tree hmn with habove | hbranch | ⟨c, c', _, _, hsub, -, -⟩
  · exact .inl habove
  · exact .inr hbranch
  · exact absurd hsub.length_le (by simp)

end PonyLens.Arena
