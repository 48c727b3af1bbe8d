import Mathlib.Data.List.Induction
import Mathlib.Data.List.Lex
import PonyLens.Editor.CaretSearch
import PonyLens.Proofs.Arena.Branches
import PonyLens.Proofs.Location

/-!
# The node at a caret

There are three searches for a node at a caret. Each takes the latest of the nodes that qualify, and
of several such nodes the last one in pre-order. Of two nodes that are as late, the one that comes
first is above the other one, which is then deeper, or it is in an earlier branch. So the node that
is found is a deepest one exactly if no node in an earlier branch, as late as this one, is deeper.
-/

namespace PonyLens

namespace Arena

variable {a : Arena} {lost : List (NodeId × NodeId)} {l : Link} {n : Nat}

def AtDepth (a : Arena) (root : Link) (n : NodeId) (depth : Nat) : Prop :=
  ∃ r, root = some r ∧ ∃ path, a.Ancestry r n path ∧ path.length = depth

theorem descendants_of_size_le {root : Nat} (h : a.size ≤ root) : a.descendants (some root) = [] := by
  have hnode : a.nodes[root]? = none := Array.getElem?_eq_none h
  rw [descendants, Option.toList_some]
  cases a.size with
  | zero => rfl
  | succ limit =>
    rw [visit, hnode]
    cases limit <;> rfl

theorem descendants_atDepth (hlinked : a.Linked lost)
    (htree : ∀ root, l = some root → a.IsTree root) :
    (a.descendants l).Nodup ∧ ∀ n, n ∈ a.descendants l ↔ ∃ depth, a.AtDepth l n depth := by
  have hnone (hnil : a.descendants l = []) (hroot : ∀ root, l = some root → a.size ≤ root) :
      (a.descendants l).Nodup ∧ ∀ n, n ∈ a.descendants l ↔ ∃ depth, a.AtDepth l n depth := by
    rw [hnil]
    refine ⟨List.nodup_nil, fun n => iff_of_false List.not_mem_nil ?_⟩
    rintro ⟨_, root, hl, path, hpath, _⟩
    exact absurd hpath.root_lt_size (Nat.not_lt.mpr (hroot root hl))
  cases l with
  | none => exact hnone (by rw [descendants, Option.toList_none, visit]) (by simp)
  | some root =>
    rcases Nat.lt_or_ge root a.size with hlt | hle
    · have htree := htree root rfl
      refine ⟨(preOrder_descendants hlinked htree hlt).2.1, fun n => ?_⟩
      rw [mem_descendants_iff hlinked htree hlt]
      constructor
      · rintro ⟨path, hpath⟩
        exact ⟨path.length, root, rfl, path, hpath, rfl⟩
      · rintro ⟨_, _, ⟨⟩, path, hpath, _⟩
        exact ⟨path, hpath⟩
    · refine hnone (descendants_of_size_le hle) ?_
      rintro _ ⟨⟩
      exact hle

end Arena

/-! ### The latest of some nodes -/

namespace CaretQuery

variable {a : Arena} {nodes : List NodeId} {n : NodeId}

theorem latest?_append (a : Arena) (nodes : List NodeId) (n : NodeId) :
    latest? a (nodes ++ [n]) =
      match latest? a nodes with
      | some b => if (a.location (some n)).isBefore (a.location (some b)) then some b else some n
      | none => some n := by
  rw [latest?, List.foldl_append, List.foldl_cons, List.foldl_nil, ← latest?]
  cases latest? a nodes <;> rfl

theorem latest?_eq_none_iff : latest? a nodes = none ↔ nodes = [] := by
  induction nodes using List.reverseRecOn with
  | nil => exact iff_of_true rfl rfl
  | append_singleton nodes n _ =>
    refine iff_of_false ?_ (by simp)
    rw [latest?_append]
    cases latest? a nodes with
    | none => simp
    | some b =>
      dsimp only
      split <;> simp

theorem exists_of_latest?_eq_some (h : latest? a nodes = some n) :
    ∃ front back, nodes = front ++ n :: back ∧
      (∀ m ∈ front, (a.location (some n)).isBefore (a.location (some m)) = false) ∧
      ∀ m ∈ back, (a.location (some m)).isBefore (a.location (some n)) = true := by
  induction nodes using List.reverseRecOn generalizing n with
  | nil => cases h
  | append_singleton nodes k ih =>
    rw [latest?_append] at h
    cases hb : latest? a nodes with
    | none =>
      rw [hb] at h
      cases h
      refine ⟨nodes, [], rfl, ?_, by simp⟩
      rw [latest?_eq_none_iff.mp hb]
      simp
    | some b =>
      obtain ⟨front, back, rfl, hfront, hback⟩ := ih hb
      rw [hb] at h
      dsimp only at h
      split at h
      · rename_i hbefore
        cases h
        refine ⟨front, back ++ [k], by simp, hfront, fun m hm => ?_⟩
        rcases List.mem_append.mp hm with hm | hm
        · exact hback m hm
        · rw [List.mem_singleton.mp hm]
          exact hbefore
      · rename_i hbefore
        rw [Bool.not_eq_true] at hbefore
        cases h
        refine ⟨front ++ b :: back, [], rfl, fun m hm => ?_, by simp⟩
        rcases List.mem_append.mp hm with hm | hm
        · exact Location.not_isBefore_trans (hfront m hm) hbefore
        · rcases List.mem_cons.mp hm with rfl | hm
          · exact hbefore
          · exact Location.not_isBefore_trans (Location.isBefore_asymm (hback m hm)) hbefore

end CaretQuery

/-! ### Searches -/

inductive CaretSearch where
  | identifier
  | literal
  /-- The last node that starts at the caret or before it. -/
  | nodeBefore
deriving DecidableEq

namespace CaretSearch

def find (s : CaretSearch) (q : CaretQuery) (a : Arena) : Link :=
  match s with
  | identifier => q.identifier? a
  | literal => q.literal? a
  | nodeBefore => q.nodeBefore? a

def isKind : CaretSearch → Kind → Bool
  | identifier, k => k == .ident
  | literal, k => CaretQuery.isTokenLiteral k
  | nodeBefore, _ => true

/-- Whether a node is where the search looks: its token touches the caret, or it starts at the caret
or before it. -/
def isInReach (s : CaretSearch) (q : CaretQuery) (a : Arena) (n : NodeId) : Bool :=
  match s with
  | identifier | literal => q.caret.touches (a.location (some n)) (a.tokenLength (some n))
  | nodeBefore => !q.caret.toLocation.isBefore (a.location (some n))

/-- What makes a node of the tree one that may be found. -/
structure Qualifies (s : CaretSearch) (q : CaretQuery) (a : Arena) (n : NodeId) : Prop where
  inTree : ∃ depth, a.AtDepth q.root n depth
  isKind : a.isA (some n) s.isKind = true
  isKnown : (a.location (some n)).isKnown = true
  isInReach : s.isInReach q a n = true
  isInFile : a.isInFile (some n) q.file = true

/-- What counts about a place: the later a node, the greater its numbers, the first one first. -/
def rank (s : CaretSearch) (l : Location) : List Nat :=
  match s with
  | identifier | literal => [l.column]
  | nodeBefore => [l.line, l.column]

/-- It qualifies, and of the other nodes that do, each is less late, or as late and earlier in
pre-order. -/
structure IsLast (s : CaretSearch) (q : CaretQuery) (a : Arena) (n : NodeId) : Prop where
  qualifies : s.Qualifies q a n
  others (m : NodeId) : s.Qualifies q a m → m ≠ n →
    s.rank (a.location (some m)) < s.rank (a.location (some n)) ∨
      s.rank (a.location (some m)) = s.rank (a.location (some n)) ∧
        [m, n].Sublist (a.descendants q.root)

/-- Whether a node qualifies and is as late as `n`. -/
def Ties (s : CaretSearch) (q : CaretQuery) (a : Arena) (m n : NodeId) : Prop :=
  s.Qualifies q a m ∧ s.rank (a.location (some m)) = s.rank (a.location (some n))

/-- Whether no node that is as late as `n` is deeper. -/
def IsDeepest (s : CaretSearch) (q : CaretQuery) (a : Arena) (n : NodeId) : Prop :=
  ∀ m, s.Ties q a m n → ∀ depth depth', a.AtDepth q.root m depth → a.AtDepth q.root n depth' →
    depth ≤ depth'

variable {s : CaretSearch} {q : CaretQuery} {a : Arena} {lost : List (NodeId × NodeId)}
  {m n : NodeId}

def candidates (s : CaretSearch) (q : CaretQuery) (a : Arena) : List NodeId :=
  (a.descendants q.root).filter fun n =>
    a.isA (some n) s.isKind && (a.location (some n)).isKnown && s.isInReach q a n &&
      a.isInFile (some n) q.file

theorem isA_of_atDepth (hlinked : a.Linked lost) {l : Link} {depth : Nat}
    (h : a.AtDepth l n depth) : a.isA (some n) (fun _ => true) = true := by
  obtain ⟨_, _, path, hpath, _⟩ := h
  have hnode : a.get? (some n) = a.nodes[n]? := rfl
  simp [Arena.isA, Arena.kind?, hnode, Array.getElem?_eq_getElem (hpath.lt_size hlinked)]

/-- Nodes in reach of a search are compared by their ranks. Where only columns count, the token
touches the caret, and so the line is that of the caret. -/
theorem rank_lt_iff (hm : s.isInReach q a m = true) (hn : s.isInReach q a n = true) :
    s.rank (a.location (some m)) < s.rank (a.location (some n)) ↔
      (a.location (some m)).isBefore (a.location (some n)) = true := by
  have htouches {l : Location} {length : Nat} (h : q.caret.touches l length = true) :
      l.line = q.caret.line := by
    simp only [Caret.touches, Bool.and_eq_true, beq_iff_eq] at h
    exact h.1.1.symm
  rw [Location.isBefore_iff]
  cases s with
  | identifier | literal => simp [rank, List.cons_lt_cons_iff, htouches hm, htouches hn]
  | nodeBefore => simp [rank, List.cons_lt_cons_iff]

section Tree

variable (hlinked : a.Linked lost) (htree : ∀ root, q.root = some root → a.IsTree root)
include hlinked htree

theorem mem_candidates_iff : n ∈ s.candidates q a ↔ s.Qualifies q a n := by
  rw [candidates, List.mem_filter, (Arena.descendants_atDepth hlinked htree).2]
  simp only [Bool.and_eq_true]
  constructor
  · rintro ⟨hdepth, ⟨⟨hkind, hknown⟩, hreach⟩, hfile⟩
    exact ⟨hdepth, hkind, hknown, hreach, hfile⟩
  · rintro ⟨hdepth, hkind, hknown, hreach, hfile⟩
    exact ⟨hdepth, ⟨⟨hkind, hknown⟩, hreach⟩, hfile⟩

theorem find_eq_latest? : s.find q a = CaretQuery.latest? a (s.candidates q a) := by
  cases s with
  | identifier => rfl
  | literal => rfl
  | nodeBefore =>
    refine congrArg (CaretQuery.latest? a) (List.filter_congr fun n hn => ?_)
    obtain ⟨depth, hdepth⟩ := ((Arena.descendants_atDepth hlinked htree).2 n).mp hn
    have hkind : a.isA (some n) nodeBefore.isKind = true := isA_of_atDepth hlinked hdepth
    rw [hkind]
    rfl

theorem find_eq_none_iff : s.find q a = none ↔ ∀ n, ¬ s.Qualifies q a n := by
  rw [find_eq_latest? hlinked htree, CaretQuery.latest?_eq_none_iff,
    List.eq_nil_iff_forall_not_mem]
  exact forall_congr' fun n => not_congr (mem_candidates_iff hlinked htree)

theorem isLast_of_find_eq_some (h : s.find q a = some n) : s.IsLast q a n := by
  have hmem {m : NodeId} : m ∈ s.candidates q a ↔ s.Qualifies q a m :=
    mem_candidates_iff hlinked htree
  have hsub : (s.candidates q a).Sublist (a.descendants q.root) := List.filter_sublist
  rw [find_eq_latest? hlinked htree] at h
  obtain ⟨front, back, heq, hfront, hback⟩ := CaretQuery.exists_of_latest?_eq_some h
  have hn : s.Qualifies q a n := hmem.mp (by simp [heq])
  refine ⟨hn, fun m hm hne => ?_⟩
  have hin : m ∈ front ++ n :: back := heq ▸ hmem.mpr hm
  rcases List.mem_append.mp hin with hin | hin
  · have hle : ¬ s.rank (a.location (some n)) < s.rank (a.location (some m)) := by
      rw [rank_lt_iff hn.isInReach hm.isInReach, hfront m hin]
      simp
    have hpair : [m, n].Sublist (front ++ n :: back) :=
      Arena.pair_sublist_append.mpr (.inr (.inl ⟨hin, List.mem_cons_self⟩))
    rcases lt_trichotomy (s.rank (a.location (some m))) (s.rank (a.location (some n))) with
      hlt | hrank | hgt
    · exact .inl hlt
    · exact .inr ⟨hrank, (heq ▸ hpair : [m, n].Sublist (s.candidates q a)).trans hsub⟩
    · exact absurd hgt hle
  · rcases List.mem_cons.mp hin with rfl | hin
    · exact absurd rfl hne
    · exact .inl ((rank_lt_iff hm.isInReach hn.isInReach).mpr (hback m hin))

theorem IsLast.unique (h : s.IsLast q a m) (h' : s.IsLast q a n) : m = n := by
  by_contra hne
  obtain ⟨hnodup, _⟩ := Arena.descendants_atDepth hlinked htree
  rcases h'.others m h.qualifies hne with hlt | ⟨hrank, hpair⟩
  · rcases h.others n h'.qualifies (Ne.symm hne) with hlt' | ⟨hrank', _⟩
    · exact lt_asymm hlt hlt'
    · exact absurd hrank' hlt.ne'
  · rcases h.others n h'.qualifies (Ne.symm hne) with hlt' | ⟨_, hpair'⟩
    · exact absurd hrank hlt'.ne'
    · exact Arena.not_sublist_swap hnodup hpair hpair'

/-- A search finds the last node that qualifies. -/
theorem find_eq_some_iff : s.find q a = some n ↔ s.IsLast q a n := by
  refine ⟨isLast_of_find_eq_some hlinked htree, fun h => ?_⟩
  cases hfound : s.find q a with
  | none => exact absurd h.qualifies ((find_eq_none_iff hlinked htree).mp hfound n)
  | some m => rw [(isLast_of_find_eq_some hlinked htree hfound).unique hlinked htree h]

/-! ### Depths -/

/-- The nodes that are as late as the last one are above it or in earlier branches. -/
theorem IsLast.above_or_branch (h : s.IsLast q a n) (htie : s.Ties q a m n) (hne : m ≠ n) :
    (∃ path, a.Ancestry m n path) ∨ a.InEarlierBranch m n := by
  obtain ⟨hm, hrank⟩ := htie
  obtain ⟨_, root, hroot, path, hpath, _⟩ := h.qualifies.inTree
  rcases h.others m hm hne with hlt | ⟨_, hpair⟩
  · exact absurd hrank hlt.ne
  · rw [hroot] at hpair
    exact Arena.above_or_branch hlinked (htree root hroot) hpath.root_lt_size hpair

theorem depth_le_of_ancestry {path : List NodeId} {depth depth' : Nat}
    (h : a.Ancestry m n path) (hm : a.AtDepth q.root m depth) (hn : a.AtDepth q.root n depth') :
    depth ≤ depth' := by
  obtain ⟨root, hroot, before, hbefore, rfl⟩ := hm
  obtain ⟨root', hroot', whole, hwhole, rfl⟩ := hn
  cases hroot.symm.trans hroot'
  rw [hwhole.unique hlinked (htree root hroot) (hbefore.append h), List.length_append]
  exact Nat.le_add_left _ _

/-- Only nodes in earlier branches can be deeper than the last one. -/
theorem IsLast.isDeepest_iff (h : s.IsLast q a n) :
    s.IsDeepest q a n ↔ ∀ m, s.Ties q a m n → a.InEarlierBranch m n →
      ∀ depth depth', a.AtDepth q.root m depth → a.AtDepth q.root n depth' → depth ≤ depth' := by
  refine ⟨fun hdeepest m htie _ => hdeepest m htie, fun hbranches m htie depth depth' hm hn => ?_⟩
  by_cases hne : m = n
  · subst hne
    have ⟨_, _, path, hpath, _⟩ := hm
    exact depth_le_of_ancestry hlinked htree (.root (hpath.lt_size hlinked)) hm hn
  · rcases h.above_or_branch hlinked htree htie hne with ⟨path, habove⟩ | hbranch
    · exact depth_le_of_ancestry hlinked htree habove hm hn
    · exact hbranches m htie hbranch depth depth' hm hn

end Tree

/-- What is found at a caret in a tree, however the arena was made. Nothing is found exactly if no
node qualifies. What is found is the last node that qualifies: none is later, and those that are as
late come before it in pre-order. They are above it, and then it is deeper, or in earlier branches;
so it is a deepest one of them exactly if none of those in earlier branches is deeper. -/
theorem find_exact (ops : List Arena.Operation) (s : CaretSearch) (q : CaretQuery)
    (htree : ∀ root, q.root = some root → (Arena.empty.after ops).IsTree root) :
    let a := Arena.empty.after ops
    (s.find q a = none ↔ ∀ n, ¬ s.Qualifies q a n) ∧
    (∀ n, s.find q a = some n ↔ s.IsLast q a n) ∧
    ∀ n, s.find q a = some n →
      (∀ m, s.Ties q a m n → m ≠ n →
        (∃ path, a.Ancestry m n path) ∨ a.InEarlierBranch m n) ∧
      (s.IsDeepest q a n ↔ ∀ m, s.Ties q a m n → a.InEarlierBranch m n →
        ∀ depth depth', a.AtDepth q.root m depth → a.AtDepth q.root n depth' →
          depth ≤ depth') := by
  intro a
  have hlinked : a.Linked _ := Arena.linked_after ops
  refine ⟨find_eq_none_iff hlinked htree, fun n => find_eq_some_iff hlinked htree, fun n h => ?_⟩
  have hlast := isLast_of_find_eq_some hlinked htree h
  exact ⟨fun m => hlast.above_or_branch hlinked htree, hlast.isDeepest_iff hlinked htree⟩

/-- Identifiers and numbers at one place, first further down and then right below the root. -/
def twins : Arena := .after .empty [.read "(seq (seq (seq (id@9:5 a)) 1@9:5) (id@9:5 a) 1@9:5)"]

theorem isTree_twins {root : NodeId} (h : some 0 = some root) : twins.IsTree root := by
  cases h
  exact (Arena.linked_after _).isTree (by decide +kernel)

theorem find_exact_twins :
    let q : CaretQuery := ⟨some 0, ⟨9, 5⟩, none⟩
    (∀ root, q.root = some root → twins.IsTree root) ∧ identifier.IsLast q twins 5 ∧
      literal.IsLast q twins 6 ∧ nodeBefore.IsLast q twins 6 := by
  intro q
  have htree : ∀ root, q.root = some root → twins.IsTree root := fun _ => isTree_twins
  obtain ⟨hidentifier, hliteral, hbefore⟩ : identifier.find q twins = some 5 ∧
      literal.find q twins = some 6 ∧ nodeBefore.find q twins = some 6 := by
    decide +kernel
  have hexact (s : CaretSearch) := find_exact _ s q htree
  exact ⟨htree, ((hexact identifier).2.1 5).mp hidentifier, ((hexact literal).2.1 6).mp hliteral,
    ((hexact nodeBefore).2.1 6).mp hbefore⟩

theorem not_isDeepest {depth depth' : Nat} (htie : s.Ties q a m n)
    (hm : a.AtDepth q.root m depth) (hn : a.AtDepth q.root n depth') (hlt : depth' < depth) :
    ¬ s.IsDeepest q a n := by
  intro hdeepest
  exact Nat.not_le.mpr hlt (hdeepest m htie depth depth' hm hn)

/-- None of the nodes that are found there is a deepest one of those at its place. -/
theorem found_twins_not_deepest :
    let q : CaretQuery := ⟨some 0, ⟨9, 5⟩, none⟩
    (identifier.find q twins = some 5 ∧ ¬ identifier.IsDeepest q twins 5) ∧
      (literal.find q twins = some 6 ∧ ¬ literal.IsDeepest q twins 6) ∧
      nodeBefore.find q twins = some 6 ∧ ¬ nodeBefore.IsDeepest q twins 6 := by
  intro q
  have hqualifies {s : CaretSearch} {n : NodeId} (h : n ∈ s.candidates q twins) :
      s.Qualifies q twins n :=
    (mem_candidates_iff (Arena.linked_after _) fun _ => isTree_twins).mp h
  obtain ⟨hsize, h1, h2, h3, h4, h5, h6⟩ : 0 < twins.size ∧ 1 ∈ twins.children (some 0) ∧
      2 ∈ twins.children (some 1) ∧ 3 ∈ twins.children (some 2) ∧ 4 ∈ twins.children (some 1) ∧
      5 ∈ twins.children (some 0) ∧ 6 ∈ twins.children (some 0) := by
    decide +kernel
  have hroot : twins.Ancestry 0 0 [] := .root hsize
  have hid : twins.AtDepth q.root 3 3 :=
    ⟨0, rfl, [2, 1, 0], .child h3 (.child h2 (.child h1 hroot)), rfl⟩
  have hnumber : twins.AtDepth q.root 4 2 := ⟨0, rfl, [1, 0], .child h4 (.child h1 hroot), rfl⟩
  have htop {n : NodeId} (hn : n ∈ twins.children (some 0)) : twins.AtDepth q.root n 1 :=
    ⟨0, rfl, [0], .child hn hroot, rfl⟩
  obtain ⟨⟨hfind, hmem⟩, ⟨hfind', hmem'⟩, ⟨hfind'', hmem''⟩, h35, h46, h36⟩ :
      (identifier.find q twins = some 5 ∧ 3 ∈ identifier.candidates q twins) ∧
      (literal.find q twins = some 6 ∧ 4 ∈ literal.candidates q twins) ∧
      (nodeBefore.find q twins = some 6 ∧ 3 ∈ nodeBefore.candidates q twins) ∧
      twins.location (some 3) = twins.location (some 5) ∧
      twins.location (some 4) = twins.location (some 6) ∧
      twins.location (some 3) = twins.location (some 6) := by
    decide +kernel
  have hties {s : CaretSearch} {m n : NodeId} (hm : m ∈ s.candidates q twins)
      (hplace : twins.location (some m) = twins.location (some n)) : s.Ties q twins m n :=
    ⟨hqualifies hm, congrArg s.rank hplace⟩
  refine ⟨⟨hfind, ?_⟩, ⟨hfind', ?_⟩, hfind'', ?_⟩
  · exact not_isDeepest (hties hmem h35) hid (htop h5) (by decide)
  · exact not_isDeepest (hties hmem' h46) hnumber (htop h6) (by decide)
  · exact not_isDeepest (hties hmem'' h36) hid (htop h6) (by decide)

end CaretSearch

end PonyLens
