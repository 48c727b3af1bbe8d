import Mathlib.Data.List.Induction
import PonyLens.Proofs.Scope.Visibility

/-!
# Listing the names that can be used

The listing of all names that can be used at a node and the look-up of one name walk over the same
scopes. Both take a name from the nearest scope that has it, so the listing has each name once, and
with what the look-up finds. It goes from the inside to the outside, and through one scope in the
order in which the nodes of the tree declare its names.
-/

namespace PonyLens

section Positions

variable {α β : Type} {p : α → Bool} {xs ys : List α}

end Positions

namespace NameTable

variable {t : NameTable} {atom : Atom} {name : String}

end NameTable

namespace Arena

variable {a : Arena}

theorem Named.has_atom (h : a.Named) (l : Link) : a.names.Has (a.atom l) (a.text l) := by
  refine ⟨?_, rfl⟩
  rw [atom]
  cases hnode : a.get? l with
  | none => exact h.sound.has_empty.1
  | some node =>
    obtain ⟨n, rfl, hnode⟩ := Option.bind_eq_some_iff.mp hnode
    exact h.lt_size n node hnode

end Arena

namespace Scope

def names (s : Scope) : List Atom := s.entries.map Prod.fst

variable {s outer : Scope} {name : Atom} {symbol : Symbol}

theorem mem_names_iff : name ∈ s.names ↔ (s.find? name).isSome = true := by
  rw [find?, List.lookup_isSome_iff, names, List.mem_map]
  refine exists_congr fun entry => and_congr_right fun _ => ?_
  rw [beq_iff_eq, eq_comm]

theorem names_consume (s : Scope) (name : Atom) : (s.consume name).names = s.names := by
  simp [names, consume, Function.comp_def]

end Scope

namespace ScopeTable

def namesIn (t : ScopeTable) (owner : NodeId) : List Atom :=
  ((t.scope? owner).map Scope.names).getD []

variable {a : Arena} {t : ScopeTable} {root l : Link} {owner : NodeId} {name other : Atom}
  {owners : List NodeId}

theorem mem_namesIn_iff : name ∈ t.namesIn owner ↔ (t.symbol? owner name).isSome = true := by
  rw [namesIn, symbol?]
  cases t.scope? owner with
  | none => simp
  | some s => exact Scope.mem_names_iff

/-! ### The order in one scope -/

def declaresAs (a : Arena) (root : Link) (owner : NodeId) (name : Atom) (n : NodeId) : Bool :=
  ((bare a root).declarations a n).any fun d => d.owner == some owner && d.name == name

/-- The table of a tree with the declarations of some of its nodes. -/
def declaredBy (a : Arena) (root : Link) (ns : List NodeId) : ScopeTable :=
  (ns.flatMap (bare a root |>.declarations a)).foldl declare (bare a root)

theorem bind_eq_foldl (a : Arena) (root : Link) :
    bind a root = ((a.descendants root).filter fun n => a.is (some n) .consume).foldl
      (markConsumed a) (declaredBy a root (a.descendants root)) := rfl

theorem namesIn_modify (t : ScopeTable) (changed : NodeId) {f : Scope → Scope}
    (hf : ∀ s, (f s).names = s.names) (owner : NodeId) :
    (t.modify changed f).namesIn owner = t.namesIn owner := by
  rw [namesIn, namesIn, scope?_modify]
  cases t.scope? owner with
  | none => rfl
  | some s =>
    simp only [Option.map_some, Option.getD_some]
    split
    · exact hf s
    · rfl

/-- What is given away keeps its place. -/
theorem namesIn_bind (a : Arena) (root : Link) (owner : NodeId) :
    (bind a root).namesIn owner = (declaredBy a root (a.descendants root)).namesIn owner := by
  have hmark (t : ScopeTable) (n : NodeId) :
      (markConsumed a t n).namesIn owner = t.namesIn owner := by
    rcases markConsumed_cases a t n with heq | ⟨place, given, heq⟩
    · rw [heq]
    · rw [heq]
      exact namesIn_modify t place (fun s => s.names_consume given) owner
  rw [bind_eq_foldl]
  generalize (a.descendants root).filter (fun n => a.is (some n) .consume) = ns
  generalize declaredBy a root (a.descendants root) = t
  induction ns generalizing t with
  | nil => rfl
  | cons n ns ih => rw [List.foldl_cons, ih, hmark]

theorem has_name_of_useDeclaration? (hnamed : a.Named) {d : Declaration} {n : NodeId}
    (h : t.useDeclaration? a n = some d) : ∃ text, a.names.Has d.name text := by
  rw [useDeclaration?_eq] at h
  dsimp only at h
  split at h
  · cases h
  · obtain ⟨package, _, h⟩ := Option.bind_eq_some_iff.mp h
    obtain ⟨atom, hatom, rfl⟩ := Option.map_eq_some_iff.mp h
    split at hatom
    · cases hatom
      exact ⟨_, hnamed.has_atom _⟩
    · exact ⟨_, NameTable.has_of_get? hatom⟩

/-- All that a node declares has one name, which is a name of the arena. -/
theorem exists_name_of_declarations (hnamed : a.Named) (t : ScopeTable) (n : NodeId) :
    ∃ atom text, a.names.Has atom text ∧ ∀ d ∈ t.declarations a n, d.name = atom := by
  have hname : a.names.Has (a.nameAtom (some n)) _ := hnamed.has_atom (a.firstChild (some n) .ident)
  have hempty := hnamed.sound.has_empty
  have hspec := declarations_spec t a n
  cases hclass : a.declaringClass n with
  | type =>
    simp only [hclass] at hspec
    refine ⟨_, _, hname, ?_⟩
    rw [hspec]
    split <;> simp
  | nearby =>
    simp only [hclass] at hspec
    obtain ⟨status, hspec⟩ := hspec
    exact ⟨_, _, hname, by simp [hspec]⟩
  | package =>
    simp only [hclass] at hspec
    rw [hspec]
    split
    · rename_i program atom _ hknown
      exact ⟨atom, _, NameTable.has_of_get? hknown, by simp⟩
    · exact ⟨_, _, hempty, by simp⟩
  | use =>
    simp only [hclass] at hspec
    rw [hspec]
    cases huse : t.useDeclaration? a n with
    | none => exact ⟨_, _, hempty, by simp⟩
    | some d =>
      obtain ⟨text, htext⟩ := has_name_of_useDeclaration? hnamed huse
      exact ⟨d.name, text, htext, by simp⟩
  | nothing =>
    simp only [hclass] at hspec
    exact ⟨_, _, hempty, by simp [hspec]⟩

theorem mem_namesIn_declaredBy (ns : List NodeId) :
    name ∈ (declaredBy a root ns).namesIn owner ↔ (bare a root).owns owner = true ∧
      name ≠ .empty ∧ ∃ n ∈ ns, declaresAs a root owner name n = true := by
  rw [mem_namesIn_iff, declaredBy]
  by_cases hname : name = .empty
  · subst hname
    simp [symbol?_foldl_declare_empty, symbol?_bare]
  · rw [symbol?_foldl_declare _ _ hname, symbol?_bare, Option.none_or]
    split
    · rename_i howns
      rw [Option.isSome_map, List.find?_isSome, and_iff_right howns, and_iff_right hname]
      simp only [declaresAs, List.mem_flatMap, List.any_eq_true, decide_eq_true_eq,
        Bool.and_eq_true, beq_iff_eq]
      constructor
      · rintro ⟨d, ⟨n, hn, hd⟩, hfits⟩
        exact ⟨n, hn, d, hd, hfits⟩
      · rintro ⟨n, hn, d, hd, hfits⟩
        exact ⟨d, ⟨n, hn, hd⟩, hfits⟩
    · rename_i howns
      exact iff_of_false (by simp) fun h => howns h.1

/-- Whether a name stands before another one in the merged scopes of several nodes: an earlier node
has it, or the same node at a lower place. -/
def MergedBefore (t : ScopeTable) (place : NodeId → Atom → Nat) (owners : List NodeId)
    (name other : Atom) : Prop :=
  owners.findIdx (fun owner => (t.symbol? owner name).isSome) <
      owners.findIdx (fun owner => (t.symbol? owner other).isSome) ∨
    ∃ owner, owners.find? (fun owner => (t.symbol? owner name).isSome) = some owner ∧
      owners.find? (fun owner => (t.symbol? owner other).isSome) = some owner ∧
      place owner name < place owner other

theorem MergedBefore.ne {place : NodeId → Atom → Nat} (h : t.MergedBefore place owners name other) :
    name ≠ other := by
  rintro rfl
  rcases h with hlt | ⟨owner, _, _, hlt⟩
  · exact Nat.lt_irrefl _ hlt
  · exact Nat.lt_irrefl _ hlt

def has (t : ScopeTable) (a : Arena) (name : String) (owner : NodeId) : Bool :=
  (t.lookupIn a (some owner) name).isSome

def scopeOf? (t : ScopeTable) (a : Arena) (l : Link) (name : String) : Link :=
  (outward a l).find? (t.has a name)

def distance (t : ScopeTable) (a : Arena) (l : Link) (name : String) : Nat :=
  (outward a l).findIdx (t.has a name)

/-- The place, in the pre-order of a tree, of the first node that declares a name in the scope of
another node. -/
def turn (a : Arena) (root : Link) (owner : NodeId) (name : String) : Nat :=
  (a.descendants root).findIdx fun n => ((bare a root).declarations a n).any fun d =>
    d.owner == some owner && a.names.text d.name == name

/-- Whether a name goes before another one among the names that can be used at a node: a scope
farther inside has it, or the same scope, where it was declared earlier. -/
def ListedBefore (a : Arena) (root l : Link) (name other : String) : Prop :=
  (bind a root).distance a l name < (bind a root).distance a l other ∨
    ∃ owner, (bind a root).scopeOf? a l name = some owner ∧
      (bind a root).scopeOf? a l other = some owner ∧
      turn a root owner name < turn a root owner other

theorem ListedBefore.ne {name other : String} (h : ListedBefore a root l name other) :
    name ≠ other := by
  rintro rfl
  rcases h with hlt | ⟨owner, _, _, hlt⟩
  · exact Nat.lt_irrefl _ hlt
  · exact Nat.lt_irrefl _ hlt

section Named

variable (hnamed : a.Named)
include hnamed

theorem exists_name_of_symbol? (h : ((bind a root).symbol? owner name).isSome = true) :
    ∃ text, text ≠ "" ∧ a.names.Has name text := by
  rw [← mem_namesIn_iff, namesIn_bind, mem_namesIn_declaredBy] at h
  obtain ⟨_, hname, n, _, hmade⟩ := h
  obtain ⟨d, hd, hfits⟩ := List.any_eq_true.mp hmade
  obtain ⟨atom, text, hhas, hsame⟩ := exists_name_of_declarations hnamed (bare a root) n
  have hatom : name = atom :=
    (beq_iff_eq.mp (Bool.and_eq_true_iff.mp hfits).2).symm.trans (hsame d hd)
  refine ⟨text, ?_, hatom ▸ hhas⟩
  rintro rfl
  exact hname (hatom.trans (hnamed.sound.unique hhas hnamed.sound.has_empty))

section Atom

variable {text text' : String} (hname : a.names.Has name text) (hother : a.names.Has other text')

include hname

theorem lookupIn_eq_symbol? (t : ScopeTable) (owner : NodeId) :
    t.lookupIn a (some owner) text = t.symbol? owner name := by
  rw [lookupIn_eq_bind, hnamed.sound.get?_eq_some_iff.mpr hname, Option.bind_some]

theorem has_eq_isSome (t : ScopeTable) :
    t.has a text = fun owner => (t.symbol? owner name).isSome := by
  funext owner
  rw [has, lookupIn_eq_symbol? hnamed hname]

include hother

end Atom

/-! ### The listing -/

end Named

end ScopeTable

end PonyLens
