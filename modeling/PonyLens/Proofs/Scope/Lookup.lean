import PonyLens.Proofs.Scope.Rule

/-!
# Looking names up

What a name stands for at a node, said without a table: from the node outwards, the first node that
owns a declaration of the name decides, and of its declarations the first one in pre-order. The
look-up in the table of a tree gives just that.
-/

namespace PonyLens

namespace Arena

/-- Whether, of the declarations of a name in the tree that a node owns, the first one in pre-order
is of this definition. -/
def FirstDeclared (a : Arena) (root owner : NodeId) (name : String) (definition : NodeId) : Prop :=
  ∃ before n after, a.PreOrder [root] (before ++ n :: after) ∧
    a.Declares root n owner name definition ∧ ∀ m ∈ before, ∀ e, ¬ a.Declares root m owner name e

def DeclaresNone (a : Arena) (root owner : NodeId) (name : String) : Prop :=
  ∀ m path, a.Ancestry root m path → ∀ e, ¬ a.Declares root m owner name e

inductive StandsFor (a : Arena) (root : NodeId) (name : String) : NodeId → NodeId → Prop
  | here {n definition : NodeId} (h : a.FirstDeclared root n name definition) :
    StandsFor a root name n definition
  | outward {n m definition : NodeId} (hnone : a.DeclaresNone root n name)
    (hparent : a.parent (some n) = some m) (h : StandsFor a root name m definition) :
    StandsFor a root name n definition

variable {a : Arena} {lost : List (NodeId × NodeId)} {root n m owner d e : NodeId} {name : String}
  {path : List NodeId}

/-! ### Declarations -/

theorem PathNames.unique {path : String} (h : a.PathNames root path d)
    (h' : a.PathNames root path e) : d = e := by
  rw [← ScopeTable.package?_eq_some_iff] at h h'
  exact Option.some.inj (h.symm.trans h')

theorem Declares.unique (h : a.Declares root n owner name d) (h' : a.Declares root n owner name e) :
    d = e := by
  cases h with
  | use hclass hpath _ hfound =>
    cases h' with
    | use _ hpath' _ hfound' => exact hfound.unique (hpath ▸ hpath' ▸ hfound')
    | _ hclass' => cases hclass.symm.trans hclass'
  | _ hclass =>
    cases h' with
    | use hclass' => cases hclass.symm.trans hclass'
    | _ => rfl

theorem Declares.exists_atom (hnamed : a.Named) (h : a.Declares root n owner name d) :
    ∃ atom, a.names.Has atom name := by
  have htext {n : NodeId} {kind : Kind} (hkind : a.is (some n) kind = true) :
      ∃ atom, a.names.Has atom (a.text (some n)) :=
    ⟨_, hnamed.has_text (lt_size_of_kind? (beq_iff_eq.mp hkind))⟩
  have hname {name : String} (hname : a.name? (some n) = some name) :
      ∃ atom, a.names.Has atom name := by
    obtain ⟨c, hc, rfl⟩ := Option.map_eq_some_iff.mp hname
    exact htext (List.find?_some (p := fun c => a.is (some c) .ident) hc)
  have hknown {name : String} (hknown : (a.names.get? name).isSome = true) :
      ∃ atom, a.names.Has atom name := by
    obtain ⟨atom, hatom⟩ := Option.isSome_iff_exists.mp hknown
    exact ⟨atom, NameTable.has_of_get? hatom⟩
  cases h with
  | package _ _ hsegment => exact hknown hsegment
  | use _ _ _ _ huse _ =>
    cases huse with
    | given _ hkind => exact htext hkind
    | segment _ hsegment => exact hknown hsegment
  | _ _ hn => exact hname hn

theorem StandsFor.exists_declares (h : a.StandsFor root name n d) :
    ∃ m owner, a.Declares root m owner name d := by
  induction h with
  | here h =>
    obtain ⟨_, m, _, _, h, _⟩ := h
    exact ⟨m, _, h⟩
  | outward _ _ _ ih => exact ih

section Tree

variable (hlinked : a.Linked lost) (hroot : a.parent (some root) = none)
include hlinked hroot

theorem Declares.owns (hn : a.Ancestry root n path) (h : a.Declares root n owner name d) :
    (ScopeTable.bare a (some root)).owns owner = true := by
  rw [ScopeTable.owns_bare, mem_descendants_iff hlinked (hlinked.isTree hroot) hn.root_lt_size]
  have hpackage {p : NodeId} (hp : a.Nearest (· == .package) n p) :
      a.isA (some p) Kind.opensScope = true := by
    have hkind : a.kind? (some p) = some .package := by simpa [isA, Option.any_eq_true] using hp.isA
    rw [isA, hkind]
    rfl
  have hprogram (hp : a.is (some root) .program = true) :
      a.isA (some root) Kind.opensScope = true := by
    rw [isA, beq_iff_eq.mp hp]
    rfl
  cases h with
  | inPackage _ _ hp => exact ⟨hn.of_nearest hlinked hroot hp, hpackage hp⟩
  | outside _ _ _ hs => exact ⟨hn.of_nearest hlinked hroot hs, hs.isA⟩
  | builtin _ _ _ _ hp => exact ⟨⟨[], .root hn.root_lt_size⟩, hprogram hp⟩
  | nearby _ _ hs => exact ⟨hn.of_nearest hlinked hroot hs, hs.isA⟩
  | package _ hp _ => exact ⟨⟨[], .root hn.root_lt_size⟩, hprogram hp⟩
  | use _ _ _ _ _ hs => exact ⟨hn.of_nearest hlinked hroot hs, hs.isA⟩

/-! ### The scope of one node -/

variable (hnamed : a.Named) {atom : Atom} (hatom : a.names.Has atom name) (hname : name ≠ "")
include hnamed hatom hname

theorem Ancestry.declared?_eq_some_iff (h : a.Ancestry root n path) (owner e : NodeId) :
    ScopeTable.declared? a (some root) owner atom n = some e ↔ a.Declares root n owner name e := by
  have hmade := ScopeTable.exists_declaration_iff hlinked hroot h hnamed hatom hname owner
  have hdeclares {e : NodeId} (he : ScopeTable.declared? a (some root) owner atom n = some e) :
      a.Declares root n owner name e := by
    obtain ⟨d, hd, rfl⟩ := Option.map_eq_some_iff.mp he
    exact (hmade _).mp ⟨d, List.mem_of_find?_eq_some hd, by simpa using List.find?_some hd, rfl⟩
  refine ⟨hdeclares, fun he => ?_⟩
  obtain ⟨d, hd, hfits, _⟩ := (hmade e).mpr he
  obtain ⟨first, hfirst⟩ :
      ∃ first, ScopeTable.declared? a (some root) owner atom n = some first := by
    rw [← Option.isSome_iff_exists, ScopeTable.declared?, Option.isSome_map, List.find?_isSome]
    exact ⟨d, hd, by simpa using hfits⟩
  rw [he.unique (hdeclares hfirst)]
  exact hfirst

variable (hlt : root < a.size)
include hlt

theorem declared?_eq_none_iff (hn : n ∈ a.descendants (some root)) (owner : NodeId) :
    ScopeTable.declared? a (some root) owner atom n = none ↔
      ∀ e, ¬ a.Declares root n owner name e := by
  obtain ⟨path, hpath⟩ := (mem_descendants_iff hlinked (hlinked.isTree hroot) hlt).mp hn
  rw [Option.eq_none_iff_forall_ne_some]
  exact forall_congr' fun e =>
    not_congr (hpath.declared?_eq_some_iff hlinked hroot hnamed hatom hname owner e)

/-- The scope of a node knows what the first node declares that declares the name there. -/
theorem definition_eq_findSome? (owner : NodeId) :
    ((ScopeTable.bind a (some root)).symbol? owner atom).map Symbol.definition =
      (a.descendants (some root)).findSome? (ScopeTable.declared? a (some root) owner atom) := by
  rw [ScopeTable.definition_bind a (some root) owner (hnamed.ne_empty hatom hname)]
  split
  · rfl
  · rename_i howns
    refine (List.findSome?_eq_none_iff.mpr fun m hm => ?_).symm
    rw [declared?_eq_none_iff hlinked hroot hnamed hatom hname hlt hm]
    intro e he
    obtain ⟨path, hpath⟩ := (mem_descendants_iff hlinked (hlinked.isTree hroot) hlt).mp hm
    exact howns (he.owns hlinked hroot hpath)

theorem definition_eq_some_iff :
    ((ScopeTable.bind a (some root)).symbol? owner atom).map Symbol.definition = some d ↔
      a.FirstDeclared root owner name d := by
  obtain ⟨hpre, _, hways⟩ := preOrder_descendants hlinked (hlinked.isTree hroot) hlt
  -- The list in which the search finds something is the pre-order of the tree.
  have hfound {n : NodeId} {before after : List NodeId}
      (hsplit : a.descendants (some root) = before ++ n :: after) :
      (ScopeTable.declared? a (some root) owner atom n = some d ∧
        ∀ m ∈ before, ScopeTable.declared? a (some root) owner atom m = none) ↔
      a.Declares root n owner name d ∧ ∀ m ∈ before, ∀ e, ¬ a.Declares root m owner name e := by
    obtain ⟨path, hpath⟩ := hways n (by simp [hsplit])
    refine and_congr (hpath.declared?_eq_some_iff hlinked hroot hnamed hatom hname owner d) ?_
    refine forall₂_congr fun m hm => ?_
    exact declared?_eq_none_iff hlinked hroot hnamed hatom hname hlt (by simp [hsplit, hm]) owner
  rw [definition_eq_findSome? hlinked hroot hnamed hatom hname hlt, List.findSome?_eq_some_iff]
  constructor
  · rintro ⟨before, n, after, hsplit, h⟩
    exact ⟨before, n, after, hsplit ▸ hpre, (hfound hsplit).mp h⟩
  · rintro ⟨before, n, after, hpre', h⟩
    have hsplit := hpre.unique hpre'
    exact ⟨before, n, after, hsplit, (hfound hsplit).mpr h⟩

theorem symbol?_eq_none_iff :
    (ScopeTable.bind a (some root)).symbol? owner atom = none ↔ a.DeclaresNone root owner name := by
  have hmem {m : NodeId} := mem_descendants_iff (n := m) hlinked (hlinked.isTree hroot) hlt
  have hnone {m : NodeId} (hm : m ∈ a.descendants (some root)) :=
    declared?_eq_none_iff hlinked hroot hnamed hatom hname hlt hm owner
  rw [← Option.map_eq_none_iff, definition_eq_findSome? hlinked hroot hnamed hatom hname hlt,
    List.findSome?_eq_none_iff]
  constructor
  · intro h m path hpath
    have hm := hmem.mpr ⟨path, hpath⟩
    exact (hnone hm).mp (h m hm)
  · intro h m hm
    obtain ⟨path, hpath⟩ := hmem.mp hm
    exact (hnone hm).mpr (h m path hpath)

/-! ### Outwards -/

/-- What a name stands for at a node is said by the node itself, or else by its parent. -/
theorem standsFor_iff :
    a.StandsFor root name n d ↔
      match (ScopeTable.bind a (some root)).symbol? n atom with
      | some symbol => symbol.definition = d
      | none => ∃ m, a.parent (some n) = some m ∧ a.StandsFor root name m d := by
  have hfirst : _ ↔ a.FirstDeclared root n name d :=
    definition_eq_some_iff hlinked hroot hnamed hatom hname hlt
  have hnone : _ ↔ a.DeclaresNone root n name :=
    symbol?_eq_none_iff hlinked hroot hnamed hatom hname hlt
  cases hown : (ScopeTable.bind a (some root)).symbol? n atom with
  | none =>
    rw [hown] at hfirst hnone
    constructor
    · rintro (h | ⟨_, hparent, h⟩)
      · cases hfirst.mpr h
      · exact ⟨_, hparent, h⟩
    · rintro ⟨m, hparent, h⟩
      exact .outward (hnone.mp rfl) hparent h
  | some symbol =>
    rw [hown] at hfirst hnone
    constructor
    · rintro (h | ⟨h, _, _⟩)
      · exact Option.some.inj (hfirst.mpr h)
      · cases hnone.mpr h
    · intro h
      exact .here (hfirst.mp (congrArg some h))

theorem Ancestry.findSome?_eq_some_iff (h : a.Ancestry root n path) :
    ((n :: path).findSome? ((ScopeTable.bind a (some root)).symbol? · atom)).map Symbol.definition =
      some d ↔ a.StandsFor root name n d := by
  induction h with
  | root _ =>
    rw [standsFor_iff hlinked hroot hnamed hatom hname hlt, List.findSome?_cons]
    cases (ScopeTable.bind a (some root)).symbol? root atom <;> simp [hroot]
  | @child n p path hn hp ih =>
    have hparent := (Ancestry.child hn hp).parent_eq hlinked hroot
    rw [standsFor_iff hlinked hroot hnamed hatom hname hlt, List.findSome?_cons]
    cases (ScopeTable.bind a (some root)).symbol? n atom with
    | none => simpa [hparent] using ih
    | some symbol => simp

end Tree

end Arena

namespace ScopeTable

/-- In the table of a tree whose root has no parent, the look-up of a name follows the scoping rule,
whatever was done to the arena before: it finds what the name stands for, and nothing exactly if no
node on the way out owns a declaration of it. -/
theorem lookup_follows_rule {a : Arena} {ops : List Arena.Operation} {root n : NodeId}
    {path : List NodeId} {name : String} (ha : a = .after .empty ops)
    (hroot : a.parent (some root) = none) (hn : a.Ancestry root n path) (hname : name ≠ "") :
    (∀ definition, ((bind a (some root)).lookup a (some n) name).map Symbol.definition =
      some definition ↔ a.StandsFor root name n definition) ∧
      ((bind a (some root)).lookup a (some n) name = none ↔
        ∀ s ∈ n :: path, a.DeclaresNone root s name) := by
  have hlinked : a.Linked _ := ha ▸ Arena.linked_after ops
  have hnamed : a.Named := ha ▸ Arena.named_after ops
  have hlt := hn.root_lt_size
  rw [lookup_eq_bind, outward, hn.ancestors_eq hlinked hroot]
  cases hget : a.names.get? name with
  | none =>
    have hunknown {m owner d : NodeId} (h : a.Declares root m owner name d) : False := by
      obtain ⟨atom, hatom⟩ := h.exists_atom hnamed
      rw [hnamed.sound.get?_eq_some_iff.mpr hatom] at hget
      cases hget
    refine ⟨fun d => iff_of_false (by simp) fun h => ?_, iff_of_true rfl ?_⟩
    · obtain ⟨_, _, h⟩ := h.exists_declares
      exact hunknown h
    · exact fun s _ m _ _ e h => hunknown h
  | some atom =>
    have hatom := NameTable.has_of_get? hget
    refine ⟨fun d => hn.findSome?_eq_some_iff hlinked hroot hnamed hatom hname hlt, ?_⟩
    simp only [Option.bind_some, Option.toList_some, List.singleton_append,
      List.findSome?_eq_none_iff, Arena.symbol?_eq_none_iff hlinked hroot hnamed hatom hname hlt]

/-- A class with a field and, in its method, a parameter of the same name. -/
def hiddenField : Arena :=
  .after .empty [
    .add .ident "y" [], .add .varField "" [some 0],
    .add .ident "f" [], .add .ident "y" [], .add .param "" [some 3],
    .add .funDef "" [some 2, some 4],
    .add .ident "C" [], .add .classDef "" [some 6, some 1, some 5],
    .add .package "p" [some 7], .add .program "" [some 8]]

theorem lookup_follows_rule_hiddenField :
    (hiddenField.StandsFor 9 "y" 4 4 ∧ ¬ hiddenField.StandsFor 9 "y" 4 1) ∧
      hiddenField.StandsFor 9 "y" 1 1 ∧ hiddenField.StandsFor 9 "C" 4 7 ∧
      ∀ s ∈ [1, 7, 8, 9], hiddenField.DeclaresNone 9 s "x" := by
  have hroot : hiddenField.parent (some 9) = none := by decide +kernel
  have hclass : hiddenField.Ancestry 9 7 [8, 9] :=
    .child (by decide +kernel) (.child (by decide +kernel) (.root (by decide +kernel)))
  have hfield : hiddenField.Ancestry 9 1 [7, 8, 9] := .child (by decide +kernel) hclass
  have hparam : hiddenField.Ancestry 9 4 [5, 7, 8, 9] :=
    .child (by decide +kernel) (.child (by decide +kernel) hclass)
  have hy := (lookup_follows_rule rfl hroot hparam (by decide : "y" ≠ "")).1
  have hyField := (lookup_follows_rule rfl hroot hfield (by decide : "y" ≠ "")).1
  have hC := (lookup_follows_rule rfl hroot hparam (by decide : "C" ≠ "")).1
  have hx := (lookup_follows_rule rfl hroot hfield (by decide : "x" ≠ "")).2
  exact ⟨⟨(hy 4).mp (by decide +kernel), fun h => absurd ((hy 1).mpr h) (by decide +kernel)⟩,
    (hyField 1).mp (by decide +kernel), (hC 7).mp (by decide +kernel),
    hx.mp (by decide +kernel)⟩

end ScopeTable

end PonyLens
