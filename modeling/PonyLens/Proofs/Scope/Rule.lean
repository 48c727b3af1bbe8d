import Mathlib.Data.List.Find
import PonyLens.Proofs.Arena.Names
import PonyLens.Proofs.Arena.Walks
import PonyLens.Proofs.Scope.Tables

/-!
# The scoping rule

Which declarations a node makes, said by what stands around the node and with names as texts. The
declarations that go into a scope table are those.
-/

namespace PonyLens

inductive DeclaringClass where
  /-- In the package, or else in the nearest scope. -/
  | type
  /-- In the nearest scope. -/
  | nearby
  /-- In the program. -/
  | package
  /-- A package, in the nearest scope. -/
  | use
  | nothing
deriving DecidableEq

def Kind.declaringClass : Kind → DeclaringClass
  | .aliasDef | .interfaceDef | .traitDef | .primitiveDef | .structDef | .classDef
  | .actorDef => .type
  | .letField | .varField | .embedField | .param | .funDef | .beDef | .newDef | .typeParam
  | .letLocal | .varLocal | .matchCapture => .nearby
  | .package => .package
  | .useClause => .use
  | _ => .nothing

namespace Arena

def declaringClass (a : Arena) (n : NodeId) : DeclaringClass :=
  ((a.kind? (some n)).map Kind.declaringClass).getD .nothing

/-- Whether a node is a package of this path, or of another path with the same last segment. -/
def IsPackage (a : Arena) (path : String) (p : NodeId) : Prop :=
  a.is (some p) .package = true ∧
    (a.text (some p) = path ∨ lastSegment (a.text (some p)) = lastSegment path)

/-- Whether a path names a package: the first such package right below a program. -/
def PathNames (a : Arena) (root : NodeId) (path : String) (package : NodeId) : Prop :=
  a.is (some root) .program = true ∧ ∃ before after,
    a.children (some root) = before ++ package :: after ∧ a.IsPackage path package ∧
      ∀ p ∈ before, ¬ a.IsPackage path p

/-- Whether a use clause binds a package by this name: its alias, or else the last segment of its
path, if that is a known name. -/
inductive UseName (a : Arena) (n : NodeId) (path : String) : String → Prop
  | given {given : NodeId} (hgiven : a.child (some n) 0 = some given)
    (hkind : a.is (some given) .ident = true) : UseName a n path (a.text (some given))
  | segment (hkind : a.is (a.child (some n) 0) .ident = false)
    (hknown : (a.names.get? (lastSegment path)).isSome = true) :
    UseName a n path (lastSegment path)

/-- Whether a node declares, in the scope of another node, that a name stands for a definition. -/
inductive Declares (a : Arena) (root n : NodeId) : NodeId → String → NodeId → Prop
  | inPackage {package : NodeId} {name : String} (hclass : a.declaringClass n = .type)
    (hname : a.name? (some n) = some name) (hpackage : a.Nearest (· == .package) n package) :
    Declares a root n package name n
  | outside {scope : NodeId} {name : String} (hclass : a.declaringClass n = .type)
    (hname : a.name? (some n) = some name) (hnone : ∀ package, ¬ a.Nearest (· == .package) n package)
    (hscope : a.Nearest Kind.opensScope n scope) : Declares a root n scope name n
  | builtin {package : NodeId} {name : String} (hclass : a.declaringClass n = .type)
    (hname : a.name? (some n) = some name) (hpackage : a.Nearest (· == .package) n package)
    (hbuiltin : a.text (some package) = "builtin") (hroot : a.is (some root) .program = true) :
    Declares a root n root name n
  | nearby {scope : NodeId} {name : String} (hclass : a.declaringClass n = .nearby)
    (hname : a.name? (some n) = some name) (hscope : a.Nearest Kind.opensScope n scope) :
    Declares a root n scope name n
  | package (hclass : a.declaringClass n = .package) (hroot : a.is (some root) .program = true)
    (hknown : (a.names.get? (lastSegment (a.text (some n)))).isSome = true) :
    Declares a root n root (lastSegment (a.text (some n))) n
  | use {package scope : NodeId} {name path : String} (hclass : a.declaringClass n = .use)
    (hpath : a.text (a.firstChild (some n) .stringLit) = path) (hne : path ≠ "")
    (hfound : a.PathNames root path package)
    (hname : a.UseName n path name) (hscope : a.Nearest Kind.opensScope n scope) :
    Declares a root n scope name package

end Arena

namespace ScopeTable

variable {a : Arena} {t : ScopeTable} {n root : NodeId}

theorem declarations_spec (t : ScopeTable) (a : Arena) (n : NodeId) :
    let name := a.nameAtom (some n)
    match a.declaringClass n with
    | .type =>
      let package := a.enclosing (some n) (· == .package)
      let owner := if package.isSome then package else t.ownerOf a n
      t.declarations a n = ⟨owner, name, ⟨n, .defined⟩⟩ ::
        (if a.text package == "builtin" then [⟨t.program, name, ⟨n, .defined⟩⟩] else [])
    | .nearby => ∃ status, t.declarations a n = [⟨t.ownerOf a n, name, ⟨n, status⟩⟩]
    | .package => t.declarations a n =
      match t.program, a.names.get? (lastSegment (a.text (some n))) with
      | some program, some atom => [⟨some program, atom, ⟨n, .defined⟩⟩]
      | _, _ => []
    | .use => t.declarations a n = (t.useDeclaration? a n).toList
    | .nothing => t.declarations a n = [] := by
  rw [declarations, Arena.declaringClass]
  cases a.kind? (some n) with
  | none => rfl
  | some kind => cases kind <;> first | rfl | exact ⟨_, rfl⟩

theorem useDeclaration?_eq (t : ScopeTable) (a : Arena) (n : NodeId) :
    t.useDeclaration? a n =
      let path := a.text (a.firstChild (some n) .stringLit)
      if path = "" then none
      else (t.package? a path).bind fun package =>
        (if a.is (a.child (some n) 0) .ident = true then some (a.atom (a.child (some n) 0))
          else a.names.get? (lastSegment path)).map fun name =>
            ⟨t.ownerOf a n, name, ⟨package, .defined⟩⟩ := by
  rw [useDeclaration?]
  simp only [String.isEmpty_iff]
  split
  · rfl
  · cases t.package? a (a.text (a.firstChild (some n) .stringLit)) with
    | none => rfl
    | some package =>
      simp only [Option.bind_some]
      split
      · rfl
      · cases a.names.get? (lastSegment (a.text (a.firstChild (some n) .stringLit))) <;> rfl

/-! ### Declarations in a table without entries -/

theorem package?_eq_some_iff (a : Arena) (root : NodeId) (path : String) (p : NodeId) :
    (bare a (some root)).package? a path = some p ↔ a.PathNames root path p := by
  rw [package?, program_bare, Arena.PathNames]
  split
  · rename_i hroot
    rw [and_iff_right hroot, List.find?_eq_some_iff_append]
    simp only [Arena.IsPackage, Bool.and_eq_true, Bool.or_eq_true, beq_iff_eq, Bool.not_eq_true',
      ← Bool.not_eq_true]
    constructor
    · rintro ⟨hp, before, after, hsplit, hbefore⟩
      exact ⟨before, after, hsplit, hp, hbefore⟩
    · rintro ⟨before, after, hsplit, hp, hbefore⟩
      exact ⟨hp, before, after, hsplit, hbefore⟩
  · rename_i hroot
    exact iff_of_false (by simp [Arena.children, Arena.get?]) fun h => hroot h.1

section Tree

variable {lost : List (NodeId × NodeId)} {path : List NodeId} (hlinked : a.Linked lost)
  (hroot : a.parent (some root) = none) (h : a.Ancestry root n path)
include hlinked hroot h

theorem ownerOf_eq_some_iff {s : NodeId} :
    (bare a (some root)).ownerOf a n = some s ↔ a.Nearest Kind.opensScope n s := by
  rw [ownerOf, ← h.find?_ancestors_iff hlinked hroot]
  have hsame : ∀ m ∈ a.ancestors (some n),
      (bare a (some root)).owns m = a.isA (some m) Kind.opensScope := by
    intro m hm
    rw [h.ancestors_eq hlinked hroot] at hm
    obtain ⟨_, rest, _, hrest⟩ := h.exists_of_mem hm
    have htree := hlinked.isTree hroot
    have hmem := (Arena.mem_descendants_iff hlinked htree h.root_lt_size).mpr ⟨rest, hrest⟩
    rw [Bool.eq_iff_iff, owns_bare, and_iff_right hmem]
  rw [List.find?_congr hsame]

variable (hnamed : a.Named) {atom : Atom} {name : String} (hatom : a.names.Has atom name)
  (hname : name ≠ "")
include hnamed hatom hname

theorem exists_declaration_iff_of_type (hclass : a.declaringClass n = .type)
    (owner definition : NodeId) :
    (∃ d ∈ (bare a (some root)).declarations a n,
      (d.owner = some owner ∧ d.name = atom) ∧ d.symbol.definition = definition) ↔
      a.Declares root n owner name definition := by
  have hspec := declarations_spec (bare a (some root)) a n
  have howner {s : NodeId} := ownerOf_eq_some_iff (s := s) hlinked hroot h
  have hnames := hnamed.nameAtom_eq_iff hatom hname (some n)
  have hpackage {p : NodeId} : a.enclosing (some n) (· == .package) = some p ↔
    a.Nearest (· == .package) n p := h.find?_ancestors_iff hlinked hroot _
  simp only [hclass] at hspec
  rw [hspec, program_bare]
  simp only [List.mem_cons, or_and_right, exists_or, exists_eq_left, hnames]
  cases hfound : a.enclosing (some n) (· == .package) with
  | none =>
    have hnone (p : NodeId) : ¬ a.Nearest (· == .package) n p := by
      rw [← hpackage, hfound]
      exact Option.some_ne_none p ∘ Eq.symm
    have htext : (a.text none == "builtin") = false := by
      have hempty : a.text none = "" := hnamed.sound.has_empty.2
      simp [hempty]
    simp only [htext, Option.isSome_none, Bool.false_eq_true, if_false, howner, List.not_mem_nil,
      false_and, exists_false, or_false]
    constructor
    · rintro ⟨⟨hscope, hn⟩, rfl⟩
      exact .outside hclass hn hnone hscope
    · intro hd
      cases hd with
      | inPackage _ _ hp => exact absurd hp (hnone _)
      | builtin _ _ hp => exact absurd hp (hnone _)
      | outside _ hn _ hscope => exact ⟨⟨hscope, hn⟩, rfl⟩
      | _ hclass' => cases hclass.symm.trans hclass'
  | some package =>
    have hnearest := hpackage.mp hfound
    have honly {p : NodeId} (hp : a.Nearest (· == .package) n p) : package = p :=
      Option.some.inj (hfound.symm.trans (hpackage.mpr hp))
    simp only [Option.isSome_some, if_true, Option.some.injEq]
    constructor
    · rintro (⟨⟨rfl, hn⟩, rfl⟩ | ⟨d, hd, ⟨hdowner, hdname⟩, rfl⟩)
      · exact .inPackage hclass hn hnearest
      · split at hd
        · rename_i hbuiltin
          cases List.mem_singleton.mp hd
          dsimp only at hdowner hdname
          split at hdowner
          · cases hdowner
            exact .builtin hclass (hnames.mp hdname) hnearest (beq_iff_eq.mp hbuiltin) ‹_›
          · cases hdowner
        · exact absurd hd List.not_mem_nil
    · intro hd
      cases hd with
      | inPackage _ hn hp => exact .inl ⟨⟨honly hp, hn⟩, rfl⟩
      | outside _ _ hnone _ => exact absurd hnearest (hnone package)
      | builtin _ hn hp hbuiltin hroot' =>
        rw [← honly hp] at hbuiltin
        refine .inr ⟨⟨some root, atom, ⟨n, .defined⟩⟩, ?_, ⟨rfl, rfl⟩, rfl⟩
        simp [hbuiltin, hroot', hnames.mpr hn]
      | _ hclass' => cases hclass.symm.trans hclass'

omit hlinked hroot h in
/-- The name of a use clause has the atom that the table gives it. -/
theorem useName_iff (n : NodeId) (path : String) :
    (if a.is (a.child (some n) 0) .ident = true then some (a.atom (a.child (some n) 0))
      else a.names.get? (lastSegment path)) = some atom ↔ a.UseName n path name := by
  have hsegment := hnamed.get?_eq_some_iff hatom (lastSegment path)
  cases hgiven : a.is (a.child (some n) 0) .ident with
  | false =>
    rw [if_neg (by simp), hsegment]
    constructor
    · rintro rfl
      exact .segment hgiven (by rw [hsegment.mpr rfl]; rfl)
    · rintro (⟨hchild, hkind⟩ | _)
      · rw [hchild, hkind] at hgiven
        cases hgiven
      · rfl
  | true =>
    obtain ⟨given, hchild⟩ : ∃ given, a.child (some n) 0 = some given := by
      cases hchild : a.child (some n) 0 with
      | none => simp [hchild, Arena.is, Arena.kind?, Arena.get?] at hgiven
      | some given => exact ⟨given, rfl⟩
    rw [hchild] at hgiven ⊢
    have hkind : a.kind? (some given) = some .ident := by simpa [Arena.is] using hgiven
    rw [if_pos rfl, Option.some.injEq, hnamed.atom_eq_iff hatom (Arena.lt_size_of_kind? hkind)]
    constructor
    · rintro rfl
      exact .given hchild hgiven
    · rintro (⟨hchild', _⟩ | ⟨hkind', _⟩)
      · cases hchild.symm.trans hchild'
        rfl
      · rw [hchild, hgiven] at hkind'
        cases hkind'

theorem exists_declaration_iff_of_use (hclass : a.declaringClass n = .use)
    (owner definition : NodeId) :
    (∃ d ∈ (bare a (some root)).declarations a n,
      (d.owner = some owner ∧ d.name = atom) ∧ d.symbol.definition = definition) ↔
      a.Declares root n owner name definition := by
  have hspec := declarations_spec (bare a (some root)) a n
  have howner {s : NodeId} := ownerOf_eq_some_iff (s := s) hlinked hroot h
  have huse := useName_iff hnamed hatom hname n (a.text (a.firstChild (some n) .stringLit))
  simp only [hclass] at hspec
  rw [hspec, useDeclaration?_eq]
  simp only [Option.mem_toList]
  constructor
  · rintro ⟨d, hd, ⟨hdowner, hdname⟩, rfl⟩
    split at hd
    · cases hd
    · rename_i hne
      obtain ⟨package, hpackage, hd⟩ := Option.bind_eq_some_iff.mp hd
      obtain ⟨atom', hatom', rfl⟩ := Option.map_eq_some_iff.mp hd
      cases hdname
      have hfound := (package?_eq_some_iff a root _ package).mp hpackage
      exact .use hclass rfl hne hfound (huse.mp hatom') (howner.mp hdowner)
  · intro hd
    cases hd with
    | use _ hpath hne hfound hn hscope =>
      subst hpath
      have hpackage := (package?_eq_some_iff a root _ definition).mpr hfound
      refine ⟨⟨some owner, atom, ⟨definition, .defined⟩⟩, ?_, ⟨rfl, rfl⟩, rfl⟩
      rw [if_neg hne, hpackage, Option.bind_some, huse.mpr hn, howner.mpr hscope]
      rfl
    | _ hclass' => cases hclass.symm.trans hclass'

/-- The declarations that a node makes are those of the rule. -/
theorem exists_declaration_iff (owner definition : NodeId) :
    (∃ d ∈ (bare a (some root)).declarations a n,
      (d.owner = some owner ∧ d.name = atom) ∧ d.symbol.definition = definition) ↔
      a.Declares root n owner name definition := by
  have hspec := declarations_spec (bare a (some root)) a n
  have howner {s : NodeId} := ownerOf_eq_some_iff (s := s) hlinked hroot h
  have hnames := hnamed.nameAtom_eq_iff hatom hname (some n)
  cases hclass : a.declaringClass n with
  | type => exact exists_declaration_iff_of_type hlinked hroot h hnamed hatom hname hclass _ _
  | use => exact exists_declaration_iff_of_use hlinked hroot h hnamed hatom hname hclass _ _
  | nearby =>
    simp only [hclass] at hspec
    obtain ⟨status, hspec⟩ := hspec
    simp only [hspec, List.mem_singleton, exists_eq_left, howner, hnames]
    constructor
    · rintro ⟨⟨hscope, hn⟩, rfl⟩
      exact .nearby hclass hn hscope
    · intro hd
      cases hd with
      | nearby _ hn hscope => exact ⟨⟨hscope, hn⟩, rfl⟩
      | _ hclass' => cases hclass.symm.trans hclass'
  | package =>
    simp only [hclass] at hspec
    have hsegment := hnamed.get?_eq_some_iff hatom (lastSegment (a.text (some n)))
    rw [hspec, program_bare]
    constructor
    · rintro ⟨d, hd, ⟨hdowner, hdname⟩, rfl⟩
      split at hd
      · rename_i program atom' hroot' hknown
        split at hroot'
        · cases hroot'
          cases List.mem_singleton.mp hd
          cases hdowner
          cases hdname
          have hsame := hsegment.mp hknown
          subst hsame
          exact .package hclass ‹_› (by rw [hknown]; rfl)
        · cases hroot'
      · exact absurd hd List.not_mem_nil
    · intro hd
      cases hd with
      | package _ hroot' hknown =>
        have hfound := hsegment.mpr rfl
        exact ⟨⟨some root, atom, ⟨n, .defined⟩⟩, by simp [hroot', hfound], ⟨rfl, rfl⟩, rfl⟩
      | _ hclass' => cases hclass.symm.trans hclass'
  | nothing =>
    simp only [hclass] at hspec
    rw [hspec]
    constructor
    · rintro ⟨d, hd, _⟩
      exact absurd hd List.not_mem_nil
    · intro hd
      cases hd with
      | _ hclass' => cases hclass.symm.trans hclass'

end Tree

end ScopeTable

end PonyLens
