import PonyLens.Proofs.Cache.Answers
import PonyLens.Proofs.Cache.Queries
import PonyLens.Proofs.Scope.Lookup

/-!
# Package boundaries

A type is declared in its package, and a builtin one in the program as well. So the name of a type,
if it stands for a type at all, stands for one of the package around the place where it is used or
for a builtin one, and behind the name of a package for one of that package. A declaration of
another kind may hide a type, but it is never taken for one.
-/

namespace PonyLens

namespace Arena

/-- Whether all packages of a tree are right below its root. -/
def PackagesOnTop (a : Arena) (root : NodeId) : Prop :=
  ∀ p path, a.Ancestry root p path → a.is (some p) .package = true → path = [root]

def TypesInPackages (a : Arena) (root : NodeId) : Prop :=
  ∀ d path, a.Ancestry root d path → a.isA (some d) Kind.isTypeDefinition = true →
    ∃ p, a.Nearest (· == .package) d p

variable {a : Arena} {lost : List (NodeId × NodeId)} {root n m p d owner : NodeId} {name : String}
  {path : List NodeId}

/-! ### Declarations of types -/

theorem declaringClass_of_isTypeDefinition (hd : a.isA (some d) Kind.isTypeDefinition = true) :
    a.declaringClass d = .type := by
  rw [declaringClass]
  cases hkind : a.kind? (some d) with
  | none => simp [isA, hkind] at hd
  | some kind =>
    have htype : kind.isTypeDefinition = true := by simpa [isA, hkind] using hd
    cases kind <;> first | rfl | cases htype

theorem not_isTypeDefinition_of_package (hp : a.is (some p) .package = true) :
    a.isA (some p) Kind.isTypeDefinition = false := by
  simp [isA, beq_iff_eq.mp hp, Kind.isTypeDefinition]

/-- A type definition declares itself: in its package if it has one, and if that is the builtin one
in the program too. -/
theorem Declares.of_isTypeDefinition (h : a.Declares root m owner name d)
    (hd : a.isA (some d) Kind.isTypeDefinition = true) :
    d = m ∧ a.name? (some d) = some name ∧
      (a.Nearest (· == .package) d owner ∨ (∀ p, ¬ a.Nearest (· == .package) d p) ∨
        a.is (some owner) .program = true ∧
          ∃ p, a.Nearest (· == .package) d p ∧ a.text (some p) = "builtin") := by
  have htype := declaringClass_of_isTypeDefinition hd
  cases h with
  | inPackage _ hname hpackage => exact ⟨rfl, hname, .inl hpackage⟩
  | outside _ hname hnone _ => exact ⟨rfl, hname, .inr (.inl hnone)⟩
  | builtin _ hname hpackage hbuiltin hroot =>
    exact ⟨rfl, hname, .inr (.inr ⟨hroot, _, hpackage, hbuiltin⟩)⟩
  | nearby hclass => cases htype.symm.trans hclass
  | package hclass => cases htype.symm.trans hclass
  | use _ _ _ hfound =>
    obtain ⟨_, _, _, _, ⟨hpackage, _⟩, _⟩ := hfound
    rw [not_isTypeDefinition_of_package hpackage] at hd
    cases hd

section Tree

variable (hlinked : a.Linked lost) (hroot : a.parent (some root) = none)
include hlinked hroot

theorem Ancestry.nearest_of_mem (hpackages : a.PackagesOnTop root) (h : a.Ancestry root n path)
    (hp : p ∈ path) (hkind : a.is (some p) .package = true) : a.Nearest (· == .package) n p := by
  have hisA : a.isA (some p) (· == .package) = true := by simp [isA, beq_iff_eq.mp hkind]
  induction h with
  | root _ => simp at hp
  | @child n q path hn hq ih =>
    have hparent := (Ancestry.child hn hq).parent_eq hlinked hroot
    rcases List.mem_cons.mp hp with rfl | hp
    · exact .here hparent hisA
    · refine .further hparent ?_ (ih hp)
      by_contra hq'
      have hqkind : a.is (some q) .package = true := by
        simpa [isA, Arena.is, Option.any_eq_true] using hq'
      -- Above a package there is only the root, and the root is no package.
      rw [hpackages q path hq hqkind, List.mem_singleton] at hp
      subst hp
      simpa using hpackages p [] (.root hq.root_lt_size) hkind

variable (hlt : root < a.size)
include hlt

theorem packagesOnTop_of_forall (h : ∀ p ∈ a.descendants (some root),
    a.is (some p) .package = true → a.ancestors (some p) = [root]) : a.PackagesOnTop root := by
  intro p path hp hkind
  rw [← hp.ancestors_eq hlinked hroot]
  exact h p ((mem_descendants_iff hlinked (hlinked.isTree hroot) hlt).mpr ⟨path, hp⟩) hkind

theorem typesInPackages_of_forall (h : ∀ d ∈ a.descendants (some root),
    a.isA (some d) Kind.isTypeDefinition = true →
      (a.enclosing (some d) (· == .package)).isSome = true) : a.TypesInPackages root := by
  intro d path hd htype
  have hsome := h d ((mem_descendants_iff hlinked (hlinked.isTree hroot) hlt).mpr ⟨path, hd⟩) htype
  obtain ⟨p, hp⟩ := Option.isSome_iff_exists.mp hsome
  exact ⟨p, (hd.find?_ancestors_iff hlinked hroot _).mp hp⟩

variable (hnamed : a.Named)
include hnamed

theorem exists_declares_of_symbol? {atom : Atom} {symbol : Symbol} (hatom : a.names.Has atom name)
    (h : (ScopeTable.bind a (some root)).symbol? owner atom = some symbol) :
    ∃ m path, a.Ancestry root m path ∧ a.Declares root m owner name symbol.definition := by
  have hname : name ≠ "" := by
    rintro rfl
    rw [hnamed.sound.unique hatom hnamed.sound.has_empty, ScopeTable.symbol?_bind_empty] at h
    cases h
  have hdefinition := definition_eq_findSome? hlinked hroot hnamed hatom hname hlt owner
  rw [h, Option.map_some, eq_comm] at hdefinition
  obtain ⟨m, hm, hfound⟩ := List.exists_of_findSome?_eq_some hdefinition
  obtain ⟨path, hpath⟩ := (mem_descendants_iff hlinked (hlinked.isTree hroot) hlt).mp hm
  exact ⟨m, path, hpath,
    (hpath.declared?_eq_some_iff hlinked hroot hnamed hatom hname owner _).mp hfound⟩

/-- A type that is found in a scope lies in the package that owns the scope, or is a builtin one and
the scope that of the program. -/
theorem exists_package_of_symbol? (htypes : a.TypesInPackages root) {atom : Atom} {symbol : Symbol}
    (hatom : a.names.Has atom name)
    (h : (ScopeTable.bind a (some root)).symbol? owner atom = some symbol)
    (htype : a.isA (some symbol.definition) Kind.isTypeDefinition = true) :
    a.name? (some symbol.definition) = some name ∧
      ∃ p, a.Nearest (· == .package) symbol.definition p ∧
        (p = owner ∨ a.is (some owner) .program = true ∧ a.text (some p) = "builtin") := by
  obtain ⟨m, path, hm, hdeclares⟩ := exists_declares_of_symbol? hlinked hroot hlt hnamed hatom h
  obtain ⟨rfl, hname, hplace⟩ := hdeclares.of_isTypeDefinition htype
  refine ⟨hname, ?_⟩
  rcases hplace with hpackage | hnone | ⟨hprogram, p, hpackage, hbuiltin⟩
  · exact ⟨owner, hpackage, .inl rfl⟩
  · obtain ⟨p, hpackage⟩ := htypes _ path hm htype
    exact absurd hpackage (hnone p)
  · exact ⟨p, hpackage, .inr ⟨hprogram, hbuiltin⟩⟩

end Tree

end Arena

namespace ScopeTable

variable {t : ScopeTable} {a : Arena} {l : Link} {owner : NodeId} {name : String} {symbol : Symbol}

theorem exists_owner_of_lookup (h : t.lookup a l name = some symbol) :
    ∃ atom owner, a.names.Has atom name ∧ owner ∈ outward a l ∧
      t.symbol? owner atom = some symbol := by
  rw [lookup_eq_bind] at h
  obtain ⟨atom, hatom, h⟩ := Option.bind_eq_some_iff.mp h
  obtain ⟨owner, howner, h⟩ := List.exists_of_findSome?_eq_some h
  exact ⟨atom, owner, NameTable.has_of_get? hatom, howner, h⟩

theorem exists_atom_of_lookupIn (h : t.lookupIn a (some owner) name = some symbol) :
    ∃ atom, a.names.Has atom name ∧ t.symbol? owner atom = some symbol := by
  rw [lookupIn_eq_bind] at h
  obtain ⟨atom, hatom, h⟩ := Option.bind_eq_some_iff.mp h
  exact ⟨atom, NameTable.has_of_get? hatom, h⟩

end ScopeTable

namespace Env

variable {env : Env} {n d : NodeId} {name : String} {symbol : Option Symbol}

theorem exists_symbol_of_typeDefinition (h : env.typeDefinition name symbol = .ok d) :
    ∃ s, symbol = some s ∧ s.definition = d := by
  cases symbol with
  | none => cases h
  | some s =>
    rw [typeDefinition] at h
    split at h
    · cases h
      exact ⟨s, rfl, rfl⟩
    · cases h

theorem namedDefinition_cases {l : Link} (h : env.namedDefinition l = .ok d) :
    (env.arena.is (env.arena.child l 0) .ident = true ∧ ∃ qualifier s,
      env.scopes.lookup env.arena l (env.arena.text (env.arena.child l 0)) = some qualifier ∧
      env.arena.is (some qualifier.definition) .package = true ∧
      env.scopes.lookupIn env.arena (some qualifier.definition)
        (env.arena.text (env.arena.child l 1)) = some s ∧ s.definition = d) ∨
    (env.arena.is (env.arena.child l 0) .ident = false ∧ ∃ s,
      env.scopes.lookup env.arena l (env.arena.text (env.arena.child l 1)) = some s ∧
      s.definition = d) := by
  rw [namedDefinition] at h
  split at h
  · rename_i hgiven
    split at h
    · rename_i qualifier hqualifier
      split at h
      · rename_i hpackage
        obtain ⟨s, hs, hd⟩ := exists_symbol_of_typeDefinition h
        exact .inl ⟨hgiven, qualifier, s, hqualifier, hpackage, hs, hd⟩
      · cases h
    · cases h
  · rename_i hgiven
    obtain ⟨s, hs, hd⟩ := exists_symbol_of_typeDefinition h
    exact .inr ⟨by simpa using hgiven, s, hs, hd⟩

theorem answer_nominalDefinition {c : Cache} {kind : Kind} (hfill : env.Fills .empty c)
    (hkind : env.arena.kind? (some n) = some kind) (hrule : kind.typeRule = .named) :
    c.answer (env.nominalDefinition (some n)).run = (env.namedDefinition (some n)).map some := by
  have hfirst := (transparent_nominalDefinition hkind hrule .empty c hfill).1
  obtain ⟨node, hnode, _⟩ := Option.map_eq_some_iff.mp hkind
  rw [Cache.answer, hfirst, nominalDefinition]
  cases env.namedDefinition (some n) with
  | ok d =>
    rw [cachedDefinition_of_free (Cache.find?_empty _),
      Cache.bind_of_find?_eq_none (Cache.find?_empty _) hnode]
    rfl
  | error e =>
    rw [cachedDefinition_of_error (Cache.find?_empty _)]
    rfl

section Tree

variable {lost : List (NodeId × NodeId)} {root : NodeId} {path : List NodeId}
  (hscopes : env.scopes = .bind env.arena (some root)) (hlinked : env.arena.Linked lost)
  (hnamed : env.arena.Named) (hroot : env.arena.parent (some root) = none)
  (htypes : env.arena.TypesInPackages root) (hn : env.arena.Ancestry root n path)
include hscopes hlinked hnamed hroot htypes hn

theorem exists_package_of_qualified
    (hgiven : env.arena.is (env.arena.child (some n) 0) .ident = true)
    (h : env.namedDefinition (some n) = .ok d) :
    env.arena.name? (some d) = some (env.arena.text (env.arena.child (some n) 1)) ∧
      ∃ p, env.arena.Nearest (· == .package) d p ∧
        (env.scopes.lookup env.arena (some n) (env.arena.text (env.arena.child (some n) 0))).map
          Symbol.definition = some p := by
  have htype := isTypeDefinition_of_namedDefinition h
  rcases namedDefinition_cases h with
    ⟨_, qualifier, s, hqualifier, hpackage, hs, rfl⟩ | ⟨hnone, _⟩
  · obtain ⟨atom, hatom, hsymbol⟩ := ScopeTable.exists_atom_of_lookupIn hs
    rw [hscopes] at hsymbol
    obtain ⟨hname, p, hp, hplace⟩ := Arena.exists_package_of_symbol? hlinked hroot
      hn.root_lt_size hnamed htypes hatom hsymbol htype
    refine ⟨hname, p, hp, ?_⟩
    -- A package is not the program, so only types of its own are found in it.
    rcases hplace with rfl | ⟨hprogram, _⟩
    · rw [hqualifier, Option.map_some]
    · simp [Arena.is, beq_iff_eq.mp hprogram] at hpackage
  · rw [hgiven] at hnone
    cases hnone

theorem exists_package_of_unqualified (hpackages : env.arena.PackagesOnTop root)
    (hopen : env.arena.is (some n) .package = false)
    (hgiven : env.arena.is (env.arena.child (some n) 0) .ident = false)
    (h : env.namedDefinition (some n) = .ok d) :
    env.arena.name? (some d) = some (env.arena.text (env.arena.child (some n) 1)) ∧
      ∃ p, env.arena.Nearest (· == .package) d p ∧
        (env.arena.Nearest (· == .package) n p ∨ env.arena.text (some p) = "builtin") := by
  have htype := isTypeDefinition_of_namedDefinition h
  rcases namedDefinition_cases h with ⟨hident, _⟩ | ⟨_, s, hs, rfl⟩
  · rw [hgiven] at hident
    cases hident
  · obtain ⟨atom, owner, hatom, howner, hsymbol⟩ := ScopeTable.exists_owner_of_lookup hs
    rw [hscopes] at hsymbol
    obtain ⟨hname, p, hp, hplace⟩ := Arena.exists_package_of_symbol? hlinked hroot
      hn.root_lt_size hnamed htypes hatom hsymbol htype
    refine ⟨hname, p, hp, ?_⟩
    rcases hplace with rfl | ⟨_, hbuiltin⟩
    · left
      have hpackage : env.arena.is (some p) .package = true := by
        simpa [Arena.isA, Arena.is, Option.any_eq_true] using hp.isA
      rw [ScopeTable.outward, hn.ancestors_eq hlinked hroot] at howner
      rcases List.mem_cons.mp howner with rfl | hmem
      · rw [hpackage] at hopen
        cases hopen
      · exact hn.nearest_of_mem hlinked hroot hpackages hmem hpackage
    · exact .inr hbuiltin

end Tree

end Env

namespace Program

theorem answer_nominalDefinition (a : Arena) (root : Link) (qs : List Query) (options : Options)
    {n : NodeId} {kind : Kind} (hkind : a.kind? (some n) = some kind)
    (hrule : kind.typeRule = .named) :
    ((ofRoot a root).answers qs .empty).2.answer
      (((ofRoot a root).env options).nominalDefinition (some n)).run =
        (((ofRoot a root).env options).namedDefinition (some n)).map some :=
  Env.answer_nominalDefinition (fills_answers (ofRoot a root) qs .empty) hkind hrule

/-- Types are found within package boundaries. Let all packages of a tree be right below its root
and all its type definitions in packages. If a nominal or a reference to a type leads to a
definition, whatever has been asked of the program before, then this is a type definition of the
name that the node writes. It lies in the package that the node writes in front of the name, and if
none is written in the package around the node or in a builtin one. -/
theorem nominalDefinition_within_package {a : Arena} {ops : List Arena.Operation} {root n : NodeId}
    {path : List NodeId} {options : Options} {qs : List Query} {found : Link}
    (ha : a = .after .empty ops) (hroot : a.parent (some root) = none)
    (hpackages : a.PackagesOnTop root) (htypes : a.TypesInPackages root)
    (hn : a.Ancestry root n path)
    (hkind : a.is (some n) .nominal = true ∨ a.is (some n) .typeRef = true)
    (hfound : ((ofRoot a (some root)).answers qs .empty).2.answer
      (((ofRoot a (some root)).env options).nominalDefinition (some n)).run = .ok found) :
    ∃ d p, found = some d ∧ a.isA (some d) Kind.isTypeDefinition = true ∧
      a.name? (some d) = some (a.text (a.child (some n) 1)) ∧ a.Nearest (· == .package) d p ∧
      (a.is (a.child (some n) 0) .ident = true →
        ((ScopeTable.bind a (some root)).lookup a (some n) (a.text (a.child (some n) 0))).map
          Symbol.definition = some p) ∧
      (a.is (a.child (some n) 0) .ident = false →
        a.Nearest (· == .package) n p ∨ a.text (some p) = "builtin") := by
  have hlinked : a.Linked _ := ha ▸ Arena.linked_after ops
  have hnamed : a.Named := ha ▸ Arena.named_after ops
  obtain ⟨kind, hkind, hrule, hopen⟩ : ∃ kind, a.kind? (some n) = some kind ∧
      kind.typeRule = .named ∧ a.is (some n) .package = false := by
    rcases hkind with hkind | hkind
    · exact ⟨.nominal, beq_iff_eq.mp hkind, rfl, by simp [Arena.is, beq_iff_eq.mp hkind]⟩
    · exact ⟨.typeRef, beq_iff_eq.mp hkind, rfl, by simp [Arena.is, beq_iff_eq.mp hkind]⟩
  rw [answer_nominalDefinition a _ _ _ hkind hrule] at hfound
  generalize henv : (ofRoot a (some root)).env options = env at hfound
  obtain rfl : env.arena = a := congrArg Env.arena henv.symm
  have hscopes : env.scopes = .bind env.arena (some root) := congrArg Env.scopes henv.symm
  cases hnames : env.namedDefinition (some n) with
  | error e =>
    rw [hnames] at hfound
    cases hfound
  | ok d =>
    rw [hnames] at hfound
    cases hfound
    have htype := Env.isTypeDefinition_of_namedDefinition hnames
    cases hgiven : env.arena.is (env.arena.child (some n) 0) .ident with
    | true =>
      obtain ⟨hname, p, hp, hlookup⟩ :=
        Env.exists_package_of_qualified hscopes hlinked hnamed hroot htypes hn hgiven hnames
      rw [hscopes] at hlookup
      exact ⟨d, p, rfl, htype, hname, hp, fun _ => hlookup, by simp⟩
    | false =>
      obtain ⟨hname, p, hp, hplace⟩ := Env.exists_package_of_unqualified hscopes hlinked hnamed
        hroot htypes hn hpackages hopen hgiven hnames
      exact ⟨d, p, rfl, htype, hname, hp, by simp, fun _ => hplace⟩

/-- A class with two fields. One has a type of another package and the name of this type, the other
one a builtin type. -/
def threePackages : Arena :=
  .after .empty [
    .add .ident "None" [], .add .primitiveDef "" [some 0], .add .package "builtin" [some 1],
    .add .ident "q" [], .add .ident "D" [], .add .nominal "" [some 3, some 4],
    .add .ident "D" [], .add .letField "" [some 6, some 5],
    .add .absent "" [], .add .ident "None" [], .add .nominal "" [some 8, some 9],
    .add .ident "none" [], .add .letField "" [some 11, some 10],
    .add .ident "C" [], .add .classDef "" [some 13, some 7, some 12],
    .add .package "p" [some 14],
    .add .ident "D" [], .add .classDef "" [some 16], .add .package "q" [some 17],
    .add .program "" [some 2, some 15, some 18]]

def cacheOfFirstField : Cache :=
  ((ofRoot threePackages (some 19)).answers [.type {} { node := some 7 }] .empty).2

theorem nominalDefinition_within_package_threePackages :
    (cacheOfFirstField.answer
        (((ofRoot threePackages (some 19)).env {}).nominalDefinition (some 5)).run = .ok (some 17) ∧
      ∃ p, threePackages.Nearest (· == .package) 17 p ∧
        ((ScopeTable.bind threePackages (some 19)).lookup threePackages (some 5) "q").map
          Symbol.definition = some p) ∧
    cacheOfFirstField.answer
        (((ofRoot threePackages (some 19)).env {}).nominalDefinition (some 10)).run = .ok (some 1) ∧
      ∃ p, threePackages.Nearest (· == .package) 1 p ∧
        (threePackages.Nearest (· == .package) 10 p ∨ threePackages.text (some p) = "builtin") := by
  obtain ⟨ops, ha⟩ : ∃ ops, threePackages = .after .empty ops := ⟨_, rfl⟩
  have hlinked : threePackages.Linked _ := ha ▸ Arena.linked_after ops
  have hroot : threePackages.parent (some 19) = none := by decide +kernel
  have hlt : 19 < threePackages.size := by decide +kernel
  have hpackages : threePackages.PackagesOnTop 19 :=
    Arena.packagesOnTop_of_forall hlinked hroot hlt (by decide +kernel)
  have htypes : threePackages.TypesInPackages 19 :=
    Arena.typesInPackages_of_forall hlinked hroot hlt (by decide +kernel)
  have hanswer (n d : NodeId) (hkind : threePackages.kind? (some n) = some .nominal)
      (hd : ((ofRoot threePackages (some 19)).env {}).namedDefinition (some n) = .ok d) :
      cacheOfFirstField.answer
        (((ofRoot threePackages (some 19)).env {}).nominalDefinition (some n)).run =
          .ok (some d) := by
    rw [cacheOfFirstField, answer_nominalDefinition threePackages _ _ _ hkind rfl, hd]
    rfl
  have hqualified := hanswer 5 17 (by decide +kernel) (by decide +kernel)
  have hplain := hanswer 10 1 (by decide +kernel) (by decide +kernel)
  obtain ⟨path, hn⟩ := (Arena.mem_descendants_iff hlinked (hlinked.isTree hroot) hlt).mp
    (by decide +kernel : 5 ∈ threePackages.descendants (some 19))
  obtain ⟨path', hn'⟩ := (Arena.mem_descendants_iff hlinked (hlinked.isTree hroot) hlt).mp
    (by decide +kernel : 10 ∈ threePackages.descendants (some 19))
  obtain ⟨d, p, hd, _, _, hp, hplace, _⟩ := nominalDefinition_within_package ha hroot hpackages
    htypes hn (.inl (by decide +kernel)) hqualified
  obtain ⟨d', p', hd', _, _, hp', _, hplace'⟩ := nominalDefinition_within_package ha hroot hpackages
    htypes hn' (.inl (by decide +kernel)) hplain
  cases hd
  cases hd'
  have htext : threePackages.text (threePackages.child (some 5) 0) = "q" := by decide +kernel
  have hlookup := hplace (by decide +kernel)
  rw [htext] at hlookup
  exact ⟨⟨hqualified, p, hp, hlookup⟩, hplain, p', hp', hplace' (by decide +kernel)⟩

end Program

end PonyLens
