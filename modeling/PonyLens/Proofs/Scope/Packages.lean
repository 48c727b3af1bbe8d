import PonyLens.Proofs.Scope.Rule

/-!
# Packages and their paths

A use clause names a package by its path. The packages of the program are searched in order, and the
first one that has the path, or only its last segment, is taken. So the clause binds the package
that it names unless another one with the same last segment stands before it.
-/

namespace PonyLens

namespace Arena

def HasPath (a : Arena) (path : String) (p : NodeId) : Prop :=
  a.is (some p) .package = true ∧ a.text (some p) = path

/-- Whether each package of the program that has only the last segment of the path stands behind one
that has the whole path. -/
def WholePathFirst (a : Arena) (root : NodeId) (path : String) : Prop :=
  ∀ before rival after, a.children (some root) = before ++ rival :: after →
    a.IsPackage path rival → ¬ a.HasPath path rival → ∃ p ∈ before, a.HasPath path p

variable {a : Arena} {root n p d : NodeId} {path : String}

theorem HasPath.isPackage (h : a.HasPath path p) : a.IsPackage path p := ⟨h.1, .inl h.2⟩

theorem HasPath.exists_pathNames (h : a.HasPath path p) (hroot : a.is (some root) .program = true)
    (hp : p ∈ a.children (some root)) : ∃ d, a.PathNames root path d := by
  have hfound : ((ScopeTable.bare a (some root)).package? a path).isSome = true := by
    rw [ScopeTable.package?, ScopeTable.program_bare, if_pos hroot, List.find?_isSome]
    exact ⟨p, hp, by simp [h.1, h.2]⟩
  obtain ⟨d, hd⟩ := Option.isSome_iff_exists.mp hfound
  exact ⟨d, (ScopeTable.package?_eq_some_iff a root path d).mp hd⟩

/-- The package that a path names has the whole path exactly if no other package with the last
segment comes first. -/
theorem PathNames.hasPath_iff (h : a.PathNames root path d) :
    a.HasPath path d ↔ a.WholePathFirst root path := by
  obtain ⟨_, before, after, hsplit, hd, hbefore⟩ := h
  constructor
  · intro hwhole before' rival after' hsplit' hrival hpart
    -- The rival cannot stand before the package that is found, and it is not this package.
    rcases List.append_eq_append_iff.mp (hsplit.symm.trans hsplit') with
      ⟨rest, rfl, hrest⟩ | ⟨rest, rfl, hrest⟩
    · cases rest with
      | nil =>
        have hsame : d = rival := List.head_eq_of_cons_eq hrest
        exact absurd (hsame ▸ hwhole) hpart
      | cons x rest =>
        have hsame : d = x := List.head_eq_of_cons_eq hrest
        exact ⟨d, by simp [hsame], hwhole⟩
    · cases rest with
      | nil =>
        have hsame : rival = d := List.head_eq_of_cons_eq hrest
        exact absurd (hsame ▸ hwhole) hpart
      | cons x rest =>
        have hsame : rival = x := List.head_eq_of_cons_eq hrest
        exact absurd hrival (hbefore rival (by simp [hsame]))
  · intro hfirst
    by_contra hpart
    obtain ⟨p, hp, hwhole⟩ := hfirst before d after hsplit hd hpart
    exact hbefore p hp hwhole.isPackage

end Arena

namespace ScopeTable

variable {a : Arena} {t : ScopeTable} {root n p : NodeId} {path : String}

theorem declarations_of_useClause (hn : a.is (some n) .useClause = true) (t : ScopeTable) :
    t.declarations a n = (t.useDeclaration? a n).toList := by
  have hkind : a.kind? (some n) = some .useClause := beq_iff_eq.mp hn
  have hclass : a.declaringClass n = .use := by simp [Arena.declaringClass, hkind,
    Kind.declaringClass]
  have hspec := declarations_spec t a n
  rwa [hclass] at hspec

theorem exists_useName {name : Atom}
    (h : (if a.is (a.child (some n) 0) .ident = true then some (a.atom (a.child (some n) 0))
      else a.names.get? (lastSegment path)) = some name) :
    a.UseName n path (a.names.text name) := by
  split at h
  · rename_i hgiven
    cases hchild : a.child (some n) 0 with
    | none => simp [hchild, Arena.is, Arena.kind?, Arena.get?] at hgiven
    | some given =>
      rw [hchild, Option.some.injEq] at h
      rw [← h]
      exact .given hchild (hchild ▸ hgiven)
  · rename_i hgiven
    rw [(NameTable.has_of_get? h).2]
    exact .segment (by simpa using hgiven) (by simp [h])

/-- What a use clause binds if some package of the program has its path. It makes one declaration,
provided that the path is not empty and that it has a name to declare. The declaration points to the
first package that has the path or its last segment, and this one has the whole path exactly if no
other package with the last segment stands before all those that have the whole path. -/
theorem use_binds_path_iff (hroot : a.is (some root) .program = true)
    (hn : a.is (some n) .useClause = true)
    (hpath : a.text (a.firstChild (some n) .stringLit) = path) (hp : p ∈ a.children (some root))
    (hwhole : a.HasPath path p) :
    (path ≠ "" → (∃ name, a.UseName n path name) →
      ∃ d, (bare a (some root)).declarations a n = [d]) ∧
    ∀ d ∈ (bare a (some root)).declarations a n,
      a.UseName n path (a.names.text d.name) ∧ a.PathNames root path d.symbol.definition ∧
      (a.HasPath path d.symbol.definition ↔ a.WholePathFirst root path) := by
  rw [declarations_of_useClause hn, useDeclaration?_eq, hpath]
  refine ⟨fun hne ⟨name, hname⟩ => ?_, fun d hd => ?_⟩
  · obtain ⟨package, hpackage⟩ := hwhole.exists_pathNames hroot hp
    rw [← package?_eq_some_iff] at hpackage
    simp only [if_neg hne, hpackage, Option.bind_some]
    cases hname with
    | given hchild hkind => simp [hchild, hkind]
    | segment hkind hknown =>
      obtain ⟨atom, hatom⟩ := Option.isSome_iff_exists.mp hknown
      simp [hkind, hatom]
  · dsimp only at hd
    split at hd
    · simp at hd
    · rw [Option.mem_toList] at hd
      obtain ⟨package, hpackage, hd⟩ := Option.bind_eq_some_iff.mp hd
      obtain ⟨name, hname, rfl⟩ := Option.map_eq_some_iff.mp hd
      have hnames := (package?_eq_some_iff a root path package).mp hpackage
      exact ⟨exists_useName hname, hnames, hnames.hasPath_iff⟩

/-- A program with two packages whose paths end alike. Each has a module that uses the second one.
-/
def twoPackages : Arena :=
  .after .empty [.read "(program
    (package \"net/http\" (module (use (id h) \"net/http\")))
    (package \"a/http\" (module (use (id h) \"a/http\"))))"]

theorem use_binds_path_iff_twoPackages :
    twoPackages.is (some 0) .program = true ∧ twoPackages.is (some 3) .useClause = true ∧
    twoPackages.text (twoPackages.firstChild (some 3) .stringLit) = "net/http" ∧
    1 ∈ twoPackages.children (some 0) ∧ twoPackages.HasPath "net/http" 1 ∧
    (∃ d, (bare twoPackages (some 0)).declarations twoPackages 3 = [d]) ∧
    ∀ d ∈ (bare twoPackages (some 0)).declarations twoPackages 3,
      twoPackages.UseName 3 "net/http" "h" ∧ twoPackages.HasPath "net/http" d.symbol.definition := by
  obtain ⟨hroot, hn, hpath, hp, hkind, htext, halias, hdeclared⟩ :
      twoPackages.is (some 0) .program = true ∧ twoPackages.is (some 3) .useClause = true ∧
      twoPackages.text (twoPackages.firstChild (some 3) .stringLit) = "net/http" ∧
      1 ∈ twoPackages.children (some 0) ∧ twoPackages.is (some 1) .package = true ∧
      twoPackages.text (some 1) = "net/http" ∧
      (twoPackages.child (some 3) 0 = some 4 ∧ twoPackages.is (some 4) .ident = true ∧
        twoPackages.text (some 4) = "h") ∧
      twoPackages.children (some 0) = [1, 6] := by
    decide +kernel
  have hname : twoPackages.UseName 3 "net/http" "h" := halias.2.2 ▸ .given halias.1 halias.2.1
  obtain ⟨hone, hbinds⟩ := use_binds_path_iff hroot hn hpath hp ⟨hkind, htext⟩
  refine ⟨hroot, hn, hpath, hp, ⟨hkind, htext⟩, hone (by decide) ⟨"h", hname⟩, fun d hd => ?_⟩
  refine ⟨hname, (hbinds d hd).2.2.mpr fun before rival after hsplit _ hpart => ?_⟩
  -- The package with the whole path is the first one.
  rw [hdeclared] at hsplit
  cases before with
  | nil =>
    have hsame : 1 = rival := List.head_eq_of_cons_eq hsplit
    exact absurd (hsame ▸ ⟨hkind, htext⟩) hpart
  | cons first before =>
    have hsame : 1 = first := List.head_eq_of_cons_eq hsplit
    exact ⟨first, List.mem_cons_self, hsame ▸ ⟨hkind, htext⟩⟩

/-- The use clause of the second module names the package that it stands in, and binds the other
one. -/
theorem use_binds_other_package :
    (twoPackages.is (some 0) .program = true ∧ twoPackages.is (some 8) .useClause = true) ∧
    (twoPackages.text (twoPackages.firstChild (some 8) .stringLit) = "a/http" ∧
      6 ∈ twoPackages.children (some 0) ∧ twoPackages.is (some 6) .package = true ∧
      twoPackages.text (some 6) = "a/http") ∧
    ((bare twoPackages (some 0)).declarations twoPackages 8).map (·.symbol.definition) = [1] ∧
    ((bind twoPackages (some 0)).lookup twoPackages (some 9) "h").map Symbol.definition = some 1 ∧
    twoPackages.text (some 1) = "net/http" := by
  decide +kernel

end ScopeTable

end PonyLens
