import PonyLens.Proofs.Scope.Lookup

/-!
# Packages that can be seen

A package goes to the program under the last segment of its path. Binding makes no new names, so a
segment has a name only if it is the text of some node, or one of the common names. Exactly then the
package can be seen, and it can be seen from everywhere; the same holds of what a use clause without
an alias binds in the scope around it.
-/

namespace PonyLens

namespace NameTable

variable {t : NameTable} {name other : String}

theorem isSome_get?_iff (t : NameTable) (name : String) :
    (t.get? name).isSome = true ↔ name ∈ t.names := by
  simp [get?]

theorem mem_names_intern : other ∈ (t.intern name).2.names ↔ other ∈ t.names ∨ other = name := by
  rw [intern]
  cases hget : t.get? name with
  | some atom =>
    have hknown : name ∈ t.names := by
      rw [← isSome_get?_iff, hget]
      rfl
    constructor
    · exact .inl
    · rintro (h | rfl)
      · exact h
      · exact hknown
  | none => simp

theorem mem_names_internAll (names : List String) :
    other ∈ (t.internAll names).names ↔ other ∈ t.names ∨ other ∈ names := by
  induction names generalizing t with
  | nil => simp [internAll]
  | cons name names ih =>
    rw [internAll, List.foldl_cons, ← internAll, ih, mem_names_intern, List.mem_cons, or_assoc]

end NameTable

namespace Arena

/-- Whether a name is one of the common names or the text of a node. -/
def Mentions (a : Arena) (name : String) : Prop :=
  name ∈ NameTable.common ∨ ∃ n < a.size, a.text (some n) = name

instance (a : Arena) (name : String) : Decidable (a.Mentions name) :=
  inferInstanceAs (Decidable (_ ∨ _))

variable {a b : Arena} {lost : List (NodeId × NodeId)} {name : String}

/-- Steps store the texts of the nodes that they add, and no other names. -/
theorem Steps.mem_names_iff (h : empty.Steps b lost) (hname : name ≠ "") :
    name ∈ b.names.names ↔ b.Mentions name := by
  induction h with
  | refl =>
    have hsize : empty.size = 0 := rfl
    have hnames : empty.names = NameTable.empty.internAll NameTable.common := rfl
    rw [hnames, NameTable.mem_names_internAll, Mentions, hsize]
    simp [NameTable.empty, hname]
  | @addNode b lost hsteps kind text location ih =>
    have hnamed := named_empty.steps hsteps
    change name ∈ (b.names.intern text).2.names ↔ _
    rw [NameTable.mem_names_intern, ih, Mentions, Mentions, or_assoc, size_addNode]
    refine or_congr_right ⟨?_, ?_⟩
    · rintro (⟨n, hn, htext⟩ | rfl)
      · refine ⟨n, Nat.lt_succ_of_lt hn, ?_⟩
        rw [text_addNode hnamed kind text location (Nat.le_of_lt hn), if_neg (Nat.ne_of_lt hn)]
        exact htext
      · refine ⟨b.size, Nat.lt_succ_self _, ?_⟩
        rw [text_addNode hnamed kind _ location (Nat.le_refl _), if_pos rfl]
    · rintro ⟨n, hn, htext⟩
      rw [text_addNode hnamed kind text location (Nat.le_of_lt_succ hn)] at htext
      split at htext
      · exact .inr htext.symm
      · exact .inl ⟨n, by omega, htext⟩
  | join hsteps m hnode hparent ih => simpa [Mentions, text_join] using ih
  | setLocation hsteps l location ih =>
    simpa [Mentions, text_setLocation] using ih

theorem isSome_get?_iff_mentions (ops : List Operation) (hname : name ≠ "") :
    ((empty.after ops).names.get? name).isSome = true ↔ (empty.after ops).Mentions name := by
  rw [NameTable.isSome_get?_iff]
  exact (empty.steps_after ops).mem_names_iff hname

variable {root n : NodeId} {path : List NodeId}

theorem Ancestry.root_mem (h : a.Ancestry root n path) : root ∈ n :: path := by
  induction h with
  | root _ => exact List.mem_cons_self
  | child _ _ ih => exact List.mem_cons_of_mem _ ih

theorem Ancestry.exists_nearest (hlinked : a.Linked lost) (hroot : a.parent (some root) = none)
    {p : Kind → Bool} (hopens : a.isA (some root) p = true) (h : a.Ancestry root n path)
    (hne : n ≠ root) : ∃ s, a.Nearest p n s := by
  have hmem : root ∈ path := by
    rcases List.mem_cons.mp h.root_mem with heq | hmem
    · exact absurd heq.symm hne
    · exact hmem
  have hfound : ((a.ancestors (some n)).find? fun m => a.isA (some m) p).isSome = true := by
    rw [h.ancestors_eq hlinked hroot, List.find?_isSome]
    exact ⟨root, hmem, hopens⟩
  obtain ⟨s, hs⟩ := Option.isSome_iff_exists.mp hfound
  exact ⟨s, (h.find?_ancestors_iff hlinked hroot p).mp hs⟩

end Arena

namespace Scope

theorem find?_extend (s outer : Scope) (name : Atom) :
    (s.extend outer).find? name = (s.find? name).or (outer.find? name) := by
  obtain ⟨entries⟩ := outer
  induction entries generalizing s with
  | nil => simp [extend, find?]
  | cons entry entries ih =>
    obtain ⟨other, symbol⟩ := entry
    have hcons : s.extend ⟨(other, symbol) :: entries⟩ = (s.declare other symbol).extend ⟨entries⟩ :=
      rfl
    rw [hcons, ih, find?_declare, Option.or_assoc]
    congr 1
    by_cases hname : other = name
    · simp [find?, hname]
    · have hbeq : (name == other) = false := beq_eq_false_iff_ne.mpr (Ne.symm hname)
      simp [find?, List.lookup_cons, hname, hbeq]

end Scope

namespace ScopeTable

variable {a : Arena} {t : ScopeTable} {l : Link} {owner : NodeId} {name : String} {atom : Atom}

/-- All that can be used at a node is what the scopes around it have, the innermost first. -/
theorem find?_scopeAt (t : ScopeTable) (a : Arena) (l : Link) (atom : Atom) :
    (t.scopeAt a l).find? atom = (outward a l).findSome? (t.symbol? · atom) := by
  have hfold (s : Scope) (scopes : List Scope) :
      (scopes.foldl Scope.extend s).find? atom =
        (s.find? atom).or (scopes.findSome? (·.find? atom)) := by
    induction scopes generalizing s with
    | nil => simp
    | cons scope scopes ih =>
      rw [List.foldl_cons, ih, Scope.find?_extend, Option.or_assoc, List.findSome?_cons]
      congr 1
      cases scope.find? atom <;> rfl
  have hempty : Scope.empty.find? atom = none := rfl
  rw [scopeAt, hfold, hempty, Option.none_or, chain, findSome?_filterMap]
  rfl

theorem isSome_get?_of_mem_visible (hnamed : a.Named) (hname : name ≠ "")
    (h : name ∈ (t.visible a l).map Prod.fst) : (a.names.get? name).isSome = true := by
  obtain ⟨⟨name, symbol⟩, hmem, rfl⟩ := List.mem_map.mp h
  obtain ⟨⟨atom, symbol⟩, _, hentry⟩ := List.mem_map.mp hmem
  cases hentry
  have hlt : atom.index < a.names.names.size := by
    by_contra hle
    exact hname (by simp [NameTable.text, Nat.le_of_not_lt hle])
  rw [hnamed.sound.get?_eq_some_iff.mpr ⟨hlt, rfl⟩]
  rfl

theorem seen_of_symbol? (hget : a.names.get? name = some atom) (howner : owner ∈ outward a l)
    (h : (t.symbol? owner atom).isSome = true) :
    (t.lookup a l name).isSome = true ∧ name ∈ (t.visible a l).map Prod.fst := by
  have hfound : ((outward a l).findSome? (t.symbol? · atom)).isSome = true := by
    rw [List.findSome?_isSome_iff]
    exact ⟨owner, howner, h⟩
  constructor
  · rwa [lookup_eq_bind, hget, Option.bind_some]
  · rw [← find?_scopeAt, Scope.find?, List.lookup_isSome_iff] at hfound
    obtain ⟨entry, hentry, hsame⟩ := hfound
    rw [← (NameTable.has_of_get? hget).2, beq_iff_eq.mp hsame, visible, List.map_map]
    exact List.mem_map_of_mem hentry

section Tree

variable {ops : List Arena.Operation} {root n m d : NodeId} {path path' : List NodeId}
  (ha : a = .after .empty ops) (hroot : a.parent (some root) = none)
include ha hroot

theorem isSome_symbol?_of_declares (hn : a.Ancestry root n path) (hname : name ≠ "")
    (hget : a.names.get? name = some atom) (h : a.Declares root n owner name d) :
    ((bind a (some root)).symbol? owner atom).isSome = true := by
  have hlinked : a.Linked _ := ha ▸ Arena.linked_after ops
  have hnamed : a.Named := ha ▸ Arena.named_after ops
  have hlt := hn.root_lt_size
  have hatom := NameTable.has_of_get? hget
  have hdefinition := Arena.definition_eq_findSome? hlinked hroot hnamed hatom hname hlt owner
  rw [← Option.isSome_map (f := Symbol.definition), hdefinition, List.findSome?_isSome_iff]
  refine ⟨n, (Arena.mem_descendants_iff hlinked (hlinked.isTree hroot) hlt).mpr ⟨path, hn⟩, ?_⟩
  rw [(hn.declared?_eq_some_iff hlinked hroot hnamed hatom hname owner d).mpr h]
  rfl

variable (hprogram : a.is (some root) .program = true)
include hprogram

/-- A package is seen from everywhere if its name is mentioned, and from nowhere else. -/
theorem package_seen_iff (hn : a.Ancestry root n path) (hkind : a.is (some n) .package = true)
    (hname : lastSegment (a.text (some n)) = name) (hne : name ≠ "")
    (hm : a.Ancestry root m path') :
    (((bind a (some root)).lookup a (some m) name).isSome = true ↔ a.Mentions name) ∧
      (name ∈ ((bind a (some root)).visible a (some m)).map Prod.fst ↔ a.Mentions name) := by
  have hlinked : a.Linked _ := ha ▸ Arena.linked_after ops
  have hnamed : a.Named := ha ▸ Arena.named_after ops
  have hknown : (a.names.get? name).isSome = true ↔ a.Mentions name := by
    subst ha
    exact Arena.isSome_get?_iff_mentions ops hne
  have hclass : a.declaringClass n = .package := by
    simp [Arena.declaringClass, beq_iff_eq.mp hkind, Kind.declaringClass]
  have hseen (h : a.Mentions name) : ((bind a (some root)).lookup a (some m) name).isSome = true ∧
      name ∈ ((bind a (some root)).visible a (some m)).map Prod.fst := by
    rw [← hknown] at h
    obtain ⟨atom, hget⟩ := Option.isSome_iff_exists.mp h
    have hdeclares : a.Declares root n root name n := by
      subst hname
      exact .package hclass hprogram h
    have hreach : root ∈ outward a (some m) := by
      rw [outward, hm.ancestors_eq hlinked hroot]
      exact hm.root_mem
    exact seen_of_symbol? hget hreach (isSome_symbol?_of_declares ha hroot hn hne hget hdeclares)
  refine ⟨⟨fun h => ?_, fun h => (hseen h).1⟩, ⟨fun h => ?_, fun h => (hseen h).2⟩⟩
  · rw [← hknown]
    rw [lookup_eq_bind] at h
    exact Option.isSome_of_isSome_bind h
  · rw [← hknown]
    exact isSome_get?_of_mem_visible hnamed hne h

/-- A use clause without an alias binds the last segment of its path if that is mentioned, and not
otherwise. -/
theorem use_bound_iff {use : String} (hn : a.Ancestry root n path)
    (hkind : a.is (some n) .useClause = true) (halias : a.is (a.child (some n) 0) .ident = false)
    (huse : a.text (a.firstChild (some n) .stringLit) = use) (hne : use ≠ "")
    (hfound : a.PathNames root use d) :
    ∃ scope, a.Nearest Kind.opensScope n scope ∧
      (((bind a (some root)).lookupIn a (some scope) (lastSegment use)).isSome = true ↔
        lastSegment use ≠ "" ∧ a.Mentions (lastSegment use)) := by
  have hlinked : a.Linked _ := ha ▸ Arena.linked_after ops
  have hnamed : a.Named := ha ▸ Arena.named_after ops
  have hclass : a.declaringClass n = .use := by
    simp [Arena.declaringClass, beq_iff_eq.mp hkind, Kind.declaringClass]
  have hnotroot : n ≠ root := by
    rintro rfl
    simp [Arena.is, beq_iff_eq.mp hprogram] at hkind
  have hopens : a.isA (some root) Kind.opensScope = true := by
    rw [Arena.isA, beq_iff_eq.mp hprogram]
    rfl
  obtain ⟨scope, hscope⟩ := hn.exists_nearest hlinked hroot hopens hnotroot
  refine ⟨scope, hscope, ?_⟩
  rw [lookupIn_eq_bind]
  by_cases hsegment : lastSegment use = ""
  · -- The empty name is known and never declared.
    have hempty := hnamed.sound.get?_eq_some_iff.mpr hnamed.sound.has_empty
    simp [hsegment, hempty, symbol?_bind_empty]
  · have hknown : (a.names.get? (lastSegment use)).isSome = true ↔ a.Mentions (lastSegment use) := by
      subst ha
      exact Arena.isSome_get?_iff_mentions ops hsegment
    rw [and_iff_right hsegment, ← hknown]
    constructor
    · exact Option.isSome_of_isSome_bind
    · intro h
      obtain ⟨atom, hget⟩ := Option.isSome_iff_exists.mp h
      rw [hget, Option.bind_some]
      exact isSome_symbol?_of_declares ha hroot hn hsegment hget
        (.use hclass huse hne hfound (.segment halias h) hscope)

end Tree

/-- Which packages can be seen. Let the root of a tree be a program without a parent. A package can
be looked up under the last segment of its path at any node, and is among the names visible there,
exactly if this segment is one of the common names or the text of some node of the arena. The same
condition, and that the segment is not empty, says whether a use clause without an alias that names
a package binds the last segment of its path in the scope around it. -/
theorem packages_seen_iff_mentioned {a : Arena} {ops : List Arena.Operation} {root : NodeId}
    (ha : a = .after .empty ops) (hroot : a.parent (some root) = none)
    (hprogram : a.is (some root) .program = true) :
    (∀ p path name, a.Ancestry root p path → a.is (some p) .package = true →
      lastSegment (a.text (some p)) = name → name ≠ "" →
      ∀ n path', a.Ancestry root n path' →
        (((bind a (some root)).lookup a (some n) name).isSome = true ↔ a.Mentions name) ∧
        (name ∈ ((bind a (some root)).visible a (some n)).map Prod.fst ↔ a.Mentions name)) ∧
    ∀ u path use d, a.Ancestry root u path → a.is (some u) .useClause = true →
      a.is (a.child (some u) 0) .ident = false →
      a.text (a.firstChild (some u) .stringLit) = use → use ≠ "" → a.PathNames root use d →
      ∃ scope, a.Nearest Kind.opensScope u scope ∧
        (((bind a (some root)).lookupIn a (some scope) (lastSegment use)).isSome = true ↔
          lastSegment use ≠ "" ∧ a.Mentions (lastSegment use)) := by
  constructor
  · intro p path name hp hkind hname hne n path' hn
    exact package_seen_iff ha hroot hprogram hp hkind hname hne hn
  · intro u path use d hu hkind halias huse hne hfound
    exact use_bound_iff ha hroot hprogram hu hkind halias huse hne hfound

/-- A program with one package, which its own module uses. -/
def usedPackage : Arena :=
  .after .empty [
    .add .absent "" [], .add .stringLit "net/http" [], .add .useClause "" [some 0, some 1],
    .add .sourceModule "" [some 2], .add .package "net/http" [some 3], .add .program "" [some 4]]

/-- The same program, after a node with the text `http` has been added beside it. -/
def mentionedPackage : Arena := usedPackage.after [.addNode .ident "http" .unknown]

theorem packages_seen_iff_mentioned_usedPackage :
    (∀ n path, mentionedPackage.Ancestry 5 n path →
      ((bind mentionedPackage (some 5)).lookup mentionedPackage (some n) "http").isSome = true) ∧
    (∀ n path, usedPackage.Ancestry 5 n path →
      ¬((bind usedPackage (some 5)).lookup usedPackage (some n) "http").isSome = true) ∧
    ∃ scope, usedPackage.Nearest Kind.opensScope 2 scope ∧
      ¬((bind usedPackage (some 5)).lookupIn usedPackage (some scope) "http").isSome = true := by
  obtain ⟨ops, ha⟩ : ∃ ops, usedPackage = .after .empty ops := ⟨_, rfl⟩
  obtain ⟨ops', ha'⟩ : ∃ ops, mentionedPackage = .after .empty ops :=
    ⟨ops ++ [.addNode .ident "http" .unknown], by
      rw [mentionedPackage, ha, Arena.after, Arena.after, Arena.after, List.foldl_append]⟩
  have hmentions : mentionedPackage.Mentions "http" := by decide +kernel
  have hmissing : ¬ usedPackage.Mentions "http" := by decide +kernel
  have hpackage (a : Arena) (h : 4 ∈ a.children (some 5)) (hlt : 5 < a.size) :
      a.Ancestry 5 4 [5] := .child h (.root hlt)
  have hplace : usedPackage.Ancestry 5 4 [5] := hpackage _ (by decide +kernel) (by decide +kernel)
  have hplace' : mentionedPackage.Ancestry 5 4 [5] :=
    hpackage _ (by decide +kernel) (by decide +kernel)
  have hsegment : lastSegment "net/http" = "http" := by decide +kernel
  have huse : usedPackage.Ancestry 5 2 [3, 4, 5] :=
    .child (by decide +kernel) (.child (by decide +kernel) hplace)
  have hfound : usedPackage.PathNames 5 "net/http" 4 :=
    (package?_eq_some_iff usedPackage 5 "net/http" 4).mp (by decide +kernel)
  have hroot : usedPackage.parent (some 5) = none := by decide +kernel
  have hroot' : mentionedPackage.parent (some 5) = none := by decide +kernel
  obtain ⟨hseen, hbound⟩ := packages_seen_iff_mentioned ha hroot (by decide +kernel)
  obtain ⟨hseen', _⟩ := packages_seen_iff_mentioned ha' hroot' (by decide +kernel)
  refine ⟨fun n path hn => ?_, fun n path hn => ?_, ?_⟩
  · exact (hseen' 4 [5] "http" hplace' (by decide +kernel) (by decide +kernel) (by decide) n path
      hn).1.mpr hmentions
  · rw [(hseen 4 [5] "http" hplace (by decide +kernel) (by decide +kernel) (by decide) n path hn).1]
    exact hmissing
  · obtain ⟨scope, hscope, hiff⟩ := hbound 2 [3, 4, 5] "net/http" 4 huse (by decide +kernel)
      (by decide +kernel) (by decide +kernel) (by decide) hfound
    rw [hsegment] at hiff
    exact ⟨scope, hscope, fun h => hmissing (hiff.mp h).2⟩

/-- The package is not seen anywhere, and the use clause that names it binds nothing. Both change
when a node that has nothing to do with the package is added. -/
theorem package_unseen :
    (usedPackage.parent (some 5) = none ∧ usedPackage.is (some 5) .program = true ∧
      usedPackage.ancestors (some 4) = [5] ∧ usedPackage.is (some 4) .package = true ∧
      lastSegment (usedPackage.text (some 4)) = "http") ∧
    (∀ n ∈ usedPackage.descendants (some 5),
      (bind usedPackage (some 5)).lookup usedPackage (some n) "http" = none ∧
      (bind usedPackage (some 5)).visible usedPackage (some n) = []) ∧
    ∀ n ∈ usedPackage.descendants (some 5),
      ((bind mentionedPackage (some 5)).lookup mentionedPackage (some n) "http").map
        Symbol.definition = some 4 := by
  decide +kernel

end ScopeTable

end PonyLens
