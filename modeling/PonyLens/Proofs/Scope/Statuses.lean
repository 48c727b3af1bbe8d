import PonyLens.Proofs.Scope.Listing

/-!
# Statuses

The status of a bound name is said by the tree. A consume node gives away what its name leads to in
the finished table: which entries are marked does not depend on marks that were made before, so the
nodes can be taken in any order. What is not given away has the status that it got when it was
declared.
-/

namespace PonyLens

theorem findSome?_eq_bind_find? {α β : Type} (f : α → Option β) (l : List α) :
    l.findSome? f = (l.find? fun x => (f x).isSome).bind f := by
  induction l with
  | nil => rfl
  | cons x l ih =>
    rw [List.findSome?_cons, List.find?_cons]
    cases hx : f x with
    | none => exact ih
    | some y => simp [hx]

theorem Kind.opensScope_of_isReference {k : Kind} (h : k.isReference = true) :
    k.opensScope = false := by
  cases k <;> first | rfl | cases h

namespace Arena

/-- Whether a node declares something that can be given away: a local or a parameter. -/
def IsMovable (a : Arena) (definition : NodeId) : Prop :=
  a.is (some definition) .letLocal = true ∨ a.is (some definition) .varLocal = true ∨
    a.is (some definition) .param = true

/-- Whether a node declares a local without giving it a value. -/
def IsUnset (a : Arena) (definition : NodeId) : Prop :=
  (a.is (some definition) .letLocal = true ∨ a.is (some definition) .varLocal = true) ∧
    ¬ a.is (a.parent (some definition)) .assign = true

instance (a : Arena) (definition : NodeId) : Decidable (a.IsMovable definition) :=
  inferInstanceAs (Decidable (_ ∨ _))

instance (a : Arena) (definition : NodeId) : Decidable (a.IsUnset definition) :=
  inferInstanceAs (Decidable (_ ∧ _))

end Arena

namespace Scope

theorem consume_comm (s : Scope) (name other : Atom) :
    (s.consume name).consume other = (s.consume other).consume name := by
  simp only [consume, List.map_map]
  congr 2
  funext entry
  obtain ⟨atom, symbol⟩ := entry
  simp only [Function.comp_apply]
  split <;> split <;> rfl

end Scope

namespace ScopeTable

/-- Whether a consume node of the tree names the entry of a scope: the last child of the node is a
reference with this name, and looking the name up there leads to that scope. -/
def GivenAway (a : Arena) (root : Link) (owner : NodeId) (name : String) : Prop :=
  ∃ n ∈ a.descendants root, a.is (some n) .consume = true ∧
    a.isA (a.lastChild (some n)) Kind.isReference = true ∧
    a.name? (a.lastChild (some n)) = some name ∧
    (bind a root).scopeOf? a (a.lastChild (some n)) name = some owner ∧
    (bind a root).lookup a (a.lastChild (some n)) name =
      (bind a root).lookupIn a (some owner) name

instance (a : Arena) (root : Link) (owner : NodeId) (name : String) :
    Decidable (GivenAway a root owner name) :=
  inferInstanceAs (Decidable (∃ n ∈ _, _))

def definition? (t : ScopeTable) (owner : NodeId) (name : Atom) : Link :=
  (t.symbol? owner name).map Symbol.definition

/-- The entry that a consume node gives away, by its scope and name. -/
def mark? (a : Arena) (t : ScopeTable) (n : NodeId) : Option (NodeId × Atom) :=
  (consumedName? a n).bind fun name =>
    ((a.ancestors (a.lastChild (some n))).find? fun owner =>
      (t.definition? owner name).isSome).bind fun owner =>
        if (t.definition? owner name).any (a.IsMovable ·) then some (owner, name) else none

def giveAway (t : ScopeTable) : Option (NodeId × Atom) → ScopeTable
  | some (owner, name) => t.modify owner (·.consume name)
  | none => t

variable {a : Arena} {t : ScopeTable} {root : Link} {owner n : NodeId} {name : Atom}
  {ns : List NodeId}

/-! ### Marks -/

theorem symbol?_eq_bind (t : ScopeTable) (owner : NodeId) (name : Atom) :
    t.symbol? owner name = (t.scope? owner).bind (·.find? name) := rfl

theorem markConsumed_eq (a : Arena) (t : ScopeTable) (n : NodeId) :
    markConsumed a t n = t.giveAway (mark? a t n) := by
  rw [markConsumed, mark?]
  cases consumedName? a n with
  | none => rfl
  | some name =>
    simp only [← symbol?_eq_bind, findSome?_eq_bind_find?, definition?, Option.isSome_map,
      Option.bind_some]
    cases hfound : (a.ancestors (a.lastChild (some n))).find? fun owner =>
        (t.symbol? owner name).isSome with
    | none => rfl
    | some owner =>
      have hsome : (t.symbol? owner name).isSome = true := by simpa using List.find?_some hfound
      obtain ⟨symbol, hsymbol⟩ := Option.isSome_iff_exists.mp hsome
      have hmovable : a.IsMovable symbol.definition ↔
          a.kind? (some symbol.definition) ∈ [some .letLocal, some .varLocal, some .param] := by
        simp [Arena.IsMovable, Arena.is]
      simp only [hsymbol, Option.bind_some, Option.map_some, Option.any_some, decide_eq_true_eq,
        hmovable]
      split <;> simp_all [giveAway]

/-- What is marked is said by the definitions, which marks do not change. -/
theorem mark?_markConsumed (a : Arena) (t : ScopeTable) (n m : NodeId) :
    mark? a (markConsumed a t n) m = mark? a t m := by
  have hsame : (markConsumed a t n).definition? = t.definition? := by
    funext owner name
    exact definition_markConsumed a t n owner name
  rw [mark?, mark?, hsame]

theorem modify_comm (t : ScopeTable) (owner other : NodeId) (f g : Scope → Scope)
    (h : ∀ s, g (f s) = f (g s)) :
    (t.modify owner f).modify other g = (t.modify other g).modify owner f := by
  simp only [modify, List.map_map]
  congr 2
  funext ⟨n, s⟩
  simp only [Function.comp_apply]
  split <;> split <;> simp [h]

theorem giveAway_comm (t : ScopeTable) (mark other : Option (NodeId × Atom)) :
    (t.giveAway mark).giveAway other = (t.giveAway other).giveAway mark := by
  cases mark with
  | none => rfl
  | some mark =>
    cases other with
    | none => rfl
    | some other =>
      obtain ⟨owner, name⟩ := mark
      obtain ⟨owner', name'⟩ := other
      exact modify_comm t owner owner' (·.consume name) (·.consume name') fun s =>
        s.consume_comm name name'

theorem markConsumed_comm (a : Arena) (t : ScopeTable) (n m : NodeId) :
    markConsumed a (markConsumed a t n) m = markConsumed a (markConsumed a t m) n := by
  rw [markConsumed_eq a (markConsumed a t n), markConsumed_eq a (markConsumed a t m),
    mark?_markConsumed, mark?_markConsumed, markConsumed_eq a t n, markConsumed_eq a t m]
  exact giveAway_comm t _ _

theorem foldl_markConsumed_perm (a : Arena) (t : ScopeTable) {ms : List NodeId} (h : ns.Perm ms) :
    ns.foldl (markConsumed a) t = ms.foldl (markConsumed a) t :=
  h.foldl_eq' (fun n _ m _ t => markConsumed_comm a t n m) t

theorem symbol?_giveAway (t : ScopeTable) (mark : Option (NodeId × Atom)) (owner : NodeId)
    (name : Atom) :
    (t.giveAway mark).symbol? owner name = (t.symbol? owner name).map fun symbol =>
      if mark = some (owner, name) then { symbol with status := .consumed } else symbol := by
  cases mark with
  | none => simp [giveAway]
  | some mark =>
    obtain ⟨place, given⟩ := mark
    rw [giveAway, symbol?, symbol?, scope?_modify]
    cases t.scope? owner with
    | none => rfl
    | some s =>
      simp only [Option.map_some, Option.bind_some]
      by_cases howner : owner = place
      · rw [if_pos howner, Scope.find?_consume_eq_map]
        simp [howner, eq_comm]
      · have hother : ¬ place = owner := fun h => howner h.symm
        simp [howner, hother]

theorem mark?_foldl_markConsumed (a : Arena) (t : ScopeTable) (ns : List NodeId) (n : NodeId) :
    mark? a (ns.foldl (markConsumed a) t) n = mark? a t n := by
  induction ns generalizing t with
  | nil => rfl
  | cons m ns ih => rw [List.foldl_cons, ih, mark?_markConsumed]

/-- In the end the entries are marked that some node gives away. -/
theorem symbol?_foldl_markConsumed (a : Arena) (t : ScopeTable) (ns : List NodeId)
    (owner : NodeId) (name : Atom) :
    (ns.foldl (markConsumed a) t).symbol? owner name = (t.symbol? owner name).map fun symbol =>
      if ∃ n ∈ ns, mark? a t n = some (owner, name) then { symbol with status := .consumed }
      else symbol := by
  induction ns generalizing t with
  | nil => simp
  | cons n ns ih =>
    rw [List.foldl_cons, ih, markConsumed_eq, symbol?_giveAway, Option.map_map]
    simp only [← markConsumed_eq, mark?_markConsumed, List.exists_mem_cons_iff]
    congr 1
    funext symbol
    by_cases hfirst : mark? a t n = some (owner, name)
    · simp [hfirst]
    · simp [hfirst]

/-! ### What is given away -/

theorem definition?_bind (a : Arena) (root : Link) :
    (bind a root).definition? = (declaredBy a root (a.descendants root)).definition? := by
  funext owner name
  exact definition_foldl_markConsumed a _ _ owner name

theorem lookup_eq_lookupIn {l : Link} {text : String} (h : t.scopeOf? a l text = some owner) :
    t.lookup a l text = t.lookupIn a (some owner) text := by
  rw [scopeOf?] at h
  rw [lookup_eq_bind, lookupIn_eq_bind]
  cases hget : a.names.get? text with
  | none => rfl
  | some name =>
    have hhas : t.has a text = fun owner => (t.symbol? owner name).isSome := by
      funext owner
      simp [has, lookupIn_eq_bind, hget]
    rw [hhas] at h
    rw [Option.bind_some, findSome?_eq_bind_find?, h, Option.bind_some, Option.bind_some]

theorem consumedName?_eq_some_iff :
    consumedName? a n = some name ↔ a.isA (a.lastChild (some n)) Kind.isReference = true ∧
      a.nameAtom (a.lastChild (some n)) = name ∧ name ≠ .empty := by
  rw [consumedName?]
  simp only [Option.ite_none_right_eq_some, Bool.and_eq_true, Option.some.injEq]
  constructor
  · rintro ⟨⟨hkind, hne⟩, rfl⟩
    exact ⟨hkind, rfl, by simpa [Atom.isEmpty] using hne⟩
  · rintro ⟨hkind, rfl, hne⟩
    exact ⟨⟨hkind, by simpa [Atom.isEmpty] using hne⟩, rfl⟩

/-- A reference has no scope of its own, so that only its ancestors are asked. -/
theorem find?_outward_of_isReference {l : Link} (h : a.isA l Kind.isReference = true)
    (root : Link) (name : Atom) :
    (outward a l).find? (fun owner => ((bind a root).definition? owner name).isSome) =
      (a.ancestors l).find? fun owner => ((bind a root).definition? owner name).isSome := by
  cases l with
  | none => rfl
  | some c =>
    have hnone : ((bind a root).definition? c name).isSome = false := by
      rw [← Bool.not_eq_true, definition?, Option.isSome_map, ← mem_namesIn_iff, namesIn_bind,
        mem_namesIn_declaredBy, owns_bare]
      rintro ⟨⟨_, hopens⟩, _⟩
      obtain ⟨kind, hkind, hreference⟩ := (Option.any_eq_true _ _).mp h
      rw [Arena.isA, hkind, Option.any_some, Kind.opensScope_of_isReference hreference] at hopens
      cases hopens
    rw [outward, Option.toList_some, List.singleton_append, List.find?_cons, hnone]

theorem mark?_eq_some_iff :
    mark? a t n = some (owner, name) ↔ consumedName? a n = some name ∧
      ((a.ancestors (a.lastChild (some n))).find? fun owner =>
        (t.definition? owner name).isSome) = some owner ∧
      (t.definition? owner name).any (a.IsMovable ·) = true := by
  rw [mark?]
  constructor
  · intro h
    obtain ⟨given, hgiven, h⟩ := Option.bind_eq_some_iff.mp h
    obtain ⟨place, hfound, h⟩ := Option.bind_eq_some_iff.mp h
    split at h
    · rename_i hmovable
      cases h
      exact ⟨hgiven, hfound, hmovable⟩
    · cases h
  · rintro ⟨hgiven, hfound, hmovable⟩
    rw [hgiven, Option.bind_some, hfound, Option.bind_some, if_pos hmovable]

theorem mark?_declaredBy_iff (hnamed : a.Named) {text : String} (hname : a.names.Has name text)
    (htext : text ≠ "") :
    mark? a (declaredBy a root (a.descendants root)) n = some (owner, name) ↔
      (a.isA (a.lastChild (some n)) Kind.isReference = true ∧
        a.name? (a.lastChild (some n)) = some text ∧
        (bind a root).scopeOf? a (a.lastChild (some n)) text = some owner) ∧
      ((bind a root).definition? owner name).any (a.IsMovable ·) = true := by
  rw [mark?_eq_some_iff, ← definition?_bind, consumedName?_eq_some_iff,
    hnamed.nameAtom_eq_iff hname htext, and_iff_left (hnamed.ne_empty hname htext), ← and_assoc,
    ← and_assoc]
  refine and_congr_left fun _ => and_congr_right fun h => ?_
  rw [← find?_outward_of_isReference h.1, scopeOf?, has_eq_isSome hnamed hname]
  simp only [definition?, Option.isSome_map]

/-- Some consume node marks an entry exactly if the entry is given away. -/
theorem exists_mark?_iff (hnamed : a.Named) {text : String} (hname : a.names.Has name text)
    (htext : text ≠ "") {definition : NodeId}
    (hdefinition : (bind a root).definition? owner name = some definition) :
    (∃ n ∈ (a.descendants root).filter fun n => a.is (some n) .consume,
      mark? a (declaredBy a root (a.descendants root)) n = some (owner, name)) ↔
      a.IsMovable definition ∧ GivenAway a root owner text := by
  simp only [List.mem_filter, mark?_declaredBy_iff hnamed hname htext, hdefinition, Option.any_some,
    decide_eq_true_eq]
  constructor
  · rintro ⟨n, ⟨hn, hconsume⟩, ⟨hkind, htarget, hfound⟩, hmovable⟩
    exact ⟨hmovable, n, hn, hconsume, hkind, htarget, hfound, lookup_eq_lookupIn hfound⟩
  · rintro ⟨hmovable, n, hn, hconsume, hkind, htarget, hfound, _⟩
    exact ⟨n, ⟨hn, hconsume⟩, ⟨hkind, htarget, hfound⟩, hmovable⟩

/-! ### What is not given away -/

theorem not_isUnset_of_kind? {kind : Kind} (hkind : a.kind? (some n) = some kind)
    (hlet : kind ≠ .letLocal) (hvar : kind ≠ .varLocal) : ¬ a.IsUnset n := by
  simp [Arena.IsUnset, Arena.is, hkind, hlet, hvar]

theorem status_of_useDeclaration? {d : Declaration} (h : t.useDeclaration? a n = some d) :
    d.symbol.status = if a.IsUnset d.symbol.definition then .undefined else .defined := by
  rw [useDeclaration?_eq] at h
  dsimp only at h
  split at h
  · cases h
  · obtain ⟨package, hpackage, h⟩ := Option.bind_eq_some_iff.mp h
    obtain ⟨name, _, rfl⟩ := Option.map_eq_some_iff.mp h
    have hkind : a.kind? (some package) = some .package := by
      have hfits := List.find?_some hpackage
      simp only [Bool.and_eq_true] at hfits
      exact beq_iff_eq.mp hfits.1
    exact (if_neg (not_isUnset_of_kind? hkind (by decide) (by decide))).symm

/-- A declaration leaves those locals unset that get no value there. -/
theorem status_of_mem_declarations {d : Declaration} (hd : d ∈ t.declarations a n) :
    d.symbol.status = if a.IsUnset d.symbol.definition then .undefined else .defined := by
  have hset {kind : Kind} (hkind : a.kind? (some n) = some kind) (hlet : kind ≠ .letLocal)
      (hvar : kind ≠ .varLocal) :
      SymbolStatus.defined = if a.IsUnset n then .undefined else .defined :=
    (if_neg (not_isUnset_of_kind? hkind hlet hvar)).symm
  rw [declarations] at hd
  dsimp only at hd
  split at hd
  · cases hd
  · rename_i hkind
    split at hd
    · cases List.mem_singleton.mp hd
      exact hset hkind (by decide) (by decide)
    · cases hd
  · exact status_of_useDeclaration? (Option.mem_toList.mp hd)
  · rename_i hkind
    cases List.mem_singleton.mp hd
    simp [localStatus, Arena.IsUnset, Arena.is, hkind]
  · rename_i hkind
    cases List.mem_singleton.mp hd
    simp [localStatus, Arena.IsUnset, Arena.is, hkind]
  · rename_i hkind
    cases List.mem_singleton.mp hd
    exact hset hkind (by decide) (by decide)
  · rename_i kind _ _ hlet hvar _ hkind
    have hdefined := hset hkind hlet hvar
    split at hd
    · rcases List.mem_cons.mp hd with rfl | hd
      · exact hdefined
      · split at hd
        · cases List.mem_singleton.mp hd
          exact hdefined
        · cases hd
    · split at hd
      · cases List.mem_singleton.mp hd
        exact hdefined
      · cases hd

theorem status_declaredBy {symbol : Symbol}
    (h : (declaredBy a root ns).symbol? owner name = some symbol) :
    symbol.status = if a.IsUnset symbol.definition then .undefined else .defined := by
  rw [declaredBy] at h
  by_cases hname : name = .empty
  · rw [hname, symbol?_foldl_declare_empty, symbol?_bare] at h
    cases h
  · rw [symbol?_foldl_declare _ _ hname, symbol?_bare, Option.none_or] at h
    split at h
    · obtain ⟨d, hd, rfl⟩ := Option.map_eq_some_iff.mp h
      obtain ⟨n, _, hmade⟩ := List.mem_flatMap.mp (List.mem_of_find?_eq_some hd)
      exact status_of_mem_declarations hmade
    · cases h

theorem status_bind (hnamed : a.Named) {text : String} {symbol : Symbol}
    (hname : a.names.Has name text) (htext : text ≠ "")
    (h : (bind a root).symbol? owner name = some symbol) :
    symbol.status =
      if a.IsMovable symbol.definition ∧ GivenAway a root owner text then .consumed
      else if a.IsUnset symbol.definition then .undefined
      else .defined := by
  have hdefinition : (bind a root).definition? owner name = some symbol.definition :=
    congrArg (Option.map Symbol.definition) h
  have hmark := exists_mark?_iff hnamed hname htext hdefinition
  rw [bind_eq_foldl, symbol?_foldl_markConsumed] at h
  obtain ⟨declared, hdeclared, rfl⟩ := Option.map_eq_some_iff.mp h
  have hstatus := status_declaredBy hdeclared
  by_cases hgiven : ∃ n ∈ (a.descendants root).filter fun n => a.is (some n) .consume,
      mark? a (declaredBy a root (a.descendants root)) n = some (owner, name)
  · rw [if_pos hgiven] at hmark ⊢
    rw [if_pos (hmark.mp hgiven)]
  · rw [if_neg hgiven] at hmark ⊢
    rw [if_neg (mt hmark.mpr hgiven), hstatus]

theorem lookupIn_markConsumed (hnamed : a.Named) (nodes : List NodeId) {text : String}
    (h : (bind a root).scopeOf? a (a.lastChild (some n)) text ≠ some owner) :
    let t := nodes.foldl (markConsumed a) (declaredBy a root (a.descendants root))
    (markConsumed a t n).lookupIn a (some owner) text = t.lookupIn a (some owner) text := by
  intro t
  rw [lookupIn_eq_bind, lookupIn_eq_bind]
  cases hget : a.names.get? text with
  | none => rfl
  | some name =>
    have hname := NameTable.has_of_get? hget
    have hmark : mark? a t n ≠ some (owner, name) := by
      rw [mark?_foldl_markConsumed]
      intro hmark
      by_cases htext : text = ""
      · subst htext
        have hempty := hnamed.sound.unique hname hnamed.sound.has_empty
        exact (consumedName?_eq_some_iff.mp (mark?_eq_some_iff.mp hmark).1).2.2 hempty
      · exact h ((mark?_declaredBy_iff hnamed hname htext).mp hmark).1.2.2
    simp only [Option.bind_some, markConsumed_eq, symbol?_giveAway, if_neg hmark, Option.map_id']

/-- The statuses in the table of a tree. An entry counts as given away exactly if it is of a local
or a parameter and a consume node of the tree names it: the last child of the node is a reference
with this name, for which a look-up at the reference finds the entry. So a name that hides another
one never marks the other one. Of what is not given away, a local whose parent is not an assignment
is undefined, and everything else is defined. A consume node changes no entry but the one that its
name leads to, whatever was marked before, and the consume nodes can be taken in any order. -/
theorem statuses_exact (ops : List Arena.Operation) (root : Link) :
    let a := Arena.empty.after ops
    let t := declaredBy a root (a.descendants root)
    (∀ owner name symbol, (bind a root).lookupIn a (some owner) name = some symbol →
      symbol.status =
        if a.IsMovable symbol.definition ∧ GivenAway a root owner name then .consumed
        else if a.IsUnset symbol.definition then .undefined
        else .defined) ∧
    (∀ (nodes : List NodeId) n owner name,
      (bind a root).scopeOf? a (a.lastChild (some n)) name ≠ some owner →
      ((nodes ++ [n]).foldl (markConsumed a) t).lookupIn a (some owner) name =
        (nodes.foldl (markConsumed a) t).lookupIn a (some owner) name) ∧
    ∀ nodes : List NodeId,
      nodes.Perm ((a.descendants root).filter fun n => a.is (some n) .consume) →
      nodes.foldl (markConsumed a) t = bind a root := by
  intro a t
  have hnamed : a.Named := Arena.named_after ops
  refine ⟨fun owner name symbol h => ?_, fun nodes n owner name h => ?_, fun nodes h => ?_⟩
  · rw [lookupIn_eq_bind] at h
    obtain ⟨atom, hget, h⟩ := Option.bind_eq_some_iff.mp h
    obtain ⟨text, htext, hname⟩ := exists_name_of_symbol? hnamed (Option.isSome_of_eq_some h)
    rw [← hname.2.symm.trans (NameTable.has_of_get? hget).2]
    exact status_bind hnamed hname htext h
  · rw [List.foldl_append]
    exact lookupIn_markConsumed hnamed nodes h
  · rw [foldl_markConsumed_perm a t h]
    rfl

/-- A method with a local and, in an inner block, a local of the same name that is given away. -/
def hiddenLocal : Arena :=
  .after .empty [
    .add .ident "x" [], .add .letLocal "" [some 0],
    .add .ident "x" [], .add .varLocal "" [some 2],
    .add .ident "x" [], .add .varRef "" [some 4], .add .consume "" [some 5],
    .add .seq "" [some 3, some 6], .add .seq "" [some 1, some 7],
    .add .ident "f" [], .add .funDef "" [some 9, some 8],
    .add .ident "C" [], .add .classDef "" [some 11, some 10],
    .add .package "p" [some 12], .add .program "" [some 13]]

theorem statuses_exact_hiddenLocal :
    GivenAway hiddenLocal (some 14) 7 "x" ∧ ¬ GivenAway hiddenLocal (some 14) 8 "x" ∧
      hiddenLocal.IsUnset 1 ∧
      (markConsumed hiddenLocal
        (declaredBy hiddenLocal (some 14) (hiddenLocal.descendants (some 14))) 6).lookupIn
          hiddenLocal (some 8) "x" = some ⟨1, .undefined⟩ := by
  obtain ⟨ops, ha⟩ : ∃ ops, hiddenLocal = .after .empty ops := ⟨_, rfl⟩
  have h := statuses_exact ops (some 14)
  rw [← ha] at h
  obtain ⟨hstatus, hother, _⟩ := h
  have hinner := hstatus 7 "x" ⟨3, .consumed⟩ (by decide +kernel)
  have houter := hstatus 8 "x" ⟨1, .undefined⟩ (by decide +kernel)
  have hmovable : hiddenLocal.IsMovable 1 := by decide +kernel
  refine ⟨?_, ?_, ?_, ?_⟩
  · by_contra hnot
    rw [if_neg fun h => hnot h.2] at hinner
    split at hinner <;> cases hinner
  · intro hgiven
    rw [if_pos ⟨hmovable, hgiven⟩] at houter
    cases houter
  · by_contra hnot
    rw [if_neg hnot] at houter
    split at houter <;> cases houter
  · exact (hother [] 6 8 "x" (by decide +kernel)).trans (by decide +kernel)

end ScopeTable

end PonyLens
