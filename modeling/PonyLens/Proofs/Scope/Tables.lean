import PonyLens.Scope.Binding

/-!
# What scope tables hold

A table is built declaration by declaration, and then names are marked as given away. In the end a
scope has for each name the first declaration of this name that went to it; the marks change the
status of symbols only.
-/

namespace PonyLens

theorem lookup_map_entries {α β γ : Type} [BEq α] [LawfulBEq α] (f : α → β → γ)
    (l : List (α × β)) (k : α) :
    (l.map fun (k, b) => (k, f k b)).lookup k = (l.lookup k).map (f k) := by
  induction l with
  | nil => rfl
  | cons x l ih =>
    obtain ⟨k', b⟩ := x
    rw [List.map_cons, List.lookup_cons, List.lookup_cons, ih]
    cases hk : k == k' with
    | true =>
      rw [beq_iff_eq.mp hk]
      rfl
    | false => rfl

theorem lookup_map_const {α β : Type} [DecidableEq α] (l : List α) (b : β) (k : α) :
    (l.map (·, b)).lookup k = if k ∈ l then some b else none := by
  induction l with
  | nil => rfl
  | cons x l ih =>
    rw [List.map_cons, List.lookup_cons, ih]
    by_cases hk : k = x
    · simp [hk]
    · have hbeq : (k == x) = false := beq_eq_false_iff_ne.mpr hk
      simp [hk, hbeq]

theorem findSome?_filterMap {α β γ : Type} (f : α → Option β) (g : β → Option γ) (l : List α) :
    (l.filterMap f).findSome? g = l.findSome? fun x => (f x).bind g := by
  induction l with
  | nil => rfl
  | cons x l ih =>
    rw [List.filterMap_cons, List.findSome?_cons]
    cases f x with
    | none => exact ih
    | some b => rw [List.findSome?_cons, ih, Option.bind_some]

namespace Scope

variable (s : Scope) (name other : Atom) (symbol : Symbol)

theorem find?_declare :
    (s.declare name symbol).find? other =
      (s.find? other).or (if name = other then some symbol else none) := by
  rw [declare]
  split
  · rename_i htaken
    split
    · subst name
      cases hfound : s.find? other with
      | some found => rfl
      | none => simp [hfound] at htaken
    · rw [Option.or_none]
  · rw [find?, find?, List.lookup_append]
    by_cases hname : name = other
    · simp [hname]
    · have hbeq : (other == name) = false := beq_eq_false_iff_ne.mpr (Ne.symm hname)
      simp [List.lookup_cons, hname, hbeq]

theorem find?_consume_eq_map :
    (s.consume name).find? other = (s.find? other).map fun symbol =>
      if other = name then { symbol with status := .consumed } else symbol := by
  have hentries := lookup_map_entries
    (fun other symbol => if other = name then { symbol with status := .consumed } else symbol)
    s.entries other
  exact hentries

theorem find?_consume :
    ((s.consume name).find? other).map Symbol.definition =
      (s.find? other).map Symbol.definition := by
  rw [find?_consume_eq_map, Option.map_map]
  congr 1
  funext symbol
  simp only [Function.comp_apply]
  split <;> rfl

end Scope

namespace ScopeTable

def symbol? (t : ScopeTable) (owner : NodeId) (name : Atom) : Option Symbol :=
  (t.scope? owner).bind (·.find? name)

variable {a : Arena} {t : ScopeTable} {name : Atom} {owner : NodeId}

theorem scope?_modify (t : ScopeTable) (changed : NodeId) (f : Scope → Scope) (owner : NodeId) :
    (t.modify changed f).scope? owner =
      (t.scope? owner).map fun s => if owner = changed then f s else s :=
  lookup_map_entries (fun n s => if n = changed then f s else s) t.scopes owner

theorem owns_modify (t : ScopeTable) (changed : NodeId) (f : Scope → Scope) (owner : NodeId) :
    (t.modify changed f).owns owner = t.owns owner := by
  rw [owns, owns, scope?_modify, Option.isSome_map]

/-! ### Declarations -/

/-- The declaration of a name goes to its owner, if that has a scope and the name is free there. -/
theorem symbol?_declare (t : ScopeTable) (d : Declaration) (hname : name ≠ .empty) :
    (t.declare d).symbol? owner name =
      if t.owns owner then
        (t.symbol? owner name).or
          (if d.owner = some owner ∧ d.name = name then some d.symbol else none)
      else none := by
  have hunchanged (hother : ¬(d.owner = some owner ∧ d.name = name)) :
      t.symbol? owner name = if t.owns owner then (t.symbol? owner name).or
        (if d.owner = some owner ∧ d.name = name then some d.symbol else none) else none := by
    rw [if_neg hother, Option.or_none, symbol?, owns]
    cases t.scope? owner <;> rfl
  rw [declare]
  split
  · rename_i place hplace
    split
    · rename_i hempty
      refine hunchanged fun h => hname ?_
      rw [← h.2]
      exact beq_iff_eq.mp hempty
    · rw [symbol?, scope?_modify]
      by_cases howner : owner = place
      · subst owner
        rw [symbol?, owns]
        cases t.scope? place with
        | none => rfl
        | some s => simp [hplace, Scope.find?_declare]
      · have hother : ¬(d.owner = some owner ∧ d.name = name) := by
          rintro ⟨h, _⟩
          exact howner (Option.some.inj (h.symm.trans hplace))
        simp only [if_neg howner, Option.map_id']
        exact hunchanged hother
  · rename_i hnone
    exact hunchanged fun h => by simp [h.1] at hnone

theorem symbol?_declare_empty (t : ScopeTable) (d : Declaration) (owner : NodeId) :
    (t.declare d).symbol? owner .empty = t.symbol? owner .empty := by
  rw [declare]
  split
  · split
    · rfl
    · rename_i hname
      have hother : d.name ≠ .empty := by
        intro heq
        simp [heq, Atom.isEmpty] at hname
      rw [symbol?, symbol?, scope?_modify]
      cases t.scope? owner with
      | none => rfl
      | some s =>
        simp only [Option.map_some, Option.bind_some]
        split
        · simp [Scope.find?_declare, hother]
        · rfl
  · rfl

theorem owns_declare (t : ScopeTable) (d : Declaration) (owner : NodeId) :
    (t.declare d).owns owner = t.owns owner := by
  rw [declare]
  split
  · split
    · rfl
    · exact owns_modify t _ _ owner
  · rfl

theorem symbol?_foldl_declare (t : ScopeTable) (ds : List Declaration) (hname : name ≠ .empty) :
    (ds.foldl declare t).symbol? owner name =
      if t.owns owner then
        (t.symbol? owner name).or
          ((ds.find? fun d => d.owner = some owner ∧ d.name = name).map Declaration.symbol)
      else none := by
  induction ds generalizing t with
  | nil =>
    rw [List.foldl_nil, symbol?, owns]
    cases t.scope? owner <;> simp
  | cons d ds ih =>
    rw [List.foldl_cons, ih, owns_declare, symbol?_declare t d hname, List.find?_cons]
    cases t.owns owner with
    | false => rfl
    | true =>
      by_cases hd : d.owner = some owner ∧ d.name = name
      · simp [hd]
      · simp [hd]

theorem symbol?_foldl_declare_empty (t : ScopeTable) (ds : List Declaration) (owner : NodeId) :
    (ds.foldl declare t).symbol? owner .empty = t.symbol? owner .empty := by
  induction ds generalizing t with
  | nil => rfl
  | cons d ds ih => rw [List.foldl_cons, ih, symbol?_declare_empty]

/-! ### Marks -/

theorem markConsumed_cases (a : Arena) (t : ScopeTable) (n : NodeId) :
    markConsumed a t n = t ∨ ∃ owner name, markConsumed a t n = t.modify owner (·.consume name) := by
  rw [markConsumed]
  split
  · exact .inl rfl
  · dsimp only
    split
    · split
      · exact .inr ⟨_, _, rfl⟩
      · exact .inr ⟨_, _, rfl⟩
      · exact .inr ⟨_, _, rfl⟩
      · exact .inl rfl
    · exact .inl rfl

theorem definition_markConsumed (a : Arena) (t : ScopeTable) (n owner : NodeId) (name : Atom) :
    ((markConsumed a t n).symbol? owner name).map Symbol.definition =
      (t.symbol? owner name).map Symbol.definition := by
  rcases markConsumed_cases a t n with heq | ⟨place, given, heq⟩
  · rw [heq]
  · rw [heq, symbol?, symbol?, scope?_modify]
    cases t.scope? owner with
    | none => rfl
    | some s =>
      simp only [Option.map_some, Option.bind_some]
      split
      · exact s.find?_consume given name
      · rfl

theorem definition_foldl_markConsumed (a : Arena) (t : ScopeTable) (ns : List NodeId)
    (owner : NodeId) (name : Atom) :
    ((ns.foldl (markConsumed a) t).symbol? owner name).map Symbol.definition =
      (t.symbol? owner name).map Symbol.definition := by
  induction ns generalizing t with
  | nil => rfl
  | cons n ns ih => rw [List.foldl_cons, ih, definition_markConsumed]

/-! ### Whole tables -/

theorem scope?_bare (a : Arena) (root : Link) (owner : NodeId) :
    (bare a root).scope? owner =
      if owner ∈ (a.descendants root).filter fun n => a.isA (some n) Kind.opensScope then
        some .empty
      else none :=
  lookup_map_const _ _ owner

theorem owns_bare (a : Arena) (root : Link) (owner : NodeId) :
    (bare a root).owns owner = true ↔
      owner ∈ a.descendants root ∧ a.isA (some owner) Kind.opensScope = true := by
  rw [owns, scope?_bare]
  split
  · rename_i h
    exact iff_of_true rfl (List.mem_filter.mp h)
  · rename_i h
    exact iff_of_false (by simp) fun h' => h (List.mem_filter.mpr h')

theorem program_bare (a : Arena) (root : NodeId) :
    (bare a (some root)).program = if a.is (some root) .program = true then some root else none :=
  rfl

theorem symbol?_bare (a : Arena) (root : Link) (owner : NodeId) :
    (bare a root).symbol? owner name = none := by
  rw [symbol?, scope?_bare]
  split <;> rfl

def declared? (a : Arena) (root : Link) (owner : NodeId) (name : Atom) (n : NodeId) : Option NodeId :=
  (((bare a root).declarations a n).find? fun d => d.owner = some owner ∧ d.name = name).map
    (·.symbol.definition)

/-- The definition of a name in a scope is that of the first node that declares it there. -/
theorem definition_bind (a : Arena) (root : Link) (owner : NodeId) (hname : name ≠ .empty) :
    ((bind a root).symbol? owner name).map Symbol.definition =
      if (bare a root).owns owner then
        (a.descendants root).findSome? (declared? a root owner name)
      else none := by
  rw [bind, definition_foldl_markConsumed, symbol?_foldl_declare _ _ hname]
  split
  · rw [symbol?_bare, Option.none_or, Option.map_map, List.find?_flatMap, List.map_findSome?]
    rfl
  · rfl

theorem symbol?_bind_empty (a : Arena) (root : Link) (owner : NodeId) :
    (bind a root).symbol? owner .empty = none := by
  rw [← Option.map_eq_none_iff, bind, definition_foldl_markConsumed, Option.map_eq_none_iff,
    symbol?_foldl_declare_empty]
  exact symbol?_bare a root owner

/-- A look-up asks the node itself and then its ancestors. -/
theorem lookup_eq_bind (t : ScopeTable) (a : Arena) (l : Link) (name : String) :
    t.lookup a l name =
      (a.names.get? name).bind fun atom => (outward a l).findSome? (t.symbol? · atom) := by
  simp only [lookup, chain, findSome?_filterMap]
  rfl

theorem lookupIn_eq_bind (t : ScopeTable) (a : Arena) (owner : NodeId) (name : String) :
    t.lookupIn a (some owner) name = (a.names.get? name).bind (t.symbol? owner ·) := rfl

end ScopeTable

end PonyLens
