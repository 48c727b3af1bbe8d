import PonyLens.Proofs.Cache.Transparency
import PonyLens.Proofs.Guard
import PonyLens.Program
import PonyLens.Proofs.Inheritance.Reference

/-!
# Flattening a type

The collector remembers only the types that it is inside of. It enters a type again when it meets it
on another path, and skips it when it meets it from within. As long as no limit is reached this
gives the members of the walk that visits each definition once: a type that is entered again has had
all its members taken and all its providers entered, and a type that is skipped is one of them.
-/

namespace PonyLens

namespace MemberSite

def IsTaken (found : List MemberSite) (name : String) : Prop := ∃ s ∈ found, s.name = name

instance (found : List MemberSite) (name : String) : Decidable (IsTaken found name) :=
  inferInstanceAs (Decidable (∃ s ∈ found, s.name = name))

def keepNew (found : List MemberSite) : List MemberSite → List MemberSite
  | [] => found
  | s :: sites =>
    if s.name.isEmpty ∨ IsTaken found s.name then keepNew found sites
    else keepNew (found ++ [s]) sites

variable {found sites : List MemberSite}

theorem keepNew_append (found sites sites' : List MemberSite) :
    keepNew found (sites ++ sites') = keepNew (keepNew found sites) sites' := by
  induction sites generalizing found with
  | nil => rfl
  | cons s sites ih =>
    simp only [List.cons_append, keepNew]
    split <;> exact ih _

theorem keepNew_eq_append_filter (found sites : List MemberSite) :
    keepNew found sites =
      found ++ (firstOfEachName sites).filter fun s => ¬ IsTaken found s.name := by
  induction sites generalizing found with
  | nil => simp [keepNew, firstOfEachName]
  | cons s sites ih =>
    rw [keepNew, firstOfEachName]
    by_cases hempty : s.name.isEmpty
    · rw [if_pos (.inl hempty), if_pos hempty, ih found]
    · by_cases htaken : IsTaken found s.name
      · -- All that has the name of `s` is dropped by either filter.
        rw [if_pos (.inr htaken), if_neg hempty, ih found, List.filter_cons_of_neg (by simpa),
          List.filter_filter]
        congr 1
        apply List.filter_congr
        intro x _
        by_cases hx : x.name = s.name
        · simp [hx, htaken]
        · simp [hx]
      · rw [if_neg (by simp [hempty, htaken]), if_neg hempty, ih (found ++ [s]),
          List.filter_cons_of_pos (by simpa), List.filter_filter, List.append_assoc,
          List.singleton_append]
        congr 2
        apply List.filter_congr
        intro x _
        by_cases hx : x.name = s.name
        · simp [hx, IsTaken]
        · simp [IsTaken, hx, Ne.symm hx]

theorem keepNew_nil (sites : List MemberSite) : keepNew [] sites = firstOfEachName sites := by
  simp [keepNew_eq_append_filter, IsTaken]

theorem IsTaken.keepNew {name : String} (h : IsTaken found name) (sites : List MemberSite) :
    IsTaken (keepNew found sites) name := by
  obtain ⟨s, hs, hname⟩ := h
  rw [keepNew_eq_append_filter]
  exact ⟨s, List.mem_append_left _ hs, hname⟩

theorem isTaken_keepNew {s : MemberSite} (hs : s ∈ sites) (hname : ¬ s.name.isEmpty)
    (found : List MemberSite) : IsTaken (keepNew found sites) s.name := by
  induction sites generalizing found with
  | nil => cases hs
  | cons x sites ih =>
    rw [keepNew]
    rcases List.mem_cons.mp hs with rfl | hs
    · split
      · rename_i hskip
        exact (hskip.resolve_left hname).keepNew sites
      · exact IsTaken.keepNew ⟨s, by simp, rfl⟩ sites
    · split <;> exact ih hs _

theorem keepNew_of_taken (h : ∀ s ∈ sites, ¬ s.name.isEmpty → IsTaken found s.name) :
    keepNew found sites = found := by
  induction sites with
  | nil => rfl
  | cons s sites ih =>
    have hskip : s.name.isEmpty ∨ IsTaken found s.name :=
      Decidable.or_iff_not_imp_left.mpr (h s List.mem_cons_self)
    rw [keepNew, if_pos hskip, ih fun x hx => h x (List.mem_cons_of_mem s hx)]

end MemberSite

open MemberSite

theorem Inheritance.insertOwn_eq (i : Inheritance) (env : Env) (owner : NominalType) :
    i.insertOwn env.arena owner = { i with found := keepNew i.found (env.declared owner) } := by
  rw [insertOwn, Env.declared]
  generalize env.arena.children (env.arena.child (some owner.definition) definitionLayout.members)
    = members
  induction members generalizing i with
  | nil => rfl
  | cons member members ih =>
    rw [List.foldl_cons, ih, List.filterMap_cons]
    cases hname : env.arena.name? (some member) with
    | none => simp [insert, hname]
    | some name =>
      have htaken : IsTaken i.found name ↔ i.found.any (·.name == name) = true := by
        simp [IsTaken]
      simp only [insert, hname, Option.map_some, keepNew, htaken, Bool.or_eq_true]
      split <;> rfl

namespace Env

/-! ### A visit as a function

Visits are transparent, so the cache of a walk may be taken to be the first one at every step. -/

theorem run_foldlM {env : Env} {α β : Type} {f : β → α → CacheM β} {l : List α}
    (hf : ∀ b, ∀ a ∈ l, env.Transparent (f b a)) (b : β) (c : Cache) :
    ((l.foldlM f b).run c).1 = l.foldl (fun b a => ((f b a).run c).1) b := by
  induction l generalizing b with
  | nil => rfl
  | cons a l ih =>
    have hl : ∀ b, ∀ x ∈ l, env.Transparent (f b x) :=
      fun b x hx => hf b x (List.mem_cons_of_mem a hx)
    have hfill := (hf b a List.mem_cons_self).fills c
    rw [List.foldlM_cons, List.foldl_cons, ← ih hl]
    exact (Transparent.foldlM hl _ c _ hfill).1

theorem run_nominalDefinition {env : Env} {nominal : NodeId}
    (h : env.arena.kind? (some nominal) = some .nominal) (c : Cache) :
    (∃ c', (env.nominalDefinition (some nominal)).run.run c = (.ok (env.named? c nominal), c')) ∨
      ∃ e c', (env.nominalDefinition (some nominal)).run.run c = (.error e, c') ∧
        env.named? c nominal = none := by
  rw [named?, nominalDefinition]
  cases hc : c.find? (some nominal) with
  | some bound => exact .inl ⟨c, cachedDefinition_of_bound hc _⟩
  | none =>
    obtain ⟨node, hnode, _⟩ := Option.map_eq_some_iff.mp h
    cases hfind : env.namedDefinition (some nominal) with
    | ok d =>
      rw [cachedDefinition_of_free hc, Cache.bind_of_find?_eq_none hc hnode]
      exact .inl ⟨_, rfl⟩
    | error e => exact .inr ⟨e, c, cachedDefinition_of_error hc e, rfl⟩

theorem run_provider? {env : Env} {nominal : NodeId}
    (h : env.arena.kind? (some nominal) = some .nominal) (owner : NominalType) (c : Cache) :
    ((env.provider? owner nominal).run c).1 = env.provided? c owner nominal := by
  rw [provider?, provided?]
  rcases run_nominalDefinition h c with ⟨c', hrun⟩ | ⟨e, c', hrun, hnone⟩
  · rw [StateT.run_bind, hrun]
    rfl
  · rw [StateT.run_bind, hrun, hnone]
    rfl

def visit (env : Env) (c : Cache) (levels : Nat) (owner : NominalType) (i : Inheritance) :
    Inheritance :=
  ((env.visitType levels owner i).run c).1

variable {env : Env} {c : Cache} {levels : Nat} {owner t : NominalType} {i j : Inheritance}
  {seen : List NodeId}

theorem visit_of_refused {answer : Guard.Answer} {guard : Guard NodeId}
    (h : i.guard.enter owner.definition = (answer, guard)) (hanswer : answer ≠ .entered) :
    env.visit c levels owner i = { i with guard } := by
  cases levels with
  | zero =>
    rw [visit, visitType, h]
    rfl
  | succ levels =>
    rw [visit, visitType, h]
    cases answer <;> first | exact absurd rfl hanswer | rfl

/-- Going on from a provider is a visit of the type that it stands for, if there is one. -/
theorem run_visit_provider? {nominal : NodeId} (hm : nominal ∈ env.providedNominals owner)
    (levels : Nat) (i : Inheritance) (c : Cache) :
    ((env.provider? owner nominal >>= fun
      | some provider => env.visitType levels provider i
      | none => pure i).run c).1 =
    match env.provided? c owner nominal with
    | some provider => env.visit c levels provider i
    | none => i := by
  have hkind := kind?_of_mem_providedNominals hm
  have hfill := (transparent_provider? hkind owner).fills c
  rw [← run_provider? hkind owner c, StateT.run_bind]
  generalize (env.provider? owner nominal).run c = r at hfill
  obtain ⟨provider, c'⟩ := r
  cases provider with
  | some provider => exact (transparent_visitType env levels provider i c c' hfill).1
  | none => rfl

theorem visit_of_entered {guard : Guard NodeId}
    (h : i.guard.enter owner.definition = (.entered, guard)) :
    env.visit c (levels + 1) owner i =
      let j := (env.providers c owner).foldl (fun i p => env.visit c levels p i)
        { guard, found := keepNew i.found (env.declared owner) }
      { j with guard := (j.guard.leave? owner.definition).getD j.guard } := by
  have hstep (i : Inheritance) (nominal : NodeId) (hm : nominal ∈ env.providedNominals owner) :
      env.Transparent (env.provider? owner nominal >>= fun
        | some provider => env.visitType levels provider i
        | none => pure i) := by
    apply (transparent_provider? (kind?_of_mem_providedNominals hm) owner).bind
    intro r
    cases r with
    | some provider => exact transparent_visitType env levels provider i
    | none => exact .pure i
  have hproviders (i : Inheritance) :
      (env.providedNominals owner).foldl (fun i nominal =>
        match env.provided? c owner nominal with
        | some provider => env.visit c levels provider i
        | none => i) i = (env.providers c owner).foldl (fun i p => env.visit c levels p i) i := by
    rw [providers, List.foldl_filterMap]
    apply List.foldl_ext _ _ _
    intro i nominal _
    cases env.provided? c owner nominal <;> rfl
  have hloop := run_foldlM hstep (({ i with guard } : Inheritance).insertOwn env.arena owner) c
  rw [List.foldl_ext _ _ _ fun i nominal hm => run_visit_provider? hm levels i c, hproviders,
    Inheritance.insertOwn_eq] at hloop
  rw [visit, visitType, h]
  simp only [Inheritance.insertOwn_eq]
  exact congrArg (fun j : Inheritance =>
    { j with guard := (j.guard.leave? owner.definition).getD j.guard }) hloop

theorem foldl_visit_exceeded
    (hvisit : ∀ t i, i.guard.exceeded = true → (env.visit c levels t i).guard.exceeded = true)
    (ts : List NominalType) (h : i.guard.exceeded = true) :
    (ts.foldl (fun i p => env.visit c levels p i) i).guard.exceeded = true := by
  induction ts generalizing i with
  | nil => exact h
  | cons t ts ih => exact ih (hvisit t i h)

theorem visit_exceeded (h : i.guard.exceeded = true) :
    (env.visit c levels t i).guard.exceeded = true := by
  induction levels generalizing t i with
  | zero => exact Guard.exceeded_enter h t.definition
  | succ levels ih =>
    rcases henter : i.guard.enter t.definition with ⟨answer, guard⟩
    have hguard : guard.exceeded = true := by
      rw [← Guard.exceeded_enter h t.definition, henter]
    by_cases hanswer : answer = .entered
    · subst hanswer
      rw [visit_of_entered henter]
      dsimp only
      rw [Guard.exceeded_leave?]
      exact foldl_visit_exceeded (fun _ _ => ih) _ hguard
    · rw [visit_of_refused henter hanswer]
      exact hguard

/-! ### The invariant of the walk -/

def seenAfter (visited : List NominalType) (seen : List NodeId) : List NodeId :=
  (visited.map NominalType.definition).reverse ++ seen

/-- What holds between visits, where the definitions of `seen` have been entered. The types that the
guard is inside of are among them; all that they declare is taken; and those that it has left again
have had their providers entered. -/
structure WalkInvariant (env : Env) (c : Cache) (seen : List NodeId) (i : Inheritance) : Prop where
  visiting_subset : i.guard.visiting ⊆ seen
  declared_taken : ∀ t : NominalType, t.definition ∈ seen →
    ∀ s ∈ env.declared t, ¬ s.name.isEmpty → IsTaken i.found s.name
  providers_seen : ∀ t : NominalType, t.IsWritten env.arena → t.definition ∈ seen →
    t.definition ∉ i.guard.visiting → ∀ p ∈ env.providers c t, p.definition ∈ seen

/-- Visits of `ts` lead from `i` to `j`. The types in `visited` are the ones that the walk with one
set of visited types visits on this way. -/
structure Visits (env : Env) (c : Cache) (seen : List NodeId) (ts visited : List NominalType)
    (i j : Inheritance) : Prop where
  walk_eq : ∀ pending, env.walk c seen (ts ++ pending) =
    visited ++ env.walk c (seenAfter visited seen) pending
  found_eq : j.found = keepNew i.found (visited.flatMap env.declared)
  visiting_eq : j.guard.visiting = i.guard.visiting
  depth_eq : j.guard.depth = i.guard.depth
  maxDepth_eq : j.guard.maxDepth = i.guard.maxDepth
  invariant : env.WalkInvariant c (seenAfter visited seen) j

theorem seen_or_mem_walk {pending : List NominalType} {p : NominalType} (hp : p ∈ pending) :
    p.definition ∈ seen ∨ ∃ u ∈ env.walk c seen pending, u.definition = p.definition := by
  fun_induction env.walk c seen pending with
  | case1 => cases hp
  | case2 seen t pending hseen ih =>
    rcases List.mem_cons.mp hp with rfl | hp
    · exact .inl hseen
    · exact ih hp
  | case3 seen t pending hseen ih =>
    rcases List.mem_cons.mp hp with rfl | hp
    · exact .inr ⟨p, List.mem_cons_self, rfl⟩
    · rcases ih (List.mem_append_right _ hp) with hmem | ⟨u, hu, hdef⟩
      · rcases List.mem_cons.mp hmem with hdef | hmem
        · exact .inr ⟨t, List.mem_cons_self, hdef.symm⟩
        · exact .inl hmem
      · exact .inr ⟨u, List.mem_cons_of_mem t hu, hdef⟩

namespace Visits

variable {ts ts' visited visited' : List NominalType} {k : Inheritance}

protected theorem nil (h : env.WalkInvariant c seen i) : env.Visits c seen [] [] i i where
  walk_eq _ := rfl
  found_eq := rfl
  visiting_eq := rfl
  depth_eq := rfl
  maxDepth_eq := rfl
  invariant := h

protected theorem append (h : env.Visits c seen ts visited i j)
    (h' : env.Visits c (seenAfter visited seen) ts' visited' j k) :
    env.Visits c seen (ts ++ ts') (visited ++ visited') i k where
  walk_eq pending := by
    rw [List.append_assoc, h.walk_eq, h'.walk_eq]
    simp [seenAfter]
  found_eq := by rw [h'.found_eq, h.found_eq, List.flatMap_append, keepNew_append]
  visiting_eq := h'.visiting_eq.trans h.visiting_eq
  depth_eq := h'.depth_eq.trans h.depth_eq
  maxDepth_eq := h'.maxDepth_eq.trans h.maxDepth_eq
  invariant := by simpa [seenAfter] using h'.invariant

theorem walk_eq_visited (h : env.Visits c seen ts visited i j) :
    env.walk c seen ts = visited := by
  simpa using h.walk_eq []

theorem definition_mem (h : env.Visits c seen ts visited i j) {p : NominalType} (hp : p ∈ ts) :
    p.definition ∈ seenAfter visited seen := by
  rcases seen_or_mem_walk hp with hseen | ⟨u, hu, hdef⟩
  · exact List.mem_append_right _ hseen
  · rw [h.walk_eq_visited] at hu
    refine List.mem_append_left _ (List.mem_reverse.mpr ?_)
    exact hdef ▸ List.mem_map_of_mem hu

theorem visited_eq_nil (h : env.Visits c seen ts visited i j)
    (hseen : ∀ p ∈ ts, p.definition ∈ seen) : visited = [] := by
  rw [← h.walk_eq_visited]
  clear h
  induction ts with
  | nil => exact walk_nil
  | cons t ts ih =>
    rw [walk_of_mem (hseen t List.mem_cons_self)]
    exact ih fun p hp => hseen p (List.mem_cons_of_mem t hp)

end Visits

theorem foldl_visits
    (hvisit : ∀ (t : NominalType) (seen : List NodeId) (i : Inheritance),
      t.IsWritten env.arena → env.WalkInvariant c seen i →
      i.guard.depth + levels = i.guard.maxDepth →
      (env.visit c levels t i).guard.exceeded = false →
      ∃ visited, env.Visits c seen [t] visited i (env.visit c levels t i))
    {ts : List NominalType} (hts : ∀ t ∈ ts, t.IsWritten env.arena)
    (hinv : env.WalkInvariant c seen i) (hroom : i.guard.depth + levels = i.guard.maxDepth)
    (hok : (ts.foldl (fun i p => env.visit c levels p i) i).guard.exceeded = false) :
    ∃ visited, env.Visits c seen ts visited i (ts.foldl (fun i p => env.visit c levels p i) i) := by
  induction ts generalizing seen i with
  | nil => exact ⟨[], .nil hinv⟩
  | cons t ts ih =>
    have hfirst : (env.visit c levels t i).guard.exceeded = false := by
      by_contra hne
      rw [List.foldl_cons, foldl_visit_exceeded (fun _ _ => visit_exceeded) ts
        (Bool.not_eq_false _ ▸ hne)] at hok
      cases hok
    obtain ⟨visited, hvisited⟩ := hvisit t seen i (hts t List.mem_cons_self) hinv hroom hfirst
    have hroom' : (env.visit c levels t i).guard.depth + levels =
        (env.visit c levels t i).guard.maxDepth := by
      rw [hvisited.depth_eq, hvisited.maxDepth_eq, hroom]
    obtain ⟨visited', hrest⟩ :=
      ih (fun p hp => hts p (List.mem_cons_of_mem t hp)) hvisited.invariant hroom' hok
    exact ⟨visited ++ visited', hvisited.append hrest⟩

/-- Once the members of `t` are taken, so are those of every type with its definition. -/
theorem isTaken_keepNew_declared {found : List MemberSite}
    (h : ∀ u : NominalType, u.definition ∈ seen →
      ∀ s ∈ env.declared u, ¬ s.name.isEmpty → IsTaken found s.name)
    (t : NominalType) {u : NominalType} (hu : u.definition ∈ t.definition :: seen)
    {s : MemberSite} (hs : s ∈ env.declared u) (hname : ¬ s.name.isEmpty) :
    IsTaken (keepNew found (env.declared t)) s.name := by
  rcases List.mem_cons.mp hu with hdef | hu
  · -- Under another instance of `t` the same names are declared.
    have hmem : s.name ∈ (env.declared t).map MemberSite.name :=
      map_name_declared hdef ▸ List.mem_map_of_mem hs
    obtain ⟨s', hs', heq⟩ := List.mem_map.mp hmem
    rw [← heq] at hname ⊢
    exact isTaken_keepNew hs' hname found
  · exact (h u hu s hs hname).keepNew _

/-- After a type is entered for the first time, and its members are taken, the invariant holds with
its definition among those that have been seen. -/
theorem WalkInvariant.enter {guard : Guard NodeId} (hinv : env.WalkInvariant c seen i)
    (hvisiting : guard.visiting = t.definition :: i.guard.visiting) :
    env.WalkInvariant c (t.definition :: seen)
      { guard, found := keepNew i.found (env.declared t) } where
  visiting_subset := by
    rw [hvisiting]
    exact List.cons_subset_cons _ hinv.visiting_subset
  declared_taken _ hu _ hs hname := isTaken_keepNew_declared hinv.declared_taken t hu hs hname
  providers_seen u hwritten hu hfree p hp := by
    rw [hvisiting, List.mem_cons, not_or] at hfree
    have hseen := (List.mem_cons.mp hu).resolve_left hfree.1
    exact List.mem_cons_of_mem _ (hinv.providers_seen u hwritten hseen hfree.2 p hp)

/-- A type that is being visited is skipped, and so it is in the walk. -/
theorem visits_of_visiting (hinv : env.WalkInvariant c seen i)
    (hmem : t.definition ∈ i.guard.visiting) (visits : Nat) :
    env.Visits c seen [t] [] i { i with guard := { i.guard with visits } } where
  walk_eq _ := walk_of_mem (hinv.visiting_subset hmem)
  found_eq := rfl
  visiting_eq := rfl
  depth_eq := rfl
  maxDepth_eq := rfl
  invariant := ⟨hinv.visiting_subset, hinv.declared_taken, hinv.providers_seen⟩

section Entered

variable {guard : Guard NodeId} {visited : List NominalType}
  (hvisiting : guard.visiting = t.definition :: i.guard.visiting)
  (hdepth : guard.depth = i.guard.depth + 1) (hmax : guard.maxDepth = i.guard.maxDepth)
  (hfree : t.definition ∉ i.guard.visiting) (hinv : env.WalkInvariant c seen i)
  (hwritten : t.IsWritten env.arena)
  (hinner : env.Visits c (t.definition :: seen) (env.providers c t) visited
    { guard, found := keepNew i.found (env.declared t) } j)
include hvisiting hdepth hmax hfree hinv hwritten hinner

/-- A type that was left before is entered again. There is nothing new: its members are taken and
its providers seen. -/
theorem visits_of_seen (hseen : t.definition ∈ seen) :
    env.Visits c seen [t] [] i
      { j with guard := (j.guard.leave? t.definition).getD j.guard } := by
  have hnil : visited = [] := hinner.visited_eq_nil fun p hp =>
    List.mem_cons_of_mem _ (hinv.providers_seen t hwritten hseen hfree p hp)
  subst hnil
  have hfound : j.found = i.found :=
    hinner.found_eq.trans (keepNew_of_taken (hinv.declared_taken t hseen))
  rw [Guard.leave?_of_cons (hinner.visiting_eq.trans hvisiting), hfound]
  exact {
    walk_eq := fun _ => walk_of_mem hseen
    found_eq := rfl
    visiting_eq := rfl
    depth_eq := by simp [hinner.depth_eq, hdepth]
    maxDepth_eq := hinner.maxDepth_eq.trans hmax
    invariant := ⟨hinv.visiting_subset, hinv.declared_taken, hinv.providers_seen⟩ }

omit hfree in
/-- A type that is entered for the first time is visited, followed by what it provides. -/
theorem visits_of_not_seen (hseen : t.definition ∉ seen) :
    env.Visits c seen [t] (t :: visited) i
      { j with guard := (j.guard.leave? t.definition).getD j.guard } := by
  have hafter : seenAfter (t :: visited) seen = seenAfter visited (t.definition :: seen) := by
    simp [seenAfter]
  have hsub : seen ⊆ seenAfter visited (t.definition :: seen) :=
    fun d hd => List.mem_append_right _ (List.mem_cons_of_mem _ hd)
  rw [Guard.leave?_of_cons (hinner.visiting_eq.trans hvisiting)]
  refine {
    walk_eq := fun pending => ?_
    found_eq := ?_
    visiting_eq := rfl
    depth_eq := by simp [hinner.depth_eq, hdepth]
    maxDepth_eq := hinner.maxDepth_eq.trans hmax
    invariant := ⟨?_, ?_, ?_⟩ }
  · rw [List.singleton_append, walk_of_not_mem hseen, hinner.walk_eq, hafter, List.cons_append]
  · rw [List.flatMap_cons, keepNew_append]
    exact hinner.found_eq
  · rw [hafter]
    exact fun d hd => hsub (hinv.visiting_subset hd)
  · rw [hafter]
    exact hinner.invariant.declared_taken
  · rw [hafter]
    intro u hu huseen hufree p hp
    by_cases hdef : u.definition = t.definition
    · -- The type that is left now has just had its providers visited.
      have hmem : p.definition ∈ (env.providers c t).map NominalType.definition :=
        map_definition_providers hu hwritten hdef c ▸ List.mem_map_of_mem hp
      obtain ⟨q, hq, heq⟩ := List.mem_map.mp hmem
      exact heq ▸ hinner.definition_mem hq
    · have hufree' : u.definition ∉ j.guard.visiting := by
        rw [hinner.visiting_eq, hvisiting]
        simpa [hdef] using hufree
      exact hinner.invariant.providers_seen u hu huseen hufree' p hp

end Entered

/-- A visit that comes to no limit is a part of the walk: an empty one if the type is being visited
or has been visited before. -/
theorem exists_visits (hwritten : t.IsWritten env.arena) (hinv : env.WalkInvariant c seen i)
    (hroom : i.guard.depth + levels = i.guard.maxDepth)
    (hok : (env.visit c levels t i).guard.exceeded = false) :
    ∃ visited, env.Visits c seen [t] visited i (env.visit c levels t i) := by
  induction levels generalizing t seen i with
  | zero =>
    have hlimit : (i.guard.enter t.definition).1.isLimit = true :=
      Guard.isLimit_enter (by omega) t.definition
    have hexceeded : (env.visit c 0 t i).guard.exceeded = true :=
      Guard.exceeded_of_isLimit (g := i.guard) rfl hlimit
    rw [hexceeded] at hok
    cases hok
  | succ levels ih =>
    rcases henter : i.guard.enter t.definition with ⟨answer, guard⟩
    have hlimit (h : answer.isLimit = true) (hne : answer ≠ .entered) : False := by
      rw [visit_of_refused henter hne, Guard.exceeded_of_isLimit henter h] at hok
      cases hok
    cases answer with
    | tooDeep => exact (hlimit rfl (by simp)).elim
    | tooMany => exact (hlimit rfl (by simp)).elim
    | cycle =>
      obtain ⟨hmem, visits, rfl⟩ := Guard.enter_eq_cycle henter
      rw [visit_of_refused henter (by simp)]
      exact ⟨[], visits_of_visiting hinv hmem visits⟩
    | entered =>
      obtain ⟨hfree, hvisiting, _⟩ := Guard.enter_eq_entered henter
      obtain ⟨_, hdepth, hmax⟩ := Guard.depth_of_enter_eq_entered henter
      rw [visit_of_entered henter] at hok ⊢
      dsimp only at hok ⊢
      rw [Guard.exceeded_leave?] at hok
      have hroom' : guard.depth + levels = guard.maxDepth := by omega
      obtain ⟨visited, hinner⟩ := foldl_visits (fun _ _ _ => ih)
        (fun p hp => (mem_providers hp).2) (hinv.enter hvisiting) hroom' hok
      by_cases hseen : t.definition ∈ seen
      · exact ⟨[], visits_of_seen hvisiting hdepth hmax hfree hinv hwritten hinner hseen⟩
      · exact ⟨t :: visited,
          visits_of_not_seen hvisiting hdepth hmax hinv hwritten hinner hseen⟩

theorem walkInvariant_start (env : Env) (c : Cache) : env.WalkInvariant c [] {} where
  visiting_subset := List.nil_subset _
  declared_taken _ h := absurd h List.not_mem_nil
  providers_seen _ _ h := absurd h List.not_mem_nil

/-- As long as no limit stops the collector, it gives the members of the walk that visits each
definition once: the same nodes in the same order, each found on the same instance of its type. -/
theorem memberSites_eq_flattened (env : Env) (c : Cache) (t : NominalType)
    (hok : ((env.inheritance t).run c).1.guard.exceeded = false) :
    ((env.memberSites t).run c).1 = env.flattened c t := by
  have hsites : ((env.memberSites t).run c).1 = (env.visit c (63 + 1) t {}).found := rfl
  have hguard : (env.visit c (63 + 1) t {}).guard.exceeded = false := hok
  obtain ⟨guard, henter⟩ : ∃ guard,
      ({} : Inheritance).guard.enter t.definition = (.entered, guard) := ⟨_, rfl⟩
  obtain ⟨_, hvisiting, _⟩ := Guard.enter_eq_entered henter
  obtain ⟨_, hdepth, hmax⟩ := Guard.depth_of_enter_eq_entered henter
  rw [visit_of_entered henter] at hsites hguard
  dsimp only at hsites hguard
  rw [Guard.exceeded_leave?] at hguard
  have hroom : guard.depth + 63 = guard.maxDepth := by rw [hdepth, hmax]; rfl
  obtain ⟨visited, hinner⟩ := foldl_visits (fun _ _ _ => exists_visits)
    (fun p hp => (mem_providers hp).2) ((walkInvariant_start env c).enter hvisiting) hroom hguard
  have hwalk : env.walk c [] [t] = t :: visited := by
    rw [walk_of_not_mem List.not_mem_nil, List.append_nil, hinner.walk_eq_visited]
  rw [hsites, hinner.found_eq, ← keepNew_append, ← List.flatMap_cons, flattened, hwalk]
  exact keepNew_nil _

/-- A class that provides a trait along two ways and is provided by it. The definitions are read
one by one and put into a module. -/
def diamond : Program :=
  let (definitions, a) := [
      "(class (id C) x x (provides (nominal x (id A)) (nominal x (id B))))",
      "(trait (id A) x x (provides (nominal x (id B))) (members (fun (id f))))",
      "(trait (id B) x x (provides (nominal x (id C))) (members (be (id f)) (fun (id g))))"
    ].foldl
      (fun (definitions, a) source =>
        let (definition, a) := Dump.read a source
        (definitions ++ [definition.toOption], a))
      ([], Arena.empty)
  let (a, root) := a.add .sourceModule "" definitions
  .ofRoot a root.toOption

theorem memberSites_eq_flattened_diamond :
    ∃ t, NominalType.ofDefinition? diamond.arena (some 0) = some t ∧
      (((diamond.env {}).inheritance t).run .empty).1.guard.exceeded = false ∧
      (((diamond.env {}).memberSites t).run .empty).1.map MemberSite.name = ["f", "g"] ∧
      (((diamond.env {}).memberSites t).run .empty).1 = (diamond.env {}).flattened .empty t := by
  have hclass : ((NominalType.ofDefinition? diamond.arena (some 0)).any fun t =>
      !(((diamond.env {}).inheritance t).run .empty).1.guard.exceeded &&
        (((diamond.env {}).memberSites t).run .empty).1.map MemberSite.name == ["f", "g"]) =
      true := by
    decide +kernel
  obtain ⟨t, ht, hboth⟩ := (Option.any_eq_true _ _).mp hclass
  rw [Bool.and_eq_true, Bool.not_eq_true', beq_iff_eq] at hboth
  exact ⟨t, ht, hboth.1, hboth.2, memberSites_eq_flattened (diamond.env {}) .empty t hboth.1⟩

end Env

end PonyLens
