import PonyLens.Proofs.Cache.Answers
import PonyLens.Proofs.Inheritance.Flattening

/-!
# What the limit of visits costs

The collector forgets a type when it leaves it, so it visits a type once for each way over
provides-lists that leads there. The depth limit does no harm to as many types as it has levels: by
the time it is reached the collector is inside of them all. The limit of visits does, since few
types can have many ways between them. Up to that limit every member is found.
-/

namespace PonyLens

open MemberSite

namespace MemberSite

variable {found sites : List MemberSite}

theorem mem_of_mem_firstOfEachName {s : MemberSite} (h : s ∈ firstOfEachName sites) :
    s ∈ sites := by
  induction sites with
  | nil => exact h
  | cons x sites ih =>
    rw [firstOfEachName] at h
    split at h
    · exact List.mem_cons_of_mem x (ih h)
    · rcases List.mem_cons.mp h with rfl | h
      · exact List.mem_cons_self
      · exact List.mem_cons_of_mem x (ih (List.mem_filter.mp h).1)

theorem mem_or_mem_of_mem_keepNew {s : MemberSite} (h : s ∈ keepNew found sites) :
    s ∈ found ∨ s ∈ sites := by
  rw [keepNew_eq_append_filter] at h
  exact (List.mem_append.mp h).imp_right fun h =>
    mem_of_mem_firstOfEachName (List.mem_filter.mp h).1

theorem nodup_keepNew (h : (found.map name).Nodup) (sites : List MemberSite) :
    ((keepNew found sites).map name).Nodup := by
  induction sites generalizing found with
  | nil => exact h
  | cons s sites ih =>
    rw [keepNew]
    split
    · exact ih h
    · rename_i hnew
      refine ih ?_
      rw [List.map_append, List.nodup_append]
      refine ⟨h, by simp, ?_⟩
      rintro a ha b hb rfl
      obtain ⟨x, hx, hname⟩ := List.mem_map.mp ha
      exact hnew (.inr ⟨x, hx, hname.trans (by simpa using hb)⟩)

end MemberSite

namespace Env

inductive Reaches (env : Env) (c : Cache) (t : NominalType) : NominalType → Prop
  | refl : Reaches env c t t
  | step {u p : NominalType} (h : Reaches env c t u) (hp : p ∈ env.providers c u) :
    Reaches env c t p

/-- The visits of a type and of what it provides if no limit stops them, in order. There is one for
each way over provides-lists that comes to no definition twice, and to none of `visiting`, except
perhaps at its end. -/
def visits (env : Env) (c : Cache) (visiting : List NodeId) (t : NominalType) : List NominalType :=
  if t.definition ∈ visiting then [t]
  else t :: (env.providers c t).attach.flatMap fun p => env.visits c (t.definition :: visiting) p.1
termination_by (env.unvisited visiting [t]).card
decreasing_by
  rename_i hfree
  obtain ⟨p, hp⟩ := p
  have hsub : env.unvisited (t.definition :: visiting) [p] ⊆
      env.unvisited (t.definition :: visiting) (env.providers c t ++ []) :=
    unvisited_subset env _ (by simpa using hp)
  exact Finset.card_lt_card (hsub.trans_ssubset (unvisited_providers_ssubset hfree []))

variable {env : Env} {c : Cache} {t u p : NominalType} {visiting : List NodeId}
  {i j k : Inheritance} {levels : Nat} {tried tried' ts : List NominalType}

/-! ### What is reached -/

theorem Reaches.head (hp : p ∈ env.providers c t) (h : env.Reaches c p u) : env.Reaches c t u := by
  induction h with
  | refl => exact .step .refl hp
  | step _ hp ih => exact .step ih hp

theorem Reaches.isWritten (h : env.Reaches c t u) (ht : t.IsWritten env.arena) :
    u.IsWritten env.arena := by
  cases h with
  | refl => exact ht
  | step _ hp => exact (mem_providers hp).2

theorem visits_of_mem (h : t.definition ∈ visiting) : env.visits c visiting t = [t] := by
  rw [visits, if_pos h]

theorem visits_of_not_mem (h : t.definition ∉ visiting) :
    env.visits c visiting t =
      t :: (env.providers c t).flatMap (env.visits c (t.definition :: visiting)) := by
  rw [visits, if_neg h, List.flatMap_subtype fun _ _ => rfl, List.unattach_attach]

theorem mem_visits_self (env : Env) (c : Cache) (visiting : List NodeId) (t : NominalType) :
    t ∈ env.visits c visiting t := by
  rw [visits]
  split
  · exact List.mem_singleton_self t
  · exact List.mem_cons_self

theorem reaches_of_mem_visits (h : u ∈ env.visits c visiting t) : env.Reaches c t u := by
  induction visiting, t using visits.induct env c with
  | case1 visiting t hmem =>
    rw [visits_of_mem hmem, List.mem_singleton] at h
    exact h ▸ .refl
  | case2 visiting t hmem ih =>
    rw [visits_of_not_mem hmem, List.mem_cons, List.mem_flatMap] at h
    obtain rfl | ⟨p, hp, h⟩ := h
    · exact .refl
    · exact (ih ⟨p, hp⟩ h).head hp

/-- What a visited type provides is visited as well, unless it is left out because the collector is
inside of the type. -/
theorem exists_mem_visits (ht : t.IsWritten env.arena) (hu : u ∈ env.visits c visiting t)
    (hfree : u.definition ∉ visiting) (hp : p ∈ env.providers c u) :
    ∃ q ∈ env.visits c visiting t, q.definition = p.definition := by
  have hwritten := (reaches_of_mem_visits hu).isWritten ht
  induction visiting, t using visits.induct env c with
  | case1 visiting t hmem =>
    rw [visits_of_mem hmem, List.mem_singleton] at hu
    exact absurd (hu ▸ hmem) hfree
  | case2 visiting t hmem ih =>
    rw [visits_of_not_mem hmem] at hu ⊢
    by_cases hdef : u.definition = t.definition
    · -- This is `t`, or it is met again on the way and has the same providers as `t`.
      have hp' : p.definition ∈ (env.providers c t).map NominalType.definition :=
        map_definition_providers hwritten ht hdef c ▸ List.mem_map_of_mem hp
      obtain ⟨q, hq, heq⟩ := List.mem_map.mp hp'
      have hvisit := List.mem_flatMap_of_mem hq (mem_visits_self env c (t.definition :: visiting) q)
      exact ⟨q, List.mem_cons_of_mem t hvisit, heq⟩
    · have hu := (List.mem_cons.mp hu).resolve_left fun h => hdef (congrArg _ h)
      obtain ⟨r, hr, hu⟩ := List.mem_flatMap.mp hu
      obtain ⟨q, hq, heq⟩ := ih ⟨r, hr⟩ (mem_providers hr).2 hu (by simp [hdef, hfree])
      exact ⟨q, List.mem_cons_of_mem t (List.mem_flatMap_of_mem hr hq), heq⟩

theorem Reaches.exists_mem_visits (h : env.Reaches c t u) (ht : t.IsWritten env.arena) :
    ∃ q ∈ env.visits c [] t, q.definition = u.definition := by
  induction h with
  | refl => exact ⟨t, mem_visits_self env c [] t, rfl⟩
  | @step u p hu hp ih =>
    obtain ⟨v, hv, hdef⟩ := ih
    have hwritten := (reaches_of_mem_visits hv).isWritten ht
    have hp' : p.definition ∈ (env.providers c v).map NominalType.definition :=
      map_definition_providers (hu.isWritten ht) hwritten hdef.symm c ▸ List.mem_map_of_mem hp
    obtain ⟨r, hr, heq⟩ := List.mem_map.mp hp'
    obtain ⟨q, hq, hqdef⟩ := Env.exists_mem_visits ht hv List.not_mem_nil hr
    exact ⟨q, hq, hqdef.trans heq⟩

/-! ### What is visited -/

/-- The collector is inside of the types with these definitions, of which all members are taken. Its
limits are those of a collection, and `levels` levels are left. -/
structure Inside (env : Env) (visiting : List NodeId) (levels : Nat) (i : Inheritance) : Prop where
  visiting_eq : i.guard.visiting = visiting
  depth_eq : i.guard.depth = visiting.length
  maxDepth_eq : i.guard.maxDepth = visiting.length + levels
  maxVisits_eq : i.guard.maxVisits = Limits.providesVisits
  declared_taken : ∀ u : NominalType, u.definition ∈ visiting →
    ∀ s ∈ env.declared u, ¬ s.name.isEmpty → IsTaken i.found s.name

/-- The visits `tried` lead from `i` to `j`. Either the limit lets them all through and all their
members are offered, or the limit is used up. -/
structure Collects (env : Env) (visiting : List NodeId) (levels : Nat) (tried : List NominalType)
    (i j : Inheritance) : Prop where
  inside : env.Inside visiting levels j
  taken : ∀ name, IsTaken i.found name → IsTaken j.found name
  complete : i.guard.visits + tried.length ≤ Limits.providesVisits →
    j.guard.visits = i.guard.visits + tried.length ∧
      j.found = keepNew i.found (tried.flatMap env.declared)
  exhausted : Limits.providesVisits < i.guard.visits + tried.length →
    Limits.providesVisits ≤ j.guard.visits

namespace Collects

protected theorem nil (h : env.Inside visiting levels i) : env.Collects visiting levels [] i i where
  inside := h
  taken _ := id
  complete _ := ⟨rfl, rfl⟩
  exhausted h := h.le

protected theorem append (h : env.Collects visiting levels tried i j)
    (h' : env.Collects visiting levels tried' j k) :
    env.Collects visiting levels (tried ++ tried') i k where
  inside := h'.inside
  taken name htaken := h'.taken name (h.taken name htaken)
  complete hlimit := by
    rw [List.length_append] at hlimit ⊢
    obtain ⟨hvisits, hfound⟩ := h.complete (by omega)
    obtain ⟨hvisits', hfound'⟩ := h'.complete (by omega)
    refine ⟨by omega, ?_⟩
    rw [hfound', hfound, List.flatMap_append, keepNew_append]
  exhausted hlimit := by
    rw [List.length_append] at hlimit
    have hmid : i.guard.visits + tried.length = j.guard.visits ∨
        Limits.providesVisits ≤ j.guard.visits := by
      by_cases hfirst : i.guard.visits + tried.length ≤ Limits.providesVisits
      · exact .inl (h.complete hfirst).1.symm
      · exact .inr (h.exhausted (Nat.not_le.mp hfirst))
    by_cases hrest : j.guard.visits + tried'.length ≤ Limits.providesVisits
    · have hvisits := (h'.complete hrest).1
      omega
    · exact h'.exhausted (Nat.not_le.mp hrest)

end Collects

theorem foldl_collects
    (hvisit : ∀ t ∈ ts, ∀ i, env.Inside visiting levels i →
      env.Collects visiting levels (env.visits c visiting t) i (env.visit c levels t i))
    (hinside : env.Inside visiting levels i) :
    env.Collects visiting levels (ts.flatMap (env.visits c visiting)) i
      (ts.foldl (fun i p => env.visit c levels p i) i) := by
  induction ts generalizing i with
  | nil => exact .nil hinside
  | cons t ts ih =>
    have hfirst := hvisit t List.mem_cons_self i hinside
    exact hfirst.append (ih (fun t ht => hvisit t (List.mem_cons_of_mem _ ht)) hfirst.inside)

/-- A type that the collector is inside of has nothing to offer. -/
theorem Inside.keepNew_declared (h : env.Inside visiting levels i) (ht : t.definition ∈ visiting) :
    keepNew i.found (env.declared t) = i.found :=
  keepNew_of_taken (h.declared_taken t ht)

/-- A collector that is inside of all that there is comes to nothing new. -/
theorem mem_of_card_le {ds : Finset NodeId} {d : NodeId} (hnodup : visiting.Nodup)
    (hsub : ∀ d ∈ visiting, d ∈ ds) (hcard : ds.card ≤ visiting.length) (hd : d ∈ ds) :
    d ∈ visiting := by
  have heq : visiting.toFinset = ds := by
    refine Finset.eq_of_subset_of_card_le (fun d hd => hsub d (List.mem_toFinset.mp hd)) ?_
    rwa [List.toFinset_card_of_nodup hnodup]
  rw [← heq] at hd
  exact List.mem_toFinset.mp hd

/-- Once the visits are used up nothing is found any more. -/
theorem visit_of_exhausted (env : Env) (c : Cache) (levels : Nat) (t : NominalType)
    (hlimit : i.guard.maxVisits < Word.max) (h : i.guard.maxVisits ≤ i.guard.visits) :
    let j := env.visit c levels t i
    j.found = i.found ∧ j.guard.maxVisits = i.guard.maxVisits ∧
      i.guard.maxVisits ≤ j.guard.visits := by
  rcases Guard.enter_cases i.guard t.definition with ⟨hvisits, henter⟩ | ⟨hvisits, _⟩
  · rw [visit_of_refused henter (by decide)]
    exact ⟨rfl, rfl, hvisits.le⟩
  · dsimp only at hvisits
    omega

theorem foldl_visit_of_exhausted (hlimit : i.guard.maxVisits < Word.max)
    (h : i.guard.maxVisits ≤ i.guard.visits) (ts : List NominalType) :
    (ts.foldl (fun i p => env.visit c levels p i) i).found = i.found := by
  induction ts generalizing i with
  | nil => rfl
  | cons t ts ih =>
    obtain ⟨hfound, hmax, hvisits⟩ := visit_of_exhausted env c levels t hlimit h
    rw [List.foldl_cons, ih (hmax ▸ hlimit) (hmax ▸ hvisits), hfound]

theorem collects_of_refused {answer : Guard.Answer} {guard : Guard NodeId}
    (hinside : env.Inside visiting levels i)
    (henter : i.guard.enter t.definition = (answer, guard)) (hanswer : answer ≠ .entered)
    (hmem : i.guard.visits + 1 ≤ Limits.providesVisits → t.definition ∈ visiting) :
    env.Collects visiting levels (env.visits c visiting t) i (env.visit c levels t i) := by
  obtain ⟨exceeded, rfl⟩ := Guard.eq_of_enter_refused henter hanswer
  rw [visit_of_refused henter hanswer]
  have hword : Limits.providesVisits ≤ Word.max := by decide
  have hpos := List.length_pos_of_mem (mem_visits_self env c visiting t)
  have hone (hlimit : i.guard.visits + 1 ≤ Limits.providesVisits) :
      env.visits c visiting t = [t] := visits_of_mem (hmem hlimit)
  refine {
    inside := ⟨hinside.visiting_eq, hinside.depth_eq, hinside.maxDepth_eq, hinside.maxVisits_eq,
      hinside.declared_taken⟩
    taken := fun _ => id
    complete := fun hlimit => ⟨?_, ?_⟩
    exhausted := fun hlimit => ?_ }
  · rw [hone (by omega)] at hlimit ⊢
    exact Nat.min_eq_left (hlimit.trans hword)
  · have hlimit' : i.guard.visits + 1 ≤ Limits.providesVisits := by omega
    rw [hone hlimit', List.flatMap_singleton, hinside.keepNew_declared (hmem hlimit')]
  · have hlimit' : ¬ i.guard.visits + 1 ≤ Limits.providesVisits := by
      intro h
      rw [hone h] at hlimit
      exact absurd h (Nat.not_le.mpr hlimit)
    dsimp only
    omega

section Entered

variable {guard : Guard NodeId} (hinside : env.Inside visiting (levels + 1) i)
  (hguard : guard = { i.guard with
    visits := i.guard.visits + 1
    visiting := t.definition :: i.guard.visiting
    depth := i.guard.depth + 1 })
include hinside hguard

theorem Inside.enter : env.Inside (t.definition :: visiting) levels
    { guard, found := keepNew i.found (env.declared t) } where
  visiting_eq := by rw [hguard, hinside.visiting_eq]
  depth_eq := by rw [hguard, hinside.depth_eq, List.length_cons]
  maxDepth_eq := by
    rw [hguard, hinside.maxDepth_eq, List.length_cons]
    omega
  maxVisits_eq := by rw [hguard, hinside.maxVisits_eq]
  declared_taken _ hu _ hs hname := isTaken_keepNew_declared hinside.declared_taken t hu hs hname

theorem collects_of_entered (hfree : t.definition ∉ visiting)
    (hinner : env.Collects (t.definition :: visiting) levels
      ((env.providers c t).flatMap (env.visits c (t.definition :: visiting)))
      { guard, found := keepNew i.found (env.declared t) } j) :
    env.Collects visiting (levels + 1) (env.visits c visiting t) i
      { j with guard := (j.guard.leave? t.definition).getD j.guard } := by
  have htaken (name : String) (h : IsTaken i.found name) : IsTaken j.found name :=
    hinner.taken name (h.keepNew _)
  have hvisits : guard.visits = i.guard.visits + 1 := by rw [hguard]
  rw [Guard.leave?_of_cons hinner.inside.visiting_eq, visits_of_not_mem hfree]
  exact {
    inside := {
      visiting_eq := rfl
      depth_eq := by simp [hinner.inside.depth_eq]
      maxDepth_eq := by
        have hmax := hinner.inside.maxDepth_eq
        rw [List.length_cons] at hmax
        dsimp only [Option.getD_some]
        omega
      maxVisits_eq := hinner.inside.maxVisits_eq
      declared_taken := fun u hu s hs hname => htaken _ (hinside.declared_taken u hu s hs hname) }
    taken := htaken
    complete := fun hlimit => by
      rw [List.length_cons] at hlimit ⊢
      obtain ⟨hcount, hfound⟩ := hinner.complete (by dsimp only; omega)
      refine ⟨?_, ?_⟩
      · dsimp only at hcount ⊢
        rw [Option.getD_some]
        dsimp only
        omega
      · rw [List.flatMap_cons, keepNew_append]
        exact hfound
    exhausted := fun hlimit => by
      rw [List.length_cons] at hlimit
      exact hinner.exhausted (by dsimp only; omega) }

end Entered

/-- A visit of a type makes the visits that there are, as far as the limit of visits goes. It never
comes to the depth limit with a type that it is not inside of already. -/
theorem collects_visit {ds : Finset NodeId} (hinside : env.Inside visiting levels i)
    (hnodup : visiting.Nodup) (hsub : ∀ d ∈ visiting, d ∈ ds)
    (hcard : ds.card ≤ visiting.length + levels)
    (hreach : ∀ u, env.Reaches c t u → u.definition ∈ ds) :
    env.Collects visiting levels (env.visits c visiting t) i (env.visit c levels t i) := by
  have ht := hreach t .refl
  induction levels generalizing t i visiting with
  | zero =>
    have hmem := mem_of_card_le hnodup hsub hcard ht
    rcases henter : i.guard.enter t.definition with ⟨answer, guard⟩
    refine collects_of_refused hinside henter ?_ fun _ => hmem
    have hlimit : (i.guard.enter t.definition).1.isLimit = true :=
      Guard.isLimit_enter (by rw [hinside.maxDepth_eq, hinside.depth_eq]; rfl) _
    rintro rfl
    rw [henter] at hlimit
    cases hlimit
  | succ levels ih =>
    have hvisiting := hinside.visiting_eq
    have hlimit := hinside.maxVisits_eq
    rcases Guard.enter_cases i.guard t.definition with
      ⟨hvisits, henter⟩ | ⟨hvisits, ⟨hdepth, henter⟩ | ⟨_, ⟨hmem, henter⟩ | ⟨hfree, henter⟩⟩⟩
    · refine collects_of_refused hinside henter (by decide) fun hroom => ?_
      rw [hlimit] at hvisits
      dsimp only at hvisits
      omega
    · rw [hinside.maxDepth_eq, hinside.depth_eq] at hdepth
      omega
    · exact collects_of_refused hinside henter (by decide) fun _ => hvisiting ▸ hmem
    · rw [hvisiting] at hfree
      have hword : Limits.providesVisits < Word.max := by decide
      have hcount : min (i.guard.visits + 1) Word.max = i.guard.visits + 1 := by
        rw [hlimit] at hvisits
        dsimp only at hvisits
        omega
      rw [hcount] at henter
      rw [visit_of_entered henter]
      refine collects_of_entered hinside rfl hfree (foldl_collects (fun p hp i hinside => ?_)
        (hinside.enter rfl))
      have hreach' (u : NominalType) (hu : env.Reaches c p u) : u.definition ∈ ds :=
        hreach u (hu.head hp)
      refine ih hinside (List.nodup_cons.mpr ⟨hfree, hnodup⟩) ?_ ?_ hreach' (hreach' p .refl)
      · rintro d hd
        rcases List.mem_cons.mp hd with rfl | hd
        · exact ht
        · exact hsub d hd
      · rw [List.length_cons]
        omega

/-! ### What is collected -/

theorem foldl_found_induction {P : List MemberSite → Prop}
    (hvisit : ∀ t ∈ ts, ∀ i : Inheritance, P i.found → P (env.visit c levels t i).found)
    (h : P i.found) : P (ts.foldl (fun i p => env.visit c levels p i) i).found := by
  induction ts generalizing i with
  | nil => exact h
  | cons t ts ih =>
    exact ih (fun p hp => hvisit p (List.mem_cons_of_mem t hp)) (hvisit t List.mem_cons_self i h)

/-- What holds of the members found before a visit holds of those found after it, if it stays when a
type that is reached offers its members. -/
theorem found_visit_induction {P : List MemberSite → Prop}
    (hP : ∀ u, env.Reaches c t u → ∀ found, P found → P (keepNew found (env.declared u)))
    (h : P i.found) : P (env.visit c levels t i).found := by
  induction levels generalizing t i with
  | zero => exact h
  | succ levels ih =>
    rcases henter : i.guard.enter t.definition with ⟨answer, guard⟩
    by_cases hanswer : answer = .entered
    · subst hanswer
      rw [visit_of_entered henter]
      exact foldl_found_induction (fun p hp i => ih fun u hu => hP u (hu.head hp)) (hP t .refl _ h)
    · rw [visit_of_refused henter hanswer]
      exact h

theorem nodup_names_visit (h : (i.found.map MemberSite.name).Nodup) :
    ((env.visit c levels t i).found.map MemberSite.name).Nodup :=
  found_visit_induction (P := fun found => (found.map MemberSite.name).Nodup)
    (fun u _ _ hfound => nodup_keepNew hfound (env.declared u)) h

theorem mem_found_visit {s : MemberSite} (h : s ∈ (env.visit c levels t i).found) :
    s ∈ i.found ∨ ∃ u, env.Reaches c t u ∧ s ∈ env.declared u := by
  refine found_visit_induction (P := fun found => s ∈ found → s ∈ i.found ∨
    ∃ u, env.Reaches c t u ∧ s ∈ env.declared u) (fun u hu found hfound hs => ?_) Or.inl h
  rcases mem_or_mem_of_mem_keepNew hs with hs | hs
  · exact hfound hs
  · exact .inr ⟨u, hu, hs⟩

theorem inside_start (env : Env) : env.Inside [] Limits.providesDepth {} where
  visiting_eq := rfl
  depth_eq := rfl
  maxDepth_eq := rfl
  maxVisits_eq := rfl
  declared_taken _ h := absurd h List.not_mem_nil

theorem answer_memberSites (env : Env) (c : Cache) (t : NominalType) :
    c.answer (env.memberSites t) = (env.visit c Limits.providesDepth t {}).found := rfl

/-- A type that reaches at most as many definitions as the depth limit says has no name twice among
its members, and if its visits are within their limit, every name that a type which it reaches
declares is there once, whatever the ways between them. -/
theorem names_memberSites (env : Env) (c : Cache) (t : NominalType) :
    let names := (c.answer (env.memberSites t)).map MemberSite.name
    names.Nodup ∧
    (t.IsWritten env.arena →
      (∃ ds : Finset NodeId, ds.card ≤ Limits.providesDepth ∧
        ∀ u, env.Reaches c t u → u.definition ∈ ds) →
      (env.visits c [] t).length ≤ Limits.providesVisits →
      ∀ u, env.Reaches c t u → ∀ s ∈ env.declared u, ¬ s.name.isEmpty →
        names.count s.name = 1) := by
  intro names
  have hnodup : names.Nodup := by
    dsimp only [names]
    rw [answer_memberSites]
    exact nodup_names_visit List.nodup_nil
  refine ⟨hnodup, ?_⟩
  rintro ht ⟨ds, hcard, hreach⟩ hvisits u hu s hs hname
  have hcollects := collects_visit (inside_start env) List.nodup_nil
    (fun _ h => absurd h List.not_mem_nil) (by simpa using hcard) hreach
  obtain ⟨_, hfound⟩ := hcollects.complete (by simpa using hvisits)
  -- The definition of `u` is visited, perhaps with other arguments, and its names are offered.
  obtain ⟨v, hv, hdef⟩ := hu.exists_mem_visits ht
  have hdeclared : s.name ∈ (env.declared v).map MemberSite.name :=
    map_name_declared hdef ▸ List.mem_map_of_mem hs
  obtain ⟨s', hs', heq⟩ := List.mem_map.mp hdeclared
  have htaken : IsTaken (c.answer (env.memberSites t)) s'.name := by
    rw [answer_memberSites, hfound]
    exact isTaken_keepNew (List.mem_flatMap_of_mem hv hs') (heq ▸ hname) []
  obtain ⟨x, hx, hxname⟩ := htaken
  exact List.count_eq_one_of_mem hnodup (heq ▸ hxname ▸ List.mem_map_of_mem hx)

/-- The first visit is one of the type itself; then its providers are visited. -/
theorem exists_inside_memberSites (env : Env) (c : Cache) (t : NominalType) :
    ∃ i, env.Inside [t.definition] 63 i ∧ i.guard.visits = 1 ∧
      i.found = keepNew [] (env.declared t) ∧ c.answer (env.memberSites t) =
        ((env.providers c t).foldl (fun i p => env.visit c 63 p i) i).found := by
  obtain ⟨guard, henter, hguard⟩ : ∃ guard,
      ({} : Inheritance).guard.enter t.definition = (.entered, guard) ∧
      guard =
        { ({} : Inheritance).guard with visits := 1, visiting := [t.definition], depth := 1 } :=
    ⟨_, rfl, rfl⟩
  have hsites : c.answer (env.memberSites t) = (env.visit c (63 + 1) t {}).found := rfl
  rw [visit_of_entered henter] at hsites
  exact ⟨_, (inside_start env).enter hguard, by rw [hguard], rfl, hsites⟩

/-- Where the visits are used up by the first providers of a type, the members of the others are
lost. -/
theorem declared_of_exhausted {ds : Finset NodeId} {first rest : List NominalType}
    (hcard : ds.card ≤ Limits.providesDepth) (hreach : ∀ u, env.Reaches c t u → u.definition ∈ ds)
    (hproviders : env.providers c t = first ++ rest)
    (hlimit : Limits.providesVisits < 1 + (first.flatMap (env.visits c [t.definition])).length)
    {s : MemberSite} (hs : s ∈ c.answer (env.memberSites t)) :
    s ∈ env.declared t ∨ ∃ p ∈ first, ∃ u, env.Reaches c p u ∧ s ∈ env.declared u := by
  obtain ⟨i, hinside, hvisits, hfound, hsites⟩ := exists_inside_memberSites env c t
  have hcollects : env.Collects [t.definition] 63 (first.flatMap (env.visits c [t.definition])) i
      (first.foldl (fun i p => env.visit c 63 p i) i) := by
    refine foldl_collects (fun p hp i hinside => ?_) hinside
    have hreach' (u : NominalType) (hu : env.Reaches c p u) : u.definition ∈ ds :=
      hreach u (hu.head (hproviders ▸ List.mem_append_left rest hp))
    exact collects_visit hinside (List.nodup_singleton _)
      (fun d hd => List.mem_singleton.mp hd ▸ hreach t .refl) hcard hreach'
  have hexhausted := hcollects.exhausted (hvisits ▸ hlimit)
  have hmax := hcollects.inside.maxVisits_eq
  rw [hsites, hproviders, List.foldl_append,
    foldl_visit_of_exhausted (by rw [hmax]; decide) (by rwa [hmax])] at hs
  have hsource := foldl_found_induction (P := fun found => s ∈ found → s ∈ i.found ∨
    ∃ p ∈ first, ∃ u, env.Reaches c p u ∧ s ∈ env.declared u) (fun p hp j hj hs => ?_) Or.inl hs
  · rw [hfound] at hsource
    exact hsource.imp_left fun h => (mem_or_mem_of_mem_keepNew h).resolve_left List.not_mem_nil
  · rcases mem_found_visit hs with hs | ⟨u, hu, hs⟩
    · exact hj hs
    · exact .inr ⟨p, hp, u, hu, hs⟩

/-! ### Few types with many ways -/

section Ladder

def plainNode (kind : Kind) (parent : NodeId) (children : List NodeId) (name : Nat) : Node :=
  ⟨kind, ⟨name⟩, .unknown, some parent, children⟩

def providingNodes (kind : Kind) (n name first second : Nat) : List Node := [
  plainNode kind 0 [n + 1, n + 2, n + 3, n + 4] 0, plainNode .ident n [] name,
  plainNode .absent n [] 0, plainNode .absent n [] 0, plainNode .provides n [n + 5, n + 8] 0,
  plainNode .nominal (n + 4) [n + 6, n + 7] 0, plainNode .absent (n + 5) [] 0,
  plainNode .ident (n + 5) [] first,
  plainNode .nominal (n + 4) [n + 9, n + 10] 0, plainNode .absent (n + 8) [] 0,
  plainNode .ident (n + 8) [] second]

def methodNodes (n name method : Nat) : List Node := [
  plainNode .traitDef 0 [n + 1, n + 2, n + 3, n + 4, n + 5] 0, plainNode .ident n [] name,
  plainNode .absent n [] 0, plainNode .absent n [] 0, plainNode .absent n [] 0,
  plainNode .members n [n + 6] 0, plainNode .funDef (n + 5) [n + 7] 0,
  plainNode .ident (n + 6) [] method]

def rungNode (below : Nat) : Nat := 20 + 11 * (13 - below)

/-- A class that provides the traits `A` and `Z`. Each of the traits `A` to `M` names the next one
twice in its provides-list. `N` has the method `n`, and `Z` has the method `z`. -/
def ladder : Program :=
  let a : Arena := {
    names := ⟨#["", "Main", "Z", "z", "n", "A", "B", "C", "D", "E", "F", "G", "H", "I", "J", "K",
      "L", "M", "N"]⟩
    nodes := (⟨.sourceModule, ⟨0⟩, .unknown, none, 1 :: 12 :: (List.range 14).map rungNode⟩ ::
      providingNodes .classDef 1 1 5 2 ++ methodNodes 12 2 3 ++
      (List.range 13).flatMap (fun i =>
        providingNodes .traitDef (20 + 11 * i) (i + 5) (i + 6) (i + 6)) ++
      methodNodes 163 18 4).toArray }
  .ofRoot a (some 0)

def ladderType (kind : Kind) (definition : NodeId) (provides : List NodeId) : NominalType where
  head := {
    definition, kind, provides
    name := ladder.arena.text (some (definition + 1))
    docstring := ""
    capability := .unknown
    typeParams := [] }

def ladderClass : NominalType := ladderType .classDef 1 [6, 9]

def ladderLast : NominalType := ladderType .traitDef 12 []

def rung (below : Nat) : NominalType :=
  let n := rungNode below
  ladderType .traitDef n (if below = 0 then [] else [n + 5, n + 8])

theorem ladder_types :
    NominalType.ofDefinition? ladder.arena (some 1) = some ladderClass ∧
    ((ladder.env {}).providers .empty ladderClass = [rung 13, ladderLast] ∧
      (∀ m < 13, (ladder.env {}).providers .empty (rung (m + 1)) = [rung m, rung m]) ∧
      (ladder.env {}).providers .empty (rung 0) = [] ∧
      (ladder.env {}).providers .empty ladderLast = []) ∧
    (ladder.env {}).declared ladderClass = [] ∧
    (∀ m < 13, (ladder.env {}).declared (rung (m + 1)) = []) ∧
    (ladder.env {}).declared (rung 0) = [⟨"n", 169, rung 0⟩] ∧
    (ladder.env {}).declared ladderLast = [⟨"z", 18, ladderLast⟩] := by
  decide +kernel

theorem length_visits_rung {m : Nat} (hm : m < 14) (visiting : List NodeId)
    (hvisiting : ∀ d ∈ visiting, d < rungNode m) :
    ((ladder.env {}).visits .empty visiting (rung m)).length + 1 = 1 <<< (m + 1) := by
  obtain ⟨_, ⟨_, hnext, hlast, _⟩, _⟩ := ladder_types
  induction m generalizing visiting with
  | zero =>
    rw [visits_of_not_mem fun hmem => (hvisiting _ hmem).false, hlast]
    rfl
  | succ m ih =>
    have hlower : rungNode (m + 1) < rungNode m := by
      unfold rungNode
      omega
    have hbelow := ih (by omega) (rungNode (m + 1) :: visiting) fun d hd => by
      rcases List.mem_cons.mp hd with rfl | hd
      · exact hlower
      · exact (hvisiting d hd).trans hlower
    have hdefinition : (rung (m + 1)).definition = rungNode (m + 1) := rfl
    rw [visits_of_not_mem fun hmem => (hvisiting _ hmem).false, hnext m (by omega),
      List.length_cons, List.flatMap_cons, List.flatMap_singleton, List.length_append,
      hdefinition, Nat.shiftLeft_succ]
    omega

theorem exists_rung_of_reaches {m : Nat} (hm : m < 14) {u : NominalType}
    (h : (ladder.env {}).Reaches .empty (rung m) u) : ∃ k < 14, u = rung k := by
  obtain ⟨_, ⟨_, hnext, hrung, _⟩, _⟩ := ladder_types
  induction h with
  | refl => exact ⟨m, hm, rfl⟩
  | step _ hp ih =>
    obtain ⟨k, hk, rfl⟩ := ih
    cases k with
    | zero =>
      rw [hrung] at hp
      cases hp
    | succ k =>
      rw [hnext k (by omega)] at hp
      exact ⟨k, by omega, by simpa using hp⟩

theorem reaches_ladderClass {u : NominalType} (h : (ladder.env {}).Reaches .empty ladderClass u) :
    u = ladderClass ∨ u = ladderLast ∨ ∃ k < 14, u = rung k := by
  obtain ⟨_, ⟨hclass, _, _, hlast⟩, _⟩ := ladder_types
  induction h with
  | refl => exact .inl rfl
  | step _ hp ih =>
    rcases ih with rfl | rfl | ⟨k, hk, rfl⟩
    · rw [hclass] at hp
      rcases List.mem_pair.mp hp with rfl | rfl
      · exact .inr (.inr ⟨13, by decide, rfl⟩)
      · exact .inr (.inl rfl)
    · rw [hlast] at hp
      cases hp
    · exact .inr (.inr (exists_rung_of_reaches hk (.step .refl hp)))

def ladderDefinitions : Finset NodeId :=
  insert 1 (insert 12 ((Finset.range 14).image rungNode))

theorem definition_rung_mem {m : Nat} (hm : m < 14) : (rung m).definition ∈ ladderDefinitions :=
  Finset.mem_insert_of_mem (Finset.mem_insert_of_mem
    (Finset.mem_image_of_mem rungNode (Finset.mem_range.mpr hm)))

theorem definition_mem_ladderDefinitions {u : NominalType}
    (h : (ladder.env {}).Reaches .empty ladderClass u) : u.definition ∈ ladderDefinitions := by
  rcases reaches_ladderClass h with rfl | rfl | ⟨m, hm, rfl⟩
  · exact Finset.mem_insert_self _ _
  · exact Finset.mem_insert_of_mem (Finset.mem_insert_self _ _)
  · exact definition_rung_mem hm

theorem names_memberSites_rung :
    (rung 2).IsWritten ladder.arena ∧
    (∃ ds : Finset NodeId, ds.card ≤ Limits.providesDepth ∧
      ∀ u, (ladder.env {}).Reaches .empty (rung 2) u → u.definition ∈ ds) ∧
    ((ladder.env {}).visits .empty [] (rung 2)).length ≤ Limits.providesVisits ∧
    (ladder.env {}).Reaches .empty (rung 2) (rung 0) ∧
    ⟨"n", 169, rung 0⟩ ∈ (ladder.env {}).declared (rung 0) ∧
    ((Cache.empty.answer ((ladder.env {}).memberSites (rung 2))).map MemberSite.name).count "n" =
      1 := by
  obtain ⟨_, ⟨_, hnext, _⟩, _, _, hmember, _⟩ := ladder_types
  have hprovides {m : Nat} (hm : m < 13) :
      rung m ∈ (ladder.env {}).providers .empty (rung (m + 1)) := by
    simp [hnext m hm]
  have hwritten := (mem_providers (hprovides (m := 2) (by decide))).2
  have hreach : (ladder.env {}).Reaches .empty (rung 2) (rung 0) :=
    .step (.step .refl (hprovides (m := 1) (by decide))) (hprovides (by decide))
  have hbounded : ∃ ds : Finset NodeId, ds.card ≤ Limits.providesDepth ∧
      ∀ u, (ladder.env {}).Reaches .empty (rung 2) u → u.definition ∈ ds := by
    refine ⟨ladderDefinitions, by decide, fun u hu => ?_⟩
    obtain ⟨k, hk, rfl⟩ := exists_rung_of_reaches (by decide) hu
    exact definition_rung_mem hk
  have hlength := length_visits_rung (m := 2) (by decide) [] (by simp)
  have hvisits : ((ladder.env {}).visits .empty [] (rung 2)).length ≤ Limits.providesVisits :=
    (by omega : _ ≤ 7).trans (by decide)
  have hmem : ⟨"n", 169, rung 0⟩ ∈ (ladder.env {}).declared (rung 0) := by simp [hmember]
  have hname : ¬ "n".isEmpty := by decide +kernel
  obtain ⟨_, hnames⟩ := names_memberSites (ladder.env {}) .empty (rung 2)
  have honce := hnames hwritten hbounded hvisits (rung 0) hreach _ hmem hname
  refine ⟨hwritten, hbounded, hvisits, hreach, hmem, ?_⟩
  exact honce

/-- A class that reaches sixteen definitions and lacks a member that one of them declares: the
visits are used up before the collector comes to it. -/
theorem names_memberSites_ladderClass :
    ladderClass.IsWritten ladder.arena ∧
    (∃ ds : Finset NodeId, ds.card ≤ Limits.providesDepth ∧
      ∀ u, (ladder.env {}).Reaches .empty ladderClass u → u.definition ∈ ds) ∧
    (ladder.env {}).Reaches .empty ladderClass ladderLast ∧
    ⟨"z", 18, ladderLast⟩ ∈ (ladder.env {}).declared ladderLast ∧
    ((Cache.empty.answer ((ladder.env {}).memberSites ladderClass)).map MemberSite.name).count "z" =
      0 := by
  obtain ⟨hdefined, ⟨hclass, _⟩, hnone, hrungs, hrung, hmember⟩ := ladder_types
  have hcard : ladderDefinitions.card ≤ Limits.providesDepth := by decide
  refine ⟨(NominalType.ofDefinition?_eq_some hdefined).2.2,
    ⟨ladderDefinitions, hcard, fun u => definition_mem_ladderDefinitions⟩,
    .step .refl (by simp [hclass]), by simp [hmember], ?_⟩
  have hlength := length_visits_rung (m := 13) (by decide) [1] (by decide)
  have hlimit : Limits.providesVisits <
      1 + ([rung 13].flatMap ((ladder.env {}).visits .empty [ladderClass.definition])).length := by
    have hvisits : Limits.providesVisits < 1 <<< (13 + 1) := by decide
    have hdefinition : ladderClass.definition = 1 := rfl
    rw [List.flatMap_singleton, hdefinition]
    generalize ((ladder.env {}).visits .empty [1] (rung 13)).length = length at hlength ⊢
    omega
  refine List.count_eq_zero.mpr fun hz => ?_
  obtain ⟨s, hs, hname⟩ := List.mem_map.mp hz
  rcases declared_of_exhausted hcard (fun u => definition_mem_ladderDefinitions)
    (hclass : _ = [rung 13] ++ [ladderLast]) hlimit hs with hs | ⟨p, hp, u, hu, hs⟩
  · rw [hnone] at hs
    cases hs
  · rw [List.mem_singleton.mp hp] at hu
    obtain ⟨k, hk, rfl⟩ := exists_rung_of_reaches (by decide) hu
    cases k with
    | zero =>
      rw [hrung, List.mem_singleton] at hs
      rw [hs] at hname
      exact absurd hname (by decide)
    | succ k =>
      rw [hrungs k (by omega)] at hs
      cases hs

end Ladder

end Env

end PonyLens
