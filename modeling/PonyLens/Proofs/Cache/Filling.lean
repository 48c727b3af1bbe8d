import PonyLens.Types.Rule
import PonyLens.Types.Definitions

/-!
# Filling a cache

A cache is only ever filled: a free node gets bound to the definition that a direct look-up from it
gives, and a bound node stays as it is. `Fills` says this of two caches, and `Transparent` of a
computation: what it answers does not depend on how far the cache has been filled. Both notions
leave the first cache open, so that bindings made by hand are covered too.
-/

namespace PonyLens

namespace Cache

@[simp] theorem find?_none (c : Cache) : c.find? none = none := rfl

@[simp] theorem find?_empty (l : Link) : Cache.empty.find? l = none := by
  cases l <;> rfl

theorem bind_of_find?_eq_some {c : Cache} {l bound : Link} (h : c.find? l = some bound) (a : Arena)
    (target : Link) : c.bind a l target = (bound, c) := by
  simp [bind, h]

theorem bind_of_find?_eq_none {c : Cache} {n : NodeId} {a : Arena} {node : Node}
    (h : c.find? (some n) = none) (hn : a.get? (some n) = some node) (target : Link) :
    c.bind a (some n) target = (target, ⟨(n, target) :: c.bindings⟩) := by
  simp [bind, h, hn]

theorem find?_cons (c : Cache) (n m : NodeId) (target : Link) :
    Cache.find? ⟨(n, target) :: c.bindings⟩ (some m) =
      if m = n then some target else c.find? (some m) := by
  by_cases h : m = n
  · simp [find?, h]
  · simp [find?, List.lookup_cons, h, beq_eq_false_iff_ne.mpr h]

end Cache

namespace Env

/-- The definition that a node leads to when nothing is cached: that of the builtin type of a
literal, or the one that a nominal or a reference to a type names. -/
def uncached? (env : Env) (n : NodeId) : Option NodeId :=
  match (env.arena.kind? (some n)).map Kind.typeRule with
  | some (.builtin name) => (env.builtinDefinition (some n) name).toOption
  | some .named => (env.namedDefinition (some n)).toOption
  | _ => none

/-- The cache `c` holds what `c₀` holds, and else only what direct look-ups give. -/
def Fills (env : Env) (c₀ c : Cache) : Prop :=
  ∀ n, c.find? (some n) = c₀.find? (some n) ∨
    c₀.find? (some n) = none ∧
      ∃ d, env.uncached? n = some d ∧ c.find? (some n) = some (some d)

theorem Fills.refl (env : Env) (c : Cache) : env.Fills c c := fun _ => .inl rfl

theorem Fills.trans {env : Env} {c₀ c₁ c₂ : Cache} (h : env.Fills c₀ c₁) (h' : env.Fills c₁ c₂) :
    env.Fills c₀ c₂ := by
  intro n
  rcases h' n with heq | ⟨hfree, d, hd, hbound⟩
  · rw [heq]
    exact h n
  · rcases h n with heq | ⟨_, _, _, hbound'⟩
    · exact .inr ⟨heq ▸ hfree, d, hd, hbound⟩
    · rw [hbound'] at hfree
      cases hfree

theorem Fills.find?_eq {env : Env} {c₀ c : Cache} (h : env.Fills c₀ c) {n : NodeId} {bound : Link}
    (hn : c₀.find? (some n) = some bound) : c.find? (some n) = some bound := by
  rcases h n with heq | ⟨hfree, _⟩
  · rw [heq, hn]
  · rw [hfree] at hn
    cases hn

/-- A node from which no look-up is made keeps its slot as it was. -/
theorem Fills.find?_of_uncached_eq_none {env : Env} {c₀ c : Cache} (h : env.Fills c₀ c) {n : NodeId}
    (hn : env.uncached? n = none) : c.find? (some n) = c₀.find? (some n) := by
  rcases h n with heq | ⟨_, d, hd, _⟩
  · exact heq
  · rw [hn] at hd
    cases hd

theorem exists_node_of_uncached {env : Env} {n d : NodeId} (h : env.uncached? n = some d) :
    ∃ node, env.arena.get? (some n) = some node := by
  cases hn : env.arena.get? (some n) with
  | none => simp [uncached?, Arena.kind?, hn] at h
  | some node => exact ⟨node, rfl⟩

theorem fills_bind {env : Env} {n d : NodeId} (h : env.uncached? n = some d) (c : Cache) :
    env.Fills c (c.bind env.arena (some n) (some d)).2 := by
  obtain ⟨node, hnode⟩ := exists_node_of_uncached h
  cases hc : c.find? (some n) with
  | some bound =>
    rw [Cache.bind_of_find?_eq_some hc]
    exact .refl env c
  | none =>
    rw [Cache.bind_of_find?_eq_none hc hnode]
    intro m
    rw [Cache.find?_cons]
    by_cases hm : m = n
    · subst hm
      exact .inr ⟨hc, d, h, by simp⟩
    · exact .inl (by simp [hm])

/-! ### Computations -/

/-- The computation answers the same however far the cache has been filled, and fills it further. -/
def Transparent (env : Env) {α : Type} (m : CacheM α) : Prop :=
  ∀ c₀ c, env.Fills c₀ c → (m.run c).1 = (m.run c₀).1 ∧ env.Fills c₀ (m.run c).2

namespace Transparent

variable {env : Env} {α β : Type}

theorem fills {m : CacheM α} (h : env.Transparent m) (c : Cache) : env.Fills c (m.run c).2 :=
  (h c c (.refl env c)).2

protected theorem pure (a : α) : env.Transparent (pure a : CacheM α) :=
  fun _ _ h => ⟨rfl, h⟩

protected theorem bind {m : CacheM α} {f : α → CacheM β} (hm : env.Transparent m)
    (hf : ∀ a, env.Transparent (f a)) : env.Transparent (m >>= f) := by
  intro c₀ c h
  obtain ⟨hval, hfill⟩ := hm c₀ c h
  -- Both runs go on with the same value, from caches that fill the first one.
  have hc := hf (m.run c₀).1 c₀ (m.run c).2 hfill
  have hc₀ := hf (m.run c₀).1 c₀ (m.run c₀).2 (hm.fills c₀)
  have hrun (c' : Cache) : (m >>= f).run c' = (f (m.run c').1).run (m.run c').2 := rfl
  rw [hrun, hrun, hval]
  exact ⟨hc.1.trans hc₀.1.symm, hc.2⟩

protected theorem map {m : CacheM α} (hm : env.Transparent m) (f : α → β) :
    env.Transparent (f <$> m) :=
  hm.bind fun a => .pure (f a)

theorem throw (e : ResolveError) : env.Transparent (throw e : ResolveM α).run :=
  .pure (Except.error e)

theorem ok (a : α) : env.Transparent (pure a : ResolveM α).run :=
  .pure (Except.ok a)

/-- A failing step skips the rest; what it has cached stays. -/
theorem andThen {x : ResolveM α} {f : α → ResolveM β} (hx : env.Transparent x.run)
    (hf : ∀ a, env.Transparent (f a).run) : env.Transparent (x >>= f).run := by
  rw [ExceptT.run_bind]
  apply hx.bind
  intro r
  cases r with
  | ok a => exact hf a
  | error e => exact throw e

theorem mapM {f : α → CacheM β} (hf : ∀ a, env.Transparent (f a)) (l : List α) :
    env.Transparent (l.mapM f) := by
  induction l with
  | nil => exact .pure []
  | cons a l ih =>
    rw [List.mapM_cons]
    exact (hf a).bind fun b => ih.bind fun bs => .pure (b :: bs)

theorem foldlM {f : β → α → CacheM β} {l : List α} (hf : ∀ b, ∀ a ∈ l, env.Transparent (f b a))
    (b : β) : env.Transparent (l.foldlM f b) := by
  induction l generalizing b with
  | nil => exact .pure b
  | cons a l ih =>
    rw [List.foldlM_cons]
    exact (hf b a List.mem_cons_self).bind (ih fun b x hx => hf b x (List.mem_cons_of_mem a hx))

theorem get_find? {n : NodeId} (hn : env.uncached? n = none) {f : Option Link → ResolveM α}
    (hf : ∀ bound, env.Transparent (f bound).run) :
    env.Transparent (do f ((← get).find? (some n)) : ResolveM α).run := by
  intro c₀ c h
  have hrun (c' : Cache) : StateT.run (do f ((← get).find? (some n)) : ResolveM α).run c' =
      (f (c'.find? (some n))).run.run c' := rfl
  rw [hrun, hrun, h.find?_of_uncached_eq_none hn]
  exact hf _ c₀ c h

end Transparent

/-! ### Look-ups -/

theorem run_get_bind {α : Type} (f : Cache → ResolveM α) (c : Cache) :
    ((do f (← get) : ResolveM α).run).run c = (f c).run.run c := rfl

theorem cachedDefinition_of_bound {env : Env} {c : Cache} {l bound : Link}
    (h : c.find? l = some bound) (find : Except ResolveError NodeId) :
    (env.cachedDefinition l find).run.run c = (.ok bound, c) := by
  rw [cachedDefinition.eq_def, run_get_bind, h]
  rfl

theorem cachedDefinition_of_free {env : Env} {c : Cache} {l : Link} (h : c.find? l = none)
    (d : NodeId) :
    (env.cachedDefinition l (.ok d)).run.run c =
      (.ok (c.bind env.arena l (some d)).1, (c.bind env.arena l (some d)).2) := by
  rw [cachedDefinition, run_get_bind, h]
  rfl

theorem cachedDefinition_of_error {env : Env} {c : Cache} {l : Link} (h : c.find? l = none)
    (e : ResolveError) : (env.cachedDefinition l (.error e)).run.run c = (.error e, c) := by
  rw [cachedDefinition, run_get_bind, h]
  rfl

/-- A cached look-up is transparent if it caches what the direct look-up from the node gives. -/
theorem transparent_cachedDefinition {env : Env} {l : Link} {find : Except ResolveError NodeId}
    (hfind : ∀ n, l = some n → env.uncached? n = find.toOption) :
    env.Transparent (env.cachedDefinition l find).run := by
  intro c₀ c h
  cases l with
  | none =>
    cases find with
    | ok d =>
      rw [cachedDefinition_of_free c.find?_none, cachedDefinition_of_free c₀.find?_none]
      exact ⟨rfl, h⟩
    | error e =>
      rw [cachedDefinition_of_error c.find?_none, cachedDefinition_of_error c₀.find?_none]
      exact ⟨rfl, h⟩
  | some n =>
    have hn := hfind n rfl
    cases hc₀ : c₀.find? (some n) with
    | some bound =>
      rw [cachedDefinition_of_bound hc₀, cachedDefinition_of_bound (h.find?_eq hc₀)]
      exact ⟨rfl, h⟩
    | none =>
      cases find with
      | error e =>
        have hc : c.find? (some n) = none := (h.find?_of_uncached_eq_none hn).trans hc₀
        rw [cachedDefinition_of_error hc, cachedDefinition_of_error hc₀]
        exact ⟨rfl, h⟩
      | ok d =>
        obtain ⟨node, hnode⟩ := exists_node_of_uncached hn
        have hfirst : ((env.cachedDefinition (some n) (.ok d)).run.run c₀).1 = .ok (some d) := by
          rw [cachedDefinition_of_free hc₀]
          simp [Cache.bind_of_find?_eq_none hc₀ hnode]
        rw [hfirst]
        rcases h n with heq | ⟨_, d', hd', hbound⟩
        · have hc := heq.trans hc₀
          have hfill := h.trans (fills_bind hn c)
          rw [Cache.bind_of_find?_eq_none hc hnode] at hfill
          simp only [cachedDefinition_of_free hc, Cache.bind_of_find?_eq_none hc hnode, true_and]
          exact hfill
        · rw [cachedDefinition_of_bound hbound]
          have hdd : d' = d := Option.some.inj (hd'.symm.trans hn)
          exact ⟨by rw [hdd], h⟩

theorem uncached?_of_named {env : Env} {n : NodeId} {kind : Kind}
    (hkind : env.arena.kind? (some n) = some kind) (hrule : kind.typeRule = .named) :
    env.uncached? n = (env.namedDefinition (some n)).toOption := by
  simp [uncached?, hkind, hrule]

theorem uncached?_of_builtin {env : Env} {n : NodeId} {kind : Kind} {name : String}
    (hkind : env.arena.kind? (some n) = some kind) (hrule : kind.typeRule = .builtin name) :
    env.uncached? n = (env.builtinDefinition (some n) name).toOption := by
  simp [uncached?, hkind, hrule]

theorem transparent_nominalDefinition {env : Env} {l : Link} {kind : Kind}
    (hkind : env.arena.kind? l = some kind) (hrule : kind.typeRule = .named) :
    env.Transparent (env.nominalDefinition l).run := by
  apply transparent_cachedDefinition
  intro n hl
  subst hl
  exact uncached?_of_named hkind hrule

end Env

end PonyLens
