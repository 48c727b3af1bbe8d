import Mathlib.Data.Finset.Basic
import Mathlib.Data.Finset.Card
import Mathlib.Data.List.Nodup
import PonyLens.Types.Inheritance

/-!
# Members by a walk with one set of visited types

What a type inherits, said without guard and without a running cache. The types below it are walked
over depth first, each definition at most once in the whole walk. The members are those that the
visited types declare, in the order of the visits, and the first one counts under each name.
-/

namespace PonyLens

/-- Of the members with one name the first; none without a name. -/
def MemberSite.firstOfEachName : List MemberSite → List MemberSite
  | [] => []
  | s :: sites =>
    if s.name.isEmpty then firstOfEachName sites
    else s :: (firstOfEachName sites).filter (·.name != s.name)

def NominalType.IsWritten (t : NominalType) (a : Arena) : Prop :=
  t.head.provides = a.children (a.child (some t.definition) definitionLayout.provides)

namespace NominalType

/-- What is known of a node that has a type, and what its type is made of. -/
theorem exists_of_ofDefinition? {a : Arena} {l : Link} {t : NominalType}
    (h : ofDefinition? a l = some t) :
    ∃ n kind, l = some n ∧ a.kind? (some n) = some kind ∧ kind.isTypeDefinition = true ∧
      a.is (a.child (some n) definitionLayout.name) .ident = true ∧
      a.text (a.child (some n) definitionLayout.name) ≠ "" ∧
      t = ⟨{
        definition := n, kind
        name := a.text (a.child (some n) definitionLayout.name)
        docstring := docstringAt a (a.child (some n) definitionLayout.docstring)
        capability := .ofKind (a.kind? (a.child (some n) definitionLayout.capability))
        typeParams := a.children (a.child (some n) definitionLayout.typeParams)
        provides := a.children (a.child (some n) definitionLayout.provides) }, []⟩ := by
  unfold ofDefinition? at h
  split at h
  · rename_i n kind hkind
    dsimp only at h
    split at h
    · rename_i hdefinition
      simp only [Bool.and_eq_true, Bool.not_eq_true', String.isEmpty_eq_false_iff] at hdefinition
      obtain ⟨⟨hclass, hident⟩, hname⟩ := hdefinition
      cases h
      exact ⟨n, kind, rfl, hkind, hclass, hident, hname, rfl⟩
    · cases h
  · cases h

theorem ofDefinition?_eq_some {a : Arena} {l : Link} {t : NominalType}
    (h : ofDefinition? a l = some t) :
    l = some t.definition ∧ t.definition < a.size ∧ t.IsWritten a := by
  obtain ⟨n, kind, rfl, hkind, _, _, _, rfl⟩ := exists_of_ofDefinition? h
  exact ⟨rfl, Arena.lt_size_of_kind? hkind, rfl⟩

end NominalType

namespace Env

/-- The definition that a nominal leads to: the one in its slot, or else the one it names. -/
def named? (env : Env) (c : Cache) (nominal : NodeId) : Link :=
  (c.find? (some nominal)).getD (env.namedDefinition (some nominal)).toOption

/-- The type that a nominal in the provides-list of `owner` stands for. The arguments that it writes
are written in the body of `owner`. -/
def provided? (env : Env) (c : Cache) (owner : NominalType) (nominal : NodeId) :
    Option NominalType :=
  (NominalType.ofDefinition? env.arena (env.named? c nominal)).map fun provider =>
    let args := env.arena.child (some nominal) 2
    if env.arena.is args .typeArgs then provider.bindArguments env.arena args (some owner)
    else provider

def providers (env : Env) (c : Cache) (owner : NominalType) : List NominalType :=
  (env.providedNominals owner).filterMap (env.provided? c owner)

theorem provided?_eq_some {env : Env} {c : Cache} {owner provider : NominalType}
    {nominal : NodeId} (h : env.provided? c owner nominal = some provider) :
    env.named? c nominal = some provider.definition ∧ provider.definition < env.arena.size ∧
      provider.IsWritten env.arena := by
  obtain ⟨t, ht, rfl⟩ := Option.map_eq_some_iff.mp h
  have hwritten := NominalType.ofDefinition?_eq_some ht
  dsimp only
  split
  · exact hwritten
  · exact hwritten

theorem mem_providers {env : Env} {c : Cache} {owner p : NominalType}
    (h : p ∈ env.providers c owner) :
    p.definition < env.arena.size ∧ p.IsWritten env.arena := by
  obtain ⟨nominal, _, hp⟩ := List.mem_filterMap.mp h
  exact (provided?_eq_some hp).2

/-- The definitions that a type provides do not depend on its arguments. -/
theorem map_definition_providers {env : Env} {s t : NominalType} (hs : s.IsWritten env.arena)
    (ht : t.IsWritten env.arena) (h : s.definition = t.definition) (c : Cache) :
    (env.providers c s).map NominalType.definition =
      (env.providers c t).map NominalType.definition := by
  have hlist : s.head.provides = t.head.provides := by rw [hs, ht, h]
  have hdef (owner : NominalType) (nominal : NodeId) :
      (env.provided? c owner nominal).map NominalType.definition =
        (NominalType.ofDefinition? env.arena (env.named? c nominal)).map
          NominalType.definition := by
    rw [provided?, Option.map_map]
    congr 1
    funext provider
    dsimp only [Function.comp]
    split <;> rfl
  simp only [providers, providedNominals, hlist, List.map_filterMap, hdef]

def declared (env : Env) (owner : NominalType) : List MemberSite :=
  (env.arena.children (env.arena.child (some owner.definition) definitionLayout.members)).filterMap
    fun member => (env.arena.name? (some member)).map fun name => ⟨name, member, owner⟩

theorem map_name_declared {env : Env} {s t : NominalType} (h : s.definition = t.definition) :
    (env.declared s).map MemberSite.name = (env.declared t).map MemberSite.name := by
  simp [declared, List.map_filterMap, h, Option.map_map, Function.comp_def]

def unvisited (env : Env) (seen : List NodeId) (pending : List NominalType) : Finset NodeId :=
  (Finset.range env.arena.size ∪ (pending.map NominalType.definition).toFinset) \ seen.toFinset

theorem unvisited_subset (env : Env) (seen : List NodeId) {pending pending' : List NominalType}
    (h : pending ⊆ pending') : env.unvisited seen pending ⊆ env.unvisited seen pending' := by
  intro d hd
  simp only [unvisited, Finset.mem_sdiff, Finset.mem_union, List.mem_toFinset] at hd ⊢
  exact ⟨hd.1.imp_right fun hd => List.map_subset _ h hd, hd.2⟩

theorem unvisited_providers_ssubset {env : Env} {c : Cache} {seen : List NodeId} {t : NominalType}
    (ht : t.definition ∉ seen) (pending : List NominalType) :
    env.unvisited (t.definition :: seen) (env.providers c t ++ pending) ⊂
      env.unvisited seen (t :: pending) := by
  refine (Finset.ssubset_iff_of_subset fun d hd => ?_).mpr ⟨t.definition, ?_, ?_⟩
  · simp only [unvisited, Finset.mem_sdiff, Finset.mem_union, List.mem_toFinset, List.map_append,
      List.mem_append, List.map_cons, List.mem_cons, not_or, Finset.mem_range] at hd ⊢
    refine ⟨?_, hd.2.2⟩
    rcases hd.1 with hsize | hprovider | hpending
    · exact .inl hsize
    · obtain ⟨p, hp, rfl⟩ := List.mem_map.mp hprovider
      exact .inl (mem_providers hp).1
    · exact .inr (.inr hpending)
  · simp [unvisited, ht]
  · simp [unvisited]

/-- Walks over the pending types in turn, each followed by the types it provides. A type whose
definition has been seen is skipped. -/
def walk (env : Env) (c : Cache) (seen : List NodeId) : List NominalType → List NominalType
  | [] => []
  | t :: pending =>
    if t.definition ∈ seen then env.walk c seen pending
    else t :: env.walk c (t.definition :: seen) (env.providers c t ++ pending)
termination_by pending => ((env.unvisited seen pending).card, pending.length)
decreasing_by
  · have hle := Finset.card_le_card (unvisited_subset env seen (List.subset_cons_self t pending))
    rcases hle.lt_or_eq with hlt | heq
    · exact .left _ _ hlt
    · rw [heq]
      exact .right _ (by simp)
  · rename_i ht
    exact .left _ _ (Finset.card_lt_card (unvisited_providers_ssubset ht pending))

def flattened (env : Env) (c : Cache) (t : NominalType) : List MemberSite :=
  MemberSite.firstOfEachName ((env.walk c [] [t]).flatMap env.declared)

variable {env : Env} {c : Cache} {seen : List NodeId} {t : NominalType} {pending : List NominalType}

@[simp] theorem walk_nil : env.walk c seen [] = [] := by rw [walk]

theorem walk_of_mem (h : t.definition ∈ seen) :
    env.walk c seen (t :: pending) = env.walk c seen pending := by
  rw [walk, if_pos h]

theorem walk_of_not_mem (h : t.definition ∉ seen) :
    env.walk c seen (t :: pending) =
      t :: env.walk c (t.definition :: seen) (env.providers c t ++ pending) := by
  rw [walk, if_neg h]

end Env

end PonyLens
