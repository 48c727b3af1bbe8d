import PonyLens.Proofs.Arena.Operations
import PonyLens.Proofs.Resolution.Instances

/-!
# Well-formed types

A type that is handed out can be relied on: behind each of its instances stands a definition with a
name, and there are as many arguments as parameters, however many were written. This holds of every
type that is made, resolved, collected or looked up, through any number of questions with any
scopes, options and caches, as long as the types given by hand are well formed.
-/

namespace PonyLens

namespace Instance

/-- Whether the instance is one of a type definition of the arena. The definition starts with the
name, which is not empty; its second child has the type parameters, its fourth the provides-list;
and if arguments are bound, there is one for each parameter. -/
structure WellFormed (i : Instance) (a : Arena) : Prop where
  isTypeDefinition : a.isA (some i.definition) Kind.isTypeDefinition = true
  isNamed : a.is (a.child (some i.definition) 0) .ident = true
  name_eq : i.name = a.text (a.child (some i.definition) 0)
  name_ne : i.name ≠ ""
  typeParams_eq : i.typeParams = a.children (a.child (some i.definition) 1)
  provides_eq : i.provides = a.children (a.child (some i.definition) 3)
  length_args : ∀ args ∈ i.args, args.length = i.typeParams.length

instance (i : Instance) (a : Arena) : Decidable (i.WellFormed a) :=
  decidable_of_iff
    (a.isA (some i.definition) Kind.isTypeDefinition = true ∧
      a.is (a.child (some i.definition) 0) .ident = true ∧
      i.name = a.text (a.child (some i.definition) 0) ∧ i.name ≠ "" ∧
      i.typeParams = a.children (a.child (some i.definition) 1) ∧
      i.provides = a.children (a.child (some i.definition) 3) ∧
      ∀ args ∈ i.args, args.length = i.typeParams.length)
    ⟨fun ⟨h₁, h₂, h₃, h₄, h₅, h₆, h₇⟩ => ⟨h₁, h₂, h₃, h₄, h₅, h₆, h₇⟩,
      fun ⟨h₁, h₂, h₃, h₄, h₅, h₆, h₇⟩ => ⟨h₁, h₂, h₃, h₄, h₅, h₆, h₇⟩⟩

/-- Whether the arguments, if they are bound, are the children of some node. A parameter is open if
there is no child at its position. -/
def TakesChildren (i : Instance) (a : Arena) : Prop :=
  ∀ args ∈ i.args, ∃ l : Link, args = (List.range i.typeParams.length).map fun n => a.child l n

end Instance

def NominalType.WellFormed (t : NominalType) (a : Arena) : Prop := t.Everywhere (·.WellFormed a)

/-- Whether a question about the members of a type comes to the member. -/
def Member.FoundOn (m : Member) (env : Env) (c : Cache) (s : NominalType) : Prop :=
  ∃ room ≤ env.room,
    (∃ members, c.answer (env.membersIn room s).run = .ok members ∧ m ∈ members) ∨
    ∃ name, c.answer (env.memberIn room s name).run = .ok (some m)

/-- The types that can be had in an arena if those in `given` are given: types of definitions, types
with arguments bound to them, and what any question comes to that is asked about such types, with
any scopes, options and cache, and at any level of nesting. -/
inductive NominalType.Obtained (a : Arena) (given : NominalType → Prop) : NominalType → Prop
  | given {t : NominalType} (h : given t) : Obtained a given t
  | definition {l : Link} {t : NominalType} (h : NominalType.ofDefinition? a l = some t) :
    Obtained a given t
  | bound {t : NominalType} {outer : Option NominalType} (args : Link) (ht : Obtained a given t)
    (houter : ∀ o ∈ outer, Obtained a given o) : Obtained a given (t.bindArguments a args outer)
  | resolved {scopes : ScopeTable} {o : Options} {c : Cache} {room : Nat} {req : Request}
    {t : NominalType} (hroom : room ≤ (Env.mk a scopes o).room)
    (hcontext : ∀ u ∈ req.context, Obtained a given u)
    (hbindings : ∀ b ∈ req.bindings, Obtained a given b.2)
    (h : c.answer ((Env.mk a scopes o).resolveIn room req).run = .ok t) : Obtained a given t
  | owner {scopes : ScopeTable} {o : Options} {c : Cache} {s : NominalType} {site : MemberSite}
    (hs : Obtained a given s) (h : site ∈ c.answer ((Env.mk a scopes o).memberSites s)) :
    Obtained a given site.owner
  | member {scopes : ScopeTable} {o : Options} {c : Cache} {s t : NominalType} {m : Member}
    (hs : Obtained a given s) (hm : m.FoundOn (Env.mk a scopes o) c s) (h : t ∈ m.types) :
    Obtained a given t
  | argument {scopes : ScopeTable} {o : Options} {c : Cache} {nesting : Nat} {s t : NominalType}
    {name : String} (hs : Obtained a given s)
    (h : c.answer ((Env.mk a scopes o).typeArgumentAt nesting s name).run = .ok t) :
    Obtained a given t

variable {a : Arena} {given : NominalType → Prop} {t : NominalType}

namespace Instance

/-- A definition is wrapped with what its children say, and without arguments. -/
theorem wellFormed_of_ofDefinition? {l : Link} (h : NominalType.ofDefinition? a l = some t) :
    t.head.WellFormed a ∧ t.head.args = none := by
  obtain ⟨n, kind, rfl, hkind, hclass, hident, hname, rfl⟩ := NominalType.exists_of_ofDefinition? h
  have hdefinition : a.isA (some n) Kind.isTypeDefinition = true := by
    simpa [Arena.isA, hkind] using hclass
  exact ⟨⟨hdefinition, hident, rfl, hname, rfl, rfl, by simp⟩, rfl⟩

theorem WellFormed.withArgs {i : Instance} (h : i.WellFormed a) (l : Link) :
    Instance.WellFormed
      { i with args := some ((List.range i.typeParams.length).map fun n => a.child l n) } a where
  isTypeDefinition := h.isTypeDefinition
  isNamed := h.isNamed
  name_eq := h.name_eq
  name_ne := h.name_ne
  typeParams_eq := h.typeParams_eq
  provides_eq := h.provides_eq
  length_args := by simp

theorem isKept_wellFormed (a : Arena) (given : NominalType → Prop) :
    IsKept a fun i => i.WellFormed a ∧
      (i.TakesChildren a ∨ ∃ s, given s ∧ i ∈ s.head :: s.outers) where
  ofDefinition h := by
    obtain ⟨hwell, hargs⟩ := wellFormed_of_ofDefinition? h
    exact ⟨hwell, .inl (by simp [TakesChildren, hargs])⟩
  withArgs l h := by
    refine ⟨h.1.withArgs l, .inl fun args hargs => ⟨l, ?_⟩⟩
    cases hargs
    rfl

end Instance

/-- Every type that can be had is well formed, if those that are given are: each of its instances,
all the way out, is one of a type definition with the name, the type parameters and the
provides-list of this definition, and with as many arguments as parameters, if any are bound. The
arguments of an instance that was not given are the children of a node, without those that are too
many, and open where there are too few. -/
theorem NominalType.wellFormed_of_obtained (hgiven : ∀ s, given s → s.WellFormed a)
    (h : t.Obtained a given) :
    t.WellFormed a ∧
      ∀ i ∈ t.head :: t.outers, i.TakesChildren a ∨ ∃ s, given s ∧ i ∈ s.head :: s.outers := by
  have hkept := Instance.isKept_wellFormed a given
  -- Both are said of each instance, and the induction on how the type is obtained carries them on.
  suffices heverywhere : t.Everywhere fun i => i.WellFormed a ∧
      (i.TakesChildren a ∨ ∃ s, given s ∧ i ∈ s.head :: s.outers) from
    ⟨fun i hi => (heverywhere i hi).1, fun i hi => (heverywhere i hi).2⟩
  induction h with
  | given h => exact fun i hi => ⟨hgiven _ h i hi, .inr ⟨_, h, hi⟩⟩
  | definition h => exact everywhere_of_ofDefinition? hkept h
  | bound args _ _ ht houter => exact ht.bindArguments hkept args houter
  | @resolved scopes o c room req t hroom _ _ h hcontext hbindings =>
    exact Env.everywhere_of_resolveIn ⟨a, scopes, o⟩ hkept hroom hcontext hbindings h
  | @owner scopes o c s site _ h hs =>
    exact Env.everywhere_of_memberSites ⟨a, scopes, o⟩ hkept hs h
  | @member scopes o c s t m _ hm h hs =>
    obtain ⟨room, hroom, ⟨members, hmembers, hm⟩ | ⟨name, hm⟩⟩ := hm
    · exact Env.everywhere_of_membersIn ⟨a, scopes, o⟩ hkept hroom hs hmembers hm h
    · exact Env.everywhere_of_memberIn ⟨a, scopes, o⟩ hkept hroom hs hm h
  | @argument scopes o c nesting s t name _ h hs =>
    exact Env.everywhere_of_typeArgumentAt ⟨a, scopes, o⟩ hkept hs h

/-- A class of pairs with two fields that are pairs, one with too few arguments and one with too
many, and a class without parameters. -/
def pairs : Program :=
  .ofRoot (.after .empty [
    .add .ident "A" [], .add .typeParam "" [some 0], .add .ident "B" [],
    .add .typeParam "" [some 2], .add .typeParams "" [some 1, some 3],
    .add .thisType "" [], .add .typeArgs "" [some 5], .add .absent "" [], .add .ident "Pair" [],
    .add .nominal "" [some 7, some 8, some 6], .add .ident "one" [],
    .add .letField "" [some 10, some 9],
    .add .thisType "" [], .add .thisType "" [], .add .thisType "" [],
    .add .typeArgs "" [some 12, some 13, some 14], .add .absent "" [], .add .ident "Pair" [],
    .add .nominal "" [some 16, some 17, some 15], .add .ident "three" [],
    .add .letField "" [some 19, some 18],
    .add .members "" [some 11, some 20],
    .add .ident "Pair" [], .add .absent "" [], .add .absent "" [],
    .add .classDef "" [some 22, some 4, some 23, some 24, some 21],
    .add .ident "Main" [], .add .classDef "" [some 26],
    .add .sourceModule "" [some 25, some 27]])
    (some 28)

def pairOf (args : List Link) : Instance :=
  ⟨25, .classDef, "Pair", "", .unknown, [1, 3], [], some args⟩

/-- From a pair of which only the second argument is known, to its first field, and from there to
the second one, whose type a cache has bound to the other class: this is left without arguments, and
the argument that is missing in the first field stays open. -/
theorem wellFormed_of_obtained_pairs :
    let s : NominalType := ⟨pairOf [none, some 5], []⟩
    let t : NominalType := ⟨⟨27, .classDef, "Main", "", .unknown, [], [], some []⟩,
      [pairOf [some 5, none], pairOf [none, some 5]]⟩
    (∀ u, u = s → u.WellFormed pairs.arena) ∧ t.Obtained pairs.arena (· = s) ∧
    t.WellFormed pairs.arena ∧
    ∀ i ∈ t.head :: t.outers,
      i.TakesChildren pairs.arena ∨ ∃ u, u = s ∧ i ∈ u.head :: u.outers := by
  intro s t
  let one : NominalType := ⟨pairOf [some 5, none], [pairOf [none, some 5]]⟩
  obtain ⟨⟨m, hm, hone⟩, m', hm', hthree⟩ :
      (∃ m ∈ Cache.empty.answer ((pairs.env {}).members s), m.type = some one) ∧
      ∃ m ∈ Cache.answer ⟨[(18, some 27)]⟩ ((pairs.env {}).members one), m.type = some t := by
    decide +kernel
  have hs : s.WellFormed pairs.arena := by
    simp only [NominalType.WellFormed, NominalType.Everywhere]
    decide +kernel
  have hgiven : ∀ u, u = s → u.WellFormed pairs.arena := by
    rintro u rfl
    exact hs
  have hfound (c : Cache) (u : NominalType) {m : Member}
      (hm : m ∈ c.answer ((pairs.env {}).members u)) : m.FoundOn (pairs.env {}) c u :=
    ⟨_, le_rfl, .inl ⟨_, rfl, hm⟩⟩
  have hpair : one.Obtained pairs.arena (· = s) :=
    .member (.given rfl) (hfound .empty s hm) (by simp [Member.types, hone])
  have ht : t.Obtained pairs.arena (· = s) :=
    .member hpair (hfound _ one hm') (by simp [Member.types, hthree])
  exact ⟨hgiven, ht, NominalType.wellFormed_of_obtained hgiven ht⟩

end PonyLens
