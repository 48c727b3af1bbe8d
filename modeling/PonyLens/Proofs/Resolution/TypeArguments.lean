import PonyLens.Proofs.Inheritance.Coverage
import PonyLens.Proofs.Resolution.Limits

/-!
# Type arguments through chains of types

The argument of a type may be a reference to a parameter of the outer type, whose argument may be a
reference again. Such references are followed outwards one by one, each one level deeper, and each
by its name in the type in whose body it is written: that the types on the way have parameters of
the same name, or have them in another order, does not matter.

The collector of members makes chains of this kind, as each provider is bound in the body of the
type that provides it. So an inherited field whose type is a parameter has the type that the
parameter stands for at the far end.
-/

namespace PonyLens

def Arena.RefersTo (a : Arena) (l : Link) (name : String) : Prop :=
  a.kind? l = some .typeParamRef ∧ a.name? l = some name

instance (a : Arena) (l : Link) (name : String) : Decidable (a.RefersTo l name) :=
  inferInstanceAs (Decidable (_ ∧ _))

namespace NominalType

def argument? (t : NominalType) (a : Arena) (name : String) : Link := do
  (← t.args)[← t.paramIndex? a name]?.join

/-- It is `k` types outwards from the parameter `q` of `t` to the parameter `p` of `s`, and the
argument of each type on the way is a reference to the next parameter. -/
inductive PassedOn (a : Arena) (s : NominalType) (p : String) : Nat → NominalType → String → Prop
  | here : PassedOn a s p 0 s p
  | further {k : Nat} {t u : NominalType} {q r : String} {arg : NodeId} (h : PassedOn a s p k t q)
    (houter : u.outer? = some t) (harg : u.argument? a r = some arg)
    (hrefers : a.RefersTo (some arg) q) : PassedOn a s p (k + 1) u r

theorem argument?_bindArguments {t : NominalType} {a : Arena} {args : Link}
    {outer : Option NominalType} {name : String} {i : Nat}
    (h : (t.bindArguments a args outer).paramIndex? a name = some i) :
    (t.bindArguments a args outer).argument? a name = a.child args i := by
  have hi : i < t.head.typeParams.length := (List.findIdx?_eq_some_iff_findIdx_eq.mp h).1
  have hargs : (t.bindArguments a args outer).args =
      some ((List.range t.head.typeParams.length).map fun i => a.child args i) := rfl
  simp [argument?, hargs, h, hi]

theorem outer?_bindArguments (t : NominalType) (a : Arena) (args : Link) (outer : NominalType) :
    (t.bindArguments a args (some outer)).outer? = some outer := rfl

end NominalType

namespace Env

variable {env : Env} {deeper : Deeper} {c : Cache} {req : Request} {s t u : NominalType}
  {p q r name : String} {k room : Nat} {node node' : Link} {arg field : NodeId}

/-- The type argument of a type, asked for by a resolution that is nested so deep. -/
def typeArgumentAt (env : Env) (nesting : Nat) (t : NominalType) (name : String) :
    ResolveM NominalType :=
  env.typeArgumentWith (env.resolveIn (env.options.maxNesting - nesting)) t name

theorem typeArgumentWith_eq (resolve : Request → ResolveM NominalType) (t : NominalType)
    (name : String) :
    env.typeArgumentWith resolve t name =
      match t.argument? env.arena name with
      | some n => resolve { node := some n, context := some (t.outer?.getD t) }
      | none => throw (.unboundArgument name) := rfl

/-! ### Frames -/

theorem frameAnswer_typeParamRef (hdeeper : deeper.IsTransparent env)
    (hrefers : env.arena.RefersTo node name) :
    frameAnswer (env.step deeper { node := node', context := some t }) c node =
      (c.answer (env.typeArgumentWith deeper.resolve t name).run).map .done := by
  have hrule : Kind.typeRule .typeParamRef = .typeParameter := rfl
  have hargument := transparent_typeArgumentWith hdeeper.resolve t name
  simp only [frameAnswer, step, hrefers.1, hrule, typeParameter, hrefers.2, Option.getD_some,
    List.lookup_nil]
  rw [answer_andThen hargument fun t => .ok _]
  cases c.answer (env.typeArgumentWith deeper.resolve t name).run <;> rfl

theorem frameAnswer_field (hfield : env.arena.isA (some field) Kind.isField = true)
    (hrefers : env.arena.RefersTo (env.arena.child (some field) 1) name) :
    frameAnswer (env.step deeper req) c (some field) =
      .ok (.next { node := env.arena.child (some field) 1 }) := by
  cases hchild : env.arena.child (some field) 1 with
  | none => simp [Arena.RefersTo, hchild, Arena.kind?, Arena.get?] at hrefers
  | some annotation =>
    rw [hchild] at hrefers
    have hwritten : env.declaredType (some field) = some annotation := by
      simp [declaredType, written, hchild, Arena.is, hrefers.1]
    cases hkind : env.arena.kind? (some field) with
    | none => simp [Arena.isA, hkind] at hfield
    | some kind =>
      have hrule : kind.typeRule = .declaration := by
        simp only [Arena.isA, hkind] at hfield
        cases kind <;> first | rfl | cases hfield
      simp only [frameAnswer, step, hkind, hrule, hwritten, Option.some_or]
      rfl

theorem stopped_of_typeParamRef (hdeeper : deeper.IsTransparent env)
    (hrefers : env.arena.RefersTo node name) :
    Progress.after (frameAnswer (env.step deeper { node := node', context := some t }) c node) =
      .stopped (c.answer (env.typeArgumentWith deeper.resolve t name).run) := by
  rw [frameAnswer_typeParamRef hdeeper hrefers]
  cases c.answer (env.typeArgumentWith deeper.resolve t name).run <;> rfl

/-! ### Resolutions -/

/-- A reference to a parameter of the context takes one frame, and one level for the argument. -/
theorem answer_resolveIn_typeParamRef (hframes : 1 ≤ env.options.maxFrames)
    (hrefers : env.arena.RefersTo node name) (room : Nat) :
    c.answer (env.resolveIn (room + 1) { node, context := some t }).run =
      c.answer (env.typeArgumentWith (env.resolveIn room) t name).run := by
  have hdeeper := isTransparent_deeper env room
  rw [answer_resolveIn_succ, outcome_run_of_stopped (transparent_step hdeeper _) (.refl { node })
    (stopped_of_typeParamRef hdeeper hrefers)]
  exact if_pos hframes

theorem answer_resolveIn_field (hfield : env.arena.isA (some field) Kind.isField = true)
    (hrefers : env.arena.RefersTo (env.arena.child (some field) 1) name) (room : Nat) :
    c.answer (env.resolveIn (room + 1) { node := some field, context := some t }).run =
      if 2 ≤ env.options.maxFrames then
        c.answer (env.typeArgumentWith (env.resolveIn room) t name).run
      else .error (.frameLimit env.options.maxFrames) := by
  have hdeeper := isTransparent_deeper env room
  have hleads : Leads (frameAnswer (env.step ⟨env.resolveIn room, env.memberIn room⟩
        { node := some field, context := some t }) c)
      { node := some field } [some field] { node := env.arena.child (some field) 1 } :=
    .next (frameAnswer_field hfield hrefers) (.refl _)
  rw [answer_resolveIn_succ, outcome_run_of_stopped (transparent_step hdeeper _) hleads
    (stopped_of_typeParamRef hdeeper hrefers)]
  rfl

/-! ### Chains of outer types -/

theorem toOption_typeArgumentAt_of_le {nesting : Nat} (h : env.options.maxNesting ≤ nesting)
    (t : NominalType) (name : String) :
    (c.answer (env.typeArgumentAt nesting t name).run).toOption = none := by
  rw [typeArgumentAt, Nat.sub_eq_zero_of_le h, typeArgumentWith_eq]
  split <;> rfl

section Chain

variable (houter : u.outer? = some t) (harg : u.argument? env.arena r = some arg)
include houter harg

theorem typeArgumentWith_of_outer (resolve : Request → ResolveM NominalType) :
    env.typeArgumentWith resolve u r = resolve { node := some arg, context := some t } := by
  rw [typeArgumentWith_eq, harg, houter]
  rfl

/-- An argument that is a reference is one of the outer type, one level deeper. -/
theorem answer_typeArgumentAt_of_outer (hframes : 1 ≤ env.options.maxFrames)
    (hrefers : env.arena.RefersTo (some arg) q) (nesting : Nat) :
    c.answer (env.typeArgumentAt nesting u r).run =
      if nesting + 1 ≤ env.options.maxNesting then
        c.answer (env.typeArgumentAt (nesting + 1) t q).run
      else .error (.depthExceeded env.options.maxNesting) := by
  rw [typeArgumentAt, typeArgumentWith_of_outer houter harg]
  split
  · rename_i hroom
    have hsub : env.options.maxNesting - nesting =
        env.options.maxNesting - (nesting + 1) + 1 := by omega
    rw [hsub, answer_resolveIn_typeParamRef hframes hrefers]
    rfl
  · rename_i hroom
    have hsub : env.options.maxNesting - nesting = 0 := by omega
    rw [hsub, resolveIn]
    rfl

end Chain

/-- A chain of references is followed to its end, as far as the nesting goes. By induction on the
chain: each type adds a level. -/
theorem answer_typeArgumentAt_of_passedOn (hframes : 1 ≤ env.options.maxFrames)
    (h : NominalType.PassedOn env.arena s p k t q) {nesting : Nat} (hk : 1 ≤ k) :
    c.answer (env.typeArgumentAt nesting t q).run =
      if nesting + k ≤ env.options.maxNesting then
        c.answer (env.typeArgumentAt (nesting + k) s p).run
      else .error (.depthExceeded env.options.maxNesting) := by
  induction h generalizing nesting with
  | here => omega
  | @further k t u q r arg h houter harg hrefers ih =>
    rw [answer_typeArgumentAt_of_outer houter harg hframes hrefers]
    cases h with
    | here => rfl
    | @further k =>
      have hsum : nesting + 1 + (k + 1) = nesting + (k + 1 + 1) := by omega
      rw [ih (Nat.le_add_left 1 k), hsum]
      by_cases hroom : nesting + (k + 1 + 1) ≤ env.options.maxNesting
      · rw [if_pos (by omega : nesting + 1 ≤ env.options.maxNesting)]
      · rw [if_neg hroom, ite_self]

theorem toOption_typeArgumentAt_of_passedOn (hframes : 1 ≤ env.options.maxFrames)
    (h : NominalType.PassedOn env.arena s p k t q) (nesting : Nat) :
    (c.answer (env.typeArgumentAt nesting t q).run).toOption =
      (c.answer (env.typeArgumentAt (nesting + k) s p).run).toOption := by
  cases h with
  | here => rfl
  | @further k t u q r arg h houter harg hrefers =>
    rw [answer_typeArgumentAt_of_passedOn hframes (h.further houter harg hrefers)
      (Nat.le_add_left 1 k)]
    split
    · rfl
    · rename_i hroom
      exact (toOption_typeArgumentAt_of_le (by omega) s p).symm

/-! ### Chains of providers -/

/-- Whether `t` provides `u` by an entry that hands a parameter down: the argument that it writes
for the parameter `r` of `u` is a reference to the parameter `q`. -/
def HandsDown (env : Env) (c : Cache) (t : NominalType) (q : String) (u : NominalType)
    (r : String) : Prop :=
  ∃ nominal ∈ env.providedNominals t, c.answer (env.provider? t nominal) = some u ∧
    env.arena.is (env.arena.child (some nominal) 2) .typeArgs = true ∧
    ∃ i ∈ u.paramIndex? env.arena r,
      env.arena.RefersTo (env.arena.child (env.arena.child (some nominal) 2) i) q

instance : Decidable (env.HandsDown c t q u r) :=
  inferInstanceAs (Decidable (∃ nominal ∈ env.providedNominals t, _ ∧ _ ∧ ∃ i ∈ _, _))

/-- The type `t` is provided `k` levels below `s`, and the parameter `p` of `s` is handed down all
the way to the parameter `q` of `t`. -/
inductive Provides (env : Env) (c : Cache) (s : NominalType) (p : String) :
    Nat → NominalType → String → Prop
  | here : Provides env c s p 0 s p
  | further {k : Nat} {t u : NominalType} {q r : String} (h : Provides env c s p k t q)
    (hentry : env.HandsDown c t q u r) : Provides env c s p (k + 1) u r

theorem exists_bindArguments_of_provider? {nominal : NodeId}
    (hnominal : nominal ∈ env.providedNominals t)
    (hprovider : c.answer (env.provider? t nominal) = some u)
    (hargs : env.arena.is (env.arena.child (some nominal) 2) .typeArgs = true) :
    ∃ plain : NominalType,
      u = plain.bindArguments env.arena (env.arena.child (some nominal) 2) (some t) := by
  rw [Cache.answer, run_provider? (kind?_of_mem_providedNominals hnominal), provided?,
    Option.map_eq_some_iff] at hprovider
  obtain ⟨plain, _, rfl⟩ := hprovider
  exact ⟨plain, if_pos hargs⟩

/-- The outer types of a provider are the types by which it is provided. -/
theorem Provides.passedOn (h : env.Provides c s p k t q) :
    NominalType.PassedOn env.arena s p k t q := by
  induction h with
  | here => exact .here
  | @further k t u q r h hentry ih =>
    obtain ⟨nominal, hnominal, hprovider, hargs, i, hindex, hrefers⟩ := hentry
    obtain ⟨plain, rfl⟩ := exists_bindArguments_of_provider? hnominal hprovider hargs
    have harg := NominalType.argument?_bindArguments hindex
    cases hchild : env.arena.child (env.arena.child (some nominal) 2) i with
    | none => simp [Arena.RefersTo, hchild, Arena.kind?, Arena.get?] at hrefers
    | some arg =>
      rw [hchild] at harg hrefers
      exact ih.further (NominalType.outer?_bindArguments plain _ _ t) harg hrefers

/-! ### Inherited fields -/

section Members

variable {resolve : Request → ResolveM NominalType}

theorem definition_memberAt (site : MemberSite) :
    (c.answer (env.memberAt resolve site)).definition = site.node := by
  rw [memberAt]
  split <;> rfl

theorem type_memberAt (hresolve : ∀ req, env.Transparent (resolve req).run) (site : MemberSite) :
    (c.answer (env.memberAt resolve site)).type =
      (c.answer (resolve { node := some site.node, context := some site.owner }).run).toOption := by
  rw [answer_memberAt hresolve, answer_typeIn hresolve]

end Members

theorem site_eq_of_node_eq {site site' : MemberSite} (hsite : site ∈ c.answer (env.memberSites s))
    (hsite' : site' ∈ c.answer (env.memberSites s)) (h : site'.node = site.node) :
    site' = site := by
  have hname {site : MemberSite} (hsite : site ∈ c.answer (env.memberSites s)) :
      env.arena.name? (some site.node) = some site.name := by
    rw [answer_memberSites] at hsite
    rcases mem_found_visit hsite with hnone | ⟨u, _, hdeclared⟩
    · cases hnone
    · obtain ⟨member, _, hmember⟩ := List.mem_filterMap.mp hdeclared
      obtain ⟨name, hname, rfl⟩ := Option.map_eq_some_iff.mp hmember
      exact hname
  have hsame : site'.name = site.name := Option.some.inj ((hname hsite').symm.trans (h ▸ hname hsite))
  have hnodup : ((c.answer (env.memberSites s)).map MemberSite.name).Nodup := by
    rw [answer_memberSites]
    exact nodup_names_visit List.nodup_nil
  exact List.inj_on_of_nodup_map hnodup hsite' hsite hsame

/-- The field of a provider that is collected is a member of the type, once, and its type is found
one level deeper. -/
theorem type_of_mem_members {site : MemberSite} (hsite : site ∈ c.answer (env.memberSites s)) :
    (∃ m ∈ c.answer (env.members s), m.definition = site.node) ∧
    ∀ m ∈ c.answer (env.members s), m.definition = site.node →
      m.type = (c.answer (env.resolveIn env.options.maxNesting
        { node := some site.node, context := some site.owner }).run).toOption := by
  have hresolve := (isTransparent_deeper env env.options.maxNesting).resolve
  rw [answer_members, answer_membersWith hresolve]
  refine ⟨⟨_, List.mem_map_of_mem hsite, definition_memberAt site⟩, fun m hm hdefinition => ?_⟩
  obtain ⟨site', hsite', rfl⟩ := List.mem_map.mp hm
  rw [definition_memberAt] at hdefinition
  rw [site_eq_of_node_eq hsite hsite' hdefinition]
  exact type_memberAt hresolve site

/-- A field of a provider whose type is a parameter has the type of the argument at the other end of
the chain, one level deeper for each step and one for the field. -/
theorem type_of_inherited_field (env : Env) {site : MemberSite}
    (h : NominalType.PassedOn env.arena s p k site.owner q)
    (hsite : site ∈ c.answer (env.memberSites s))
    (hfield : env.arena.isA (some site.node) Kind.isField = true)
    (hrefers : env.arena.RefersTo (env.arena.child (some site.node) 1) q) {m : Member}
    (hm : m ∈ c.answer (env.members s)) (hdefinition : m.definition = site.node) :
    m.type =
      if 2 ≤ env.options.maxFrames then (c.answer (env.typeArgumentAt (k + 1) s p).run).toOption
      else none := by
  rw [(type_of_mem_members hsite).2 m hm hdefinition]
  cases hmax : env.options.maxNesting with
  | zero =>
    rw [toOption_typeArgumentAt_of_le (by omega), ite_self, resolveIn]
    rfl
  | succ room =>
    have hroom : env.typeArgumentWith (env.resolveIn room) site.owner q =
        env.typeArgumentAt 1 site.owner q := by rw [typeArgumentAt, hmax, Nat.add_sub_cancel]
    rw [answer_resolveIn_field hfield hrefers, hroom]
    split
    · rename_i hframes
      rw [toOption_typeArgumentAt_of_passedOn (by omega) h, Nat.add_comm]
    · rfl

/-! ### The limit of nesting -/

/-- The same questions with a limit of nesting that is so much higher. -/
def deepened (env : Env) (levels : Nat) : Env :=
  { env with options := { env.options with maxNesting := env.options.maxNesting + levels } }

theorem memberSites_deepened (env : Env) (levels : Nat) (s : NominalType) :
    (env.deepened levels).memberSites s = env.memberSites s :=
  memberSites_of_options env.arena env.scopes env.options _ s

theorem toOption_eq_some {α : Type} {r : Except ResolveError α} {a : α} :
    r.toOption = some a ↔ r = .ok a := by
  cases r <;> simp [Except.toOption]

theorem typeArgumentWith_of_resolves {small large : Request → ResolveM NominalType}
    (hle : Resolves c small large)
    (h : (c.answer (env.typeArgumentWith small s p).run).toOption = some t) :
    (c.answer (env.typeArgumentWith large s p).run).toOption = some t := by
  rw [typeArgumentWith_eq] at h ⊢
  cases harg : s.argument? env.arena p with
  | none =>
    rw [harg] at h
    cases h
  | some arg =>
    rw [harg, toOption_eq_some] at h
    exact toOption_eq_some.mpr (hle _ t h)

theorem typeArgument_of_typeArgumentAt {nesting : Nat}
    (h : (c.answer (env.typeArgumentAt nesting s p).run).toOption = some t) :
    c.answer (env.typeArgument s p) = some t := by
  have hroom : env.options.maxNesting - nesting ≤ env.options.maxNesting - 0 := by omega
  have hbelow : env.options.Below env.options := ⟨rfl, le_rfl, le_rfl⟩
  have hle := below_resolveIn_memberIn env.arena env.scopes hbelow c hroom
  exact typeArgumentWith_of_resolves hle.resolve h

theorem typeArgumentAt_deepened (env : Env) (c : Cache) (levels : Nat) (s : NominalType)
    (p : String) :
    (c.answer ((env.deepened levels).typeArgumentAt levels s p).run).toOption =
      c.answer (env.typeArgument s p) := by
  have hroom : (env.deepened levels).options.maxNesting - levels = env.options.maxNesting - 0 :=
    Nat.add_sub_cancel _ _
  have hblock : env.options.blockValue = (env.deepened levels).options.blockValue := rfl
  have hframes : env.options.maxFrames = (env.deepened levels).options.maxFrames := rfl
  have hmore := below_of_room env.arena env.scopes hblock hframes.le c hroom.ge
  have hless := below_of_room env.arena env.scopes hblock.symm hframes.ge c hroom.le
  ext t
  constructor
  · exact typeArgumentWith_of_resolves hless.resolve
  · exact typeArgumentWith_of_resolves hmore.resolve

/-! ### Both kinds of chains -/

/-- Arguments are substituted through chains of any length. An argument at the near end of a chain
of references is the one at the far end, a level deeper for each type between them, and there is
none if that is too deep. So an inherited field whose type is a parameter has the type of the
argument to which the provides-lists lead: not another one, and none only for want of levels or of
frames. -/
theorem typeArguments_through_chains (env : Env) (c : Cache) (s : NominalType) (p : String) :
    (1 ≤ env.options.maxFrames → ∀ k t q, 1 ≤ k → NominalType.PassedOn env.arena s p k t q →
      ∀ nesting, c.answer (env.typeArgumentAt nesting t q).run =
        if nesting + k ≤ env.options.maxNesting then
          c.answer (env.typeArgumentAt (nesting + k) s p).run
        else .error (.depthExceeded env.options.maxNesting)) ∧
    ∀ k q (site : MemberSite), env.Provides c s p k site.owner q →
      site ∈ c.answer (env.memberSites s) →
      env.arena.isA (some site.node) Kind.isField = true →
      env.arena.RefersTo (env.arena.child (some site.node) 1) q →
      (∃ m ∈ c.answer (env.members s), m.definition = site.node) ∧
      (∀ m ∈ c.answer (env.members s), m.definition = site.node →
        (m.type =
          if 2 ≤ env.options.maxFrames then (c.answer (env.typeArgumentAt (k + 1) s p).run).toOption
          else none) ∧
        ∀ t, m.type = some t → c.answer (env.typeArgument s p) = some t) ∧
      (2 ≤ env.options.maxFrames →
        ∀ m ∈ c.answer ((env.deepened (k + 1)).members s), m.definition = site.node →
          m.type = c.answer (env.typeArgument s p)) := by
  refine ⟨fun hframes k t q hk h nesting => answer_typeArgumentAt_of_passedOn hframes h hk,
    fun k q site h hsite hfield hrefers => ⟨(type_of_mem_members hsite).1,
      fun m hm hdefinition => ?_, fun hframes m hm hdefinition => ?_⟩⟩
  · have htype := type_of_inherited_field env h.passedOn hsite hfield hrefers hm hdefinition
    refine ⟨htype, fun t ht => ?_⟩
    rw [htype] at ht
    split at ht
    · exact typeArgument_of_typeArgumentAt ht
    · cases ht
  · rw [← memberSites_deepened env (k + 1)] at hsite
    have htype := type_of_inherited_field (env.deepened (k + 1)) h.passedOn hsite hfield hrefers hm
      hdefinition
    rw [htype, ← typeArgumentAt_deepened env c (k + 1)]
    exact if_pos hframes

/-! ### A parameter that changes its name -/

/-- A class that provides a trait and, through it, another one. The parameter of the class is handed
down, and on the way its name is that of another parameter. The definitions are read one by one and
put into a module. -/
def renamed : Program :=
  let (definitions, a) := [
      "(trait (id A) (typeparams (typeparam (id S))) x x
        (members (flet (id f) (typeparamref (id S)))))",
      "(trait (id B) (typeparams (typeparam (id S)) (typeparam (id T))) x
        (provides (nominal x (id A) (typeargs (typeparamref (id T))))))",
      "(class (id C) (typeparams (typeparam (id T))) x
        (provides (nominal x (id B) (typeargs (nominal x (id A)) (typeparamref (id T))))))",
      "(type (id U) x x (provides (nominal x (id C) (typeargs (nominal x (id C))))))"
    ].foldl
      (fun (definitions, a) source =>
        let (definition, a) := Dump.read a source
        (definitions ++ [definition.toOption], a))
      ([], Arena.empty)
  let (a, root) := a.add .sourceModule "" definitions
  .ofRoot a root.toOption

def renamedClass : NominalType :=
  ⟨⟨27, .classDef, "C", "", .unknown, [30], [34], some [some 52]⟩, []⟩

def renamedTrait : NominalType :=
  ⟨⟨12, .traitDef, "B", "", .unknown, [15, 17], [21], some [some 38, some 41]⟩,
    [renamedClass.head]⟩

def renamedField : MemberSite :=
  ⟨"f", 8, ⟨⟨0, .traitDef, "A", "", .unknown, [3], [], some [some 25]⟩,
    [renamedTrait.head, renamedClass.head]⟩⟩

theorem renamed_answers :
    (∀ options ∈ [({} : Options), { maxFrames := 1 }],
      (renamed.env options).HandsDown .empty renamedClass "T" renamedTrait "T" ∧
      (renamed.env options).HandsDown .empty renamedTrait "T" renamedField.owner "S" ∧
      renamedField ∈ Cache.empty.answer ((renamed.env options).memberSites renamedClass) ∧
      (renamed.env options).arena.isA (some renamedField.node) Kind.isField = true ∧
      (renamed.env options).arena.RefersTo
        ((renamed.env options).arena.child (some renamedField.node) 1) "S") ∧
    (Cache.empty.answer ((renamed.env {}).typeArgumentAt 3 renamedClass "T").run).toOption.map
      NominalType.name = some "C" ∧
    (Cache.empty.answer ((renamed.env { maxFrames := 1 }).members renamedClass)).map
      (fun m => (m.definition, m.type)) = [(renamedField.node, none)] ∧
    (Cache.empty.answer ((renamed.env { maxFrames := 1 }).typeArgument renamedClass "T")).map
      NominalType.name = some "C" ∧
    Cache.empty.answer ((renamed.env { maxFrames := 1 }).resolveIn Limits.nesting
      { node := some renamedField.node, context := some renamedField.owner }).run =
        .error (.frameLimit 1) := by
  decide +kernel

theorem provides_renamed {options : Options}
    (h : options ∈ [({} : Options), { maxFrames := 1 }]) :
    (renamed.env options).Provides .empty renamedClass "T" 2 renamedField.owner "S" :=
  have ⟨hnear, hfar, _⟩ := renamed_answers.1 options h
  (Provides.here.further hnear).further hfar

theorem typeArguments_through_renamed :
    let env := renamed.env {}
    (env.Provides .empty renamedClass "T" 2 renamedField.owner "S" ∧
      renamedField ∈ Cache.empty.answer (env.memberSites renamedClass) ∧
      env.arena.isA (some renamedField.node) Kind.isField = true ∧
      env.arena.RefersTo (env.arena.child (some renamedField.node) 1) "S") ∧
    Cache.empty.answer (env.typeArgumentAt 0 renamedField.owner "S").run =
      Cache.empty.answer (env.typeArgumentAt 2 renamedClass "T").run ∧
    ∃ m ∈ Cache.empty.answer (env.members renamedClass), m.definition = renamedField.node ∧
      m.type.map NominalType.name = some "C" ∧
      Cache.empty.answer (env.typeArgument renamedClass "T") = m.type := by
  intro env
  obtain ⟨hchains, htype, _⟩ := renamed_answers
  have hprovides := provides_renamed (.head _)
  obtain ⟨_, _, hsite, hfield, hrefers⟩ := hchains {} (.head _)
  have hframes : 2 ≤ env.options.maxFrames := by decide +kernel
  have hnesting : 0 + 2 ≤ env.options.maxNesting := by decide +kernel
  obtain ⟨hchain, hmembers⟩ := typeArguments_through_chains env .empty renamedClass "T"
  have hargument := hchain (by omega) 2 _ "S" (by omega) hprovides.passedOn 0
  obtain ⟨⟨m, hm, hdefinition⟩, hmember, _⟩ :=
    hmembers 2 "S" renamedField hprovides hsite hfield hrefers
  obtain ⟨hm', hsame⟩ := hmember m hm hdefinition
  rw [if_pos hframes] at hm'
  rw [if_pos hnesting] at hargument
  rw [← hm'] at htype
  obtain ⟨t, ht, _⟩ := Option.map_eq_some_iff.mp htype
  exact ⟨⟨hprovides, hsite, hfield, hrefers⟩, hargument, m, hm, hdefinition, htype,
    (hsame t ht).trans ht.symm⟩

/-- With one frame for each resolution the field has no type, as it takes a second one for the
reference. The argument takes one, and has its type. -/
theorem untyped_field_of_renamed :
    let env := renamed.env { maxFrames := 1 }
    (1 ≤ env.options.maxFrames ∧
      env.Provides .empty renamedClass "T" 2 renamedField.owner "S" ∧
      renamedField ∈ Cache.empty.answer (env.memberSites renamedClass) ∧
      env.arena.isA (some renamedField.node) Kind.isField = true ∧
      env.arena.RefersTo (env.arena.child (some renamedField.node) 1) "S") ∧
    (Cache.empty.answer (env.members renamedClass)).map (fun m => (m.definition, m.type)) =
      [(renamedField.node, none)] ∧
    (Cache.empty.answer (env.typeArgument renamedClass "T")).map NominalType.name = some "C" ∧
    Cache.empty.answer (env.resolveIn env.options.maxNesting
      { node := some renamedField.node, context := some renamedField.owner }).run =
        .error (.frameLimit 1) := by
  intro env
  obtain ⟨hchains, _, hanswers⟩ := renamed_answers
  have hmem : { maxFrames := 1 } ∈ [({} : Options), { maxFrames := 1 }] := by simp
  obtain ⟨_, _, hfield⟩ := hchains _ hmem
  exact ⟨⟨le_rfl, provides_renamed hmem, hfield⟩, hanswers⟩

end Env

end PonyLens
