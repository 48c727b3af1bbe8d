import Mathlib.Data.List.Forall2
import PonyLens.Proofs.Resolution.TypeArguments

/-!
# Resolutions in related contexts

Two resolutions of one node in contexts that are related. If the relation is handed on by everything
that makes a type of others, they take the same frames, and both fail or come to related types. A
context is looked into for its arguments only, so these are what has to be known of the relation
besides.
-/

namespace PonyLens

/-- Both fail, or the results of both are related. -/
inductive Alike {α β : Type} (R : α → β → Prop) :
    Except ResolveError α → Except ResolveError β → Prop
  | ok {a : α} {b : β} (h : R a b) : Alike R (.ok a) (.ok b)
  | error (e e' : ResolveError) : Alike R (.error e) (.error e')

namespace Alike

variable {α β γ δ : Type} {R R' : α → β → Prop} {S : γ → δ → Prop} {x : Except ResolveError α}
  {y : Except ResolveError β}

theorem mono (h : Alike R x y) (hle : ∀ a b, R a b → R' a b) : Alike R' x y := by
  cases h with
  | ok h => exact .ok (hle _ _ h)
  | error e e' => exact .error e e'

theorem bind {f : α → Except ResolveError γ} {g : β → Except ResolveError δ} (h : Alike R x y)
    (hf : ∀ a b, R a b → Alike S (f a) (g b)) : Alike S (x.bind f) (y.bind g) := by
  cases h with
  | ok h => exact hf _ _ h
  | error e e' => exact .error e e'

theorem toOption (h : Alike R x y) : Option.Rel R x.toOption y.toOption := by
  cases h with
  | ok h => exact .some h
  | error e e' => exact .none

/-- What holds of each result by itself may be added. -/
theorem and {P : α → Prop} {Q : β → Prop} (h : Alike R x y) (hx : ∀ a, x = .ok a → P a)
    (hy : ∀ b, y = .ok b → Q b) : Alike (fun a b => R a b ∧ P a ∧ Q b) x y := by
  cases h with
  | ok h => exact .ok ⟨h, hx _ rfl, hy _ rfl⟩
  | error e e' => exact .error e e'

protected theorem refl (x : Except ResolveError α) : Alike Eq x x := by
  cases x with
  | ok a => exact .ok rfl
  | error e => exact .error e e

end Alike

/-! ### Lists -/

section Lists

variable {α β : Type} {R : α → β → Prop}

theorem forall₂_find? {p : α → Bool} {q : β → Bool} {l : List α} {l' : List β}
    (h : List.Forall₂ R l l') (hpq : ∀ a b, R a b → p a = q b) :
    Option.Rel R (l.find? p) (l'.find? q) := by
  induction h with
  | nil => exact .none
  | @cons a b l l' hab _ ih =>
    rw [List.find?_cons, List.find?_cons, ← hpq a b hab]
    cases p a with
    | true => exact .some hab
    | false => exact ih

end Lists

/-! ### Types and members -/

/-- Whether a relation between types is handed on to the types that are made of related ones.
Related types have one definition and the same arguments. -/
structure IsCarried (a : Arena) (R : NominalType → NominalType → Prop) : Prop where
  head_eq : ∀ {s t : NominalType}, R s t → s.head = t.head
  ofDefinition : ∀ {l : Link} {t : NominalType}, NominalType.ofDefinition? a l = some t → R t t
  bindArguments : ∀ {s t : NominalType} {o o' : Option NominalType} (args : Link), R s t →
    Option.Rel R o o' → R (s.bindArguments a args o) (t.bindArguments a args o')

variable {R : NominalType → NominalType → Prop}

theorem IsCarried.definition_eq {a : Arena} {s t : NominalType} (hR : IsCarried a R) (h : R s t) :
    s.definition = t.definition := congrArg Instance.definition (hR.head_eq h)

structure MemberSite.Related (R : NominalType → NominalType → Prop) (s s' : MemberSite) : Prop where
  name : s.name = s'.name
  node : s.node = s'.node
  owner : R s.owner s'.owner

structure Inheritance.Related (R : NominalType → NominalType → Prop) (i j : Inheritance) :
    Prop where
  guard : i.guard = j.guard
  found : List.Forall₂ (MemberSite.Related R) i.found j.found

structure MemberParam.Related (R : NominalType → NominalType → Prop) (p p' : MemberParam) :
    Prop where
  name : p.name = p'.name
  type : Option.Rel R p.type p'.type

structure Member.Related (R : NominalType → NominalType → Prop) (m m' : Member) : Prop where
  same : { m' with type := m.type, params := m.params } = m
  type : Option.Rel R m.type m'.type
  params : List.Forall₂ (MemberParam.Related R) m.params m'.params

structure Request.Related (R : NominalType → NominalType → Prop) (r r' : Request) : Prop where
  node : r.node = r'.node
  context : Option.Rel R r.context r'.context
  bindings : List.Forall₂ (fun b b' => b.1 = b'.1 ∧ R b.2 b'.2) r.bindings r'.bindings

inductive Step.Related (R : NominalType → NominalType → Prop) : Step → Step → Prop
  | next (frame : Frame) : Related R (.next frame) (.next frame)
  | done {s t : NominalType} (h : R s t) : Related R (.done s) (.done t)

section Mono

variable {R' : NominalType → NominalType → Prop}

theorem rel_mono {α β : Type} {R R' : α → β → Prop} {x : Option α} {y : Option β}
    (h : Option.Rel R x y) (hle : ∀ a b, R a b → R' a b) : Option.Rel R' x y := by
  cases h with
  | none => exact .none
  | some h => exact .some (hle _ _ h)

theorem Member.Related.mono {m m' : Member} (h : m.Related R m') (hle : ∀ s t, R s t → R' s t) :
    m.Related R' m' where
  same := h.same
  type := rel_mono h.type hle
  params := h.params.imp fun _ _ hp => ⟨hp.name, rel_mono hp.type hle⟩

end Mono

theorem Request.Related.lookup {r r' : Request} (h : r.Related R r') (name : String) :
    Option.Rel R (r.bindings.lookup name) (r'.bindings.lookup name) := by
  have hbindings := h.bindings
  generalize r.bindings = bs at hbindings ⊢
  generalize r'.bindings = bs' at hbindings ⊢
  induction hbindings with
  | nil => exact .none
  | @cons b b' _ _ hb _ ih =>
    obtain ⟨other, t⟩ := b
    obtain ⟨other', t'⟩ := b'
    obtain ⟨rfl, ht⟩ := hb
    rw [List.lookup_cons, List.lookup_cons]
    cases name == other with
    | true => exact .some ht
    | false => exact ih

theorem Request.Related.of_node {r r' : Request} (h : r.Related R r') (node : Link) :
    Request.Related R { r with node } { r' with node } := ⟨rfl, h.context, h.bindings⟩

/-- In related contexts a resolution fails in both, or comes to related types. -/
def Respects (c : Cache) (R : NominalType → NominalType → Prop)
    (resolve : Request → ResolveM NominalType) : Prop :=
  ∀ req req', Request.Related R req req' →
    Alike R (c.answer (resolve req).run) (c.answer (resolve req').run)

open MemberSite

theorem names_eq_of_related {sites sites' : List MemberSite}
    (h : List.Forall₂ (MemberSite.Related R) sites sites') :
    sites.map MemberSite.name = sites'.map MemberSite.name := by
  induction h with
  | nil => rfl
  | cons hsite _ ih => rw [List.map_cons, List.map_cons, hsite.name, ih]

theorem related_keepNew {found found' sites sites' : List MemberSite}
    (hfound : List.Forall₂ (MemberSite.Related R) found found')
    (hsites : List.Forall₂ (MemberSite.Related R) sites sites') :
    List.Forall₂ (MemberSite.Related R) (keepNew found sites) (keepNew found' sites') := by
  induction hsites generalizing found found' with
  | nil => exact hfound
  | @cons s s' _ _ hsite _ ih =>
    have htaken : IsTaken found s.name ↔ IsTaken found' s'.name := by
      have hmem (found : List MemberSite) (name : String) :
          IsTaken found name ↔ name ∈ found.map MemberSite.name := by simp [IsTaken]
      rw [hmem, hmem, names_eq_of_related hfound, hsite.name]
    rw [keepNew, keepNew]
    by_cases h : s.name.isEmpty ∨ IsTaken found s.name
    · rw [if_pos h, if_pos (by rwa [← htaken, ← hsite.name])]
      exact ih hfound
    · rw [if_neg h, if_neg (by rwa [← htaken, ← hsite.name])]
      exact ih (List.rel_append hfound (.cons hsite .nil))

namespace Env

variable {env : Env} {c : Cache} (hR : IsCarried env.arena R) {s t : NominalType}
include hR

/-! ### The members of related types -/

section Sites

variable (h : R s t)
include h

theorem related_declared :
    List.Forall₂ (MemberSite.Related R) (env.declared s) (env.declared t) := by
  rw [declared, declared, hR.definition_eq h]
  apply List.rel_filterMap (R := Eq) _ (List.forall₂_refl _)
  rintro member _ rfl
  dsimp only
  cases env.arena.name? (some member) with
  | none => exact .none
  | some name => exact .some ⟨rfl, rfl, h⟩

theorem related_providers : List.Forall₂ R (env.providers c s) (env.providers c t) := by
  have hnominals : env.providedNominals s = env.providedNominals t := by
    rw [providedNominals, providedNominals, hR.head_eq h]
  rw [providers, providers, hnominals]
  apply List.rel_filterMap (R := Eq) _ (List.forall₂_refl _)
  rintro nominal _ rfl
  rw [provided?, provided?]
  cases hprovider : NominalType.ofDefinition? env.arena (env.named? c nominal) with
  | none => exact .none
  | some provider =>
    have hself := hR.ofDefinition hprovider
    simp only [Option.map_some]
    split
    · exact .some (hR.bindArguments _ hself (.some h))
    · exact .some hself

omit h in
/-- By induction on the levels: the guards agree, so the same types are entered. -/
theorem related_visit (levels : Nat) {i j : Inheritance} (h : R s t) (hij : i.Related R j) :
    (env.visit c levels s i).Related R (env.visit c levels t j) := by
  induction levels generalizing s t i j with
  | zero =>
    refine ⟨?_, hij.found⟩
    change (i.guard.enter s.definition).2 = (j.guard.enter t.definition).2
    rw [hij.guard, hR.definition_eq h]
  | succ levels ih =>
    have hdef := hR.definition_eq h
    rcases henter : i.guard.enter s.definition with ⟨answer, guard⟩
    have henter' : j.guard.enter t.definition = (answer, guard) := by
      rw [← hij.guard, ← hdef, henter]
    by_cases hanswer : answer = .entered
    · subst hanswer
      have hown : Inheritance.Related R
          { guard, found := keepNew i.found (env.declared s) }
          { guard, found := keepNew j.found (env.declared t) } :=
        ⟨rfl, related_keepNew hij.found (related_declared hR h)⟩
      have hinner := List.rel_foldl (R := R) (P := Inheritance.Related R)
        (fun _ _ hij _ _ hp => ih hp hij) hown (related_providers (c := c) hR h)
      rw [visit_of_entered henter, visit_of_entered henter']
      refine ⟨?_, hinner.found⟩
      dsimp only
      rw [hinner.guard, hdef]
    · rw [visit_of_refused henter hanswer, visit_of_refused henter' hanswer]
      exact ⟨rfl, hij.found⟩

theorem related_memberSites :
    List.Forall₂ (MemberSite.Related R) (c.answer (env.memberSites s))
      (c.answer (env.memberSites t)) := by
  rw [answer_memberSites, answer_memberSites]
  exact (related_visit hR Limits.providesDepth h ⟨rfl, .nil⟩).found

end Sites

section Members

variable {resolve : Request → ResolveM NominalType}
  (hresolve : ∀ req, env.Transparent (resolve req).run)
  (hrespects : Respects c R resolve)
include hresolve hrespects

omit hR in
theorem rel_typeIn (h : R s t) (n : NodeId) :
    Option.Rel R (c.answer (typeIn resolve s n)) (c.answer (typeIn resolve t n)) := by
  rw [answer_typeIn hresolve, answer_typeIn hresolve]
  exact (hrespects { node := some n, context := some s } { node := some n, context := some t }
    ⟨rfl, .some h, .nil⟩).toOption

omit hR in
theorem related_methodParams {site site' : MemberSite} (h : site.Related R site') :
    List.Forall₂ (MemberParam.Related R) (c.answer (env.methodParams resolve site))
      (c.answer (env.methodParams resolve site')) := by
  rw [answer_methodParams hresolve, answer_methodParams hresolve, h.node,
    List.forall₂_map_left_iff, List.forall₂_map_right_iff, List.forall₂_same]
  exact fun p _ => ⟨rfl, rel_typeIn hresolve hrespects h.owner p⟩

theorem related_memberAt {site site' : MemberSite} (h : site.Related R site') :
    (c.answer (env.memberAt resolve site)).Related R
      (c.answer (env.memberAt resolve site')) := by
  have howner : site.owner.name = site'.owner.name :=
    congrArg Instance.name (hR.head_eq h.owner)
  have htype := rel_typeIn hresolve hrespects h.owner site.node
  rw [answer_memberAt hresolve, answer_memberAt hresolve, h.name, howner, ← h.node]
  refine ⟨rfl, htype, ?_⟩
  dsimp only
  split
  · exact related_methodParams hresolve hrespects h
  · exact .nil

theorem related_membersWith (h : R s t) :
    List.Forall₂ (Member.Related R) (c.answer (env.membersWith resolve s))
      (c.answer (env.membersWith resolve t)) := by
  rw [answer_membersWith hresolve, answer_membersWith hresolve, List.forall₂_map_left_iff,
    List.forall₂_map_right_iff]
  exact (related_memberSites hR h).imp fun _ _ => related_memberAt hR hresolve hrespects

theorem rel_memberWith (h : R s t) (name : String) :
    Option.Rel (Member.Related R) (c.answer (env.memberWith resolve s name))
      (c.answer (env.memberWith resolve t name)) := by
  have hsite := forall₂_find? (p := (·.name == name)) (q := (·.name == name))
    (related_memberSites (c := c) hR h) fun site site' hsite => by rw [hsite.name]
  rw [answer_memberWith hresolve, answer_memberWith hresolve]
  generalize (c.answer (env.memberSites s)).find? (·.name == name) = found at hsite ⊢
  generalize (c.answer (env.memberSites t)).find? (·.name == name) = found' at hsite ⊢
  cases hsite with
  | none => exact .none
  | some hsite => exact .some (related_memberAt hR hresolve hrespects hsite)

end Members

end Env

/-! ### One frame in related contexts -/

/-- Whether deeper resolutions come to related types in related contexts. -/
structure Deeper.Carries (env : Env) (c : Cache) (R : NominalType → NominalType → Prop)
    (deeper : Deeper) : Prop where
  transparent : deeper.IsTransparent env
  resolve : Respects c R deeper.resolve
  member : ∀ s t name, R s t →
    Alike (Option.Rel (Member.Related R)) (c.answer (deeper.member s name).run)
      (c.answer (deeper.member t name).run)
  argument : ∀ s t name, R s t →
    Alike R (c.answer (env.typeArgumentWith deeper.resolve s name).run)
      (c.answer (env.typeArgumentWith deeper.resolve t name).run)

namespace Env

variable {env : Env} {c : Cache} {deeper : Deeper} {req req' : Request} {s t : NominalType}

theorem alike_follow (kind : Kind) (target : Link) :
    Alike (Step.Related R) (c.answer (follow kind target).run)
      (c.answer (follow kind target).run) := by
  cases target with
  | none => exact .error _ _
  | some n => exact .ok (.next _)

theorem alike_done {x y : ResolveM NominalType} (hx : env.Transparent x.run)
    (hy : env.Transparent y.run) (h : Alike R (c.answer x.run) (c.answer y.run)) :
    Alike (Step.Related R) (c.answer (do return .done (← x) : ResolveM Step).run)
      (c.answer (do return .done (← y) : ResolveM Step).run) := by
  rw [answer_andThen hx fun t => .ok _, answer_andThen hy fun t => .ok _]
  exact h.bind fun _ _ h => .ok (.done h)

/-- An argument is that of the head, and is resolved in the outer type, or in the type itself if
there is none. -/
theorem alike_typeArgumentWith_of_context {resolve : Request → ResolveM NominalType}
    (hresolve : Respects c R resolve) (hhead : s.head = t.head)
    (hcontext : R (s.outer?.getD s) (t.outer?.getD t)) (name : String) :
    Alike R (c.answer (env.typeArgumentWith resolve s name).run)
      (c.answer (env.typeArgumentWith resolve t name).run) := by
  have hargument : s.argument? env.arena name = t.argument? env.arena name := by
    simp [NominalType.argument?, NominalType.args, NominalType.paramIndex?, hhead]
  rw [typeArgumentWith_eq, typeArgumentWith_eq, hargument]
  cases t.argument? env.arena name with
  | none => exact .error _ _
  | some n => exact hresolve _ _ ⟨rfl, .some hcontext, .nil⟩

theorem alike_typeParameter (hdeeper : deeper.Carries env c R) (h : req.Related R req')
    (node : Link) :
    Alike R (c.answer (env.typeParameter deeper req node).run)
      (c.answer (env.typeParameter deeper req' node).run) := by
  have hlookup := h.lookup ((env.arena.name? node).getD "")
  have hcontext := h.context
  rw [typeParameter, typeParameter]
  generalize req.bindings.lookup _ = bound at hlookup ⊢
  generalize req'.bindings.lookup _ = bound' at hlookup ⊢
  generalize req.context = context at hcontext ⊢
  generalize req'.context = context' at hcontext ⊢
  cases hlookup with
  | some ht => exact .ok ht
  | none =>
    cases hcontext with
    | some hcontext => exact hdeeper.argument _ _ _ hcontext
    | none => exact .error _ _

theorem alike_memberType (hdeeper : deeper.Carries env c R) (h : R s t) (name : String) :
    Alike R (c.answer (env.memberType deeper s name).run)
      (c.answer (env.memberType deeper t name).run) := by
  rw [answer_memberType hdeeper.transparent, answer_memberType hdeeper.transparent]
  apply (hdeeper.member s t name h).bind
  intro m m' hm
  cases hm with
  | none => exact .error _ _
  | @some m m' hm =>
    have htype := hm.type
    simp only [typeOfMember]
    generalize m.type = type at htype ⊢
    generalize m'.type = type' at htype ⊢
    cases htype with
    | none => exact .error _ _
    | some ht => exact .ok ht

theorem alike_access (hdeeper : deeper.Carries env c R) (h : req.Related R req') (node : Link)
    (name : String) :
    Alike (Step.Related R)
      (c.answer (do
        return .done (← env.memberType deeper (← env.receiver deeper req node) name) :
          ResolveM Step).run)
      (c.answer (do
        return .done (← env.memberType deeper (← env.receiver deeper req' node) name) :
          ResolveM Step).run) := by
  have hmember (owner : NominalType) := transparent_memberType hdeeper.transparent owner name
  have htransparent (req : Request) := transparent_receiver hdeeper.transparent req node
  rw [answer_andThen (htransparent req) fun owner => (hmember owner).andThen fun t => .ok _,
    answer_andThen (htransparent req') fun owner => (hmember owner).andThen fun t => .ok _]
  apply (hdeeper.resolve _ _ (h.of_node (env.arena.child node 0))).bind
  intro owner owner' howner
  exact alike_done (hmember owner) (hmember owner') (alike_memberType hdeeper howner name)

theorem alike_reference (hdeeper : deeper.Carries env c R) (h : req.Related R req') (node : Link)
    (kind : Kind) :
    Alike (Step.Related R) (c.answer (env.reference deeper req node kind).run)
      (c.answer (env.reference deeper req' node kind).run) := by
  rw [reference, reference]
  split
  · split
    · exact alike_follow kind _
    · exact .error _ _
  · split
    · exact alike_access hdeeper h node _
    · exact .error _ _

section Carried

variable (hR : IsCarried env.arena R)
include hR

theorem alike_namedType (h : req.Related R req') {node : Link} {kind : Kind}
    (hkind : env.arena.kind? node = some kind) (hrule : kind.typeRule = .named) :
    Alike R (c.answer (env.namedType req node).run) (c.answer (env.namedType req' node).run) := by
  rw [answer_namedType req hkind hrule, answer_namedType req' hkind hrule]
  apply (Alike.refl _).bind
  rintro d _ rfl
  cases hdefinition : NominalType.ofDefinition? env.arena d with
  | none => exact .error _ _
  | some t =>
    have ht := hR.ofDefinition hdefinition
    dsimp only
    split
    · exact .ok (hR.bindArguments _ ht h.context)
    · exact .ok ht

theorem alike_selfType (h : req.Related R req') (node : Link) :
    Alike R (c.answer (env.selfType req node).run) (c.answer (env.selfType req' node).run) := by
  have hplain (definition : Link) :
      Alike R (c.answer (selfType.plain env.arena definition).run)
        (c.answer (selfType.plain env.arena definition).run) := by
    rw [selfType.plain]
    cases hdefinition : NominalType.ofDefinition? env.arena definition with
    | none => exact .error _ _
    | some t => exact .ok (hR.ofDefinition hdefinition)
  have hcontext := h.context
  rw [selfType, selfType]
  generalize req.context = context at hcontext ⊢
  generalize req'.context = context' at hcontext ⊢
  cases env.arena.enclosing node Kind.isTypeDefinition with
  | none => exact .error _ _
  | some d =>
    cases hcontext with
    | none => exact hplain _
    | @some u u' hcontext =>
      dsimp only
      rw [hR.definition_eq hcontext]
      split
      · exact .ok hcontext
      · exact hplain _

theorem alike_step (hdeeper : deeper.Carries env c R) (h : req.Related R req') (node : Link) :
    Alike (Step.Related R) (c.answer (env.step deeper req node).run)
      (c.answer (env.step deeper req' node).run) := by
  have hreceiver := hdeeper.resolve _ _ (h.of_node (env.arena.child node 0))
  have hself := alike_done (transparent_selfType env req node) (transparent_selfType env req' node)
    (alike_selfType (c := c) hR h node)
  -- The node decides on the rule and on what follows; only types are taken from the context.
  rw [step, step]
  split
  · exact .error _ _
  · rename_i kind hkind
    cases hrule : kind.typeRule with
    | definition =>
      dsimp only
      cases hdefinition : NominalType.ofDefinition? env.arena node with
      | none => exact .error _ _
      | some t => exact .ok (.done (hR.ofDefinition hdefinition))
    | builtin name =>
      have hfind : ∀ n, node = some n →
          env.uncached? n = (env.builtinDefinition node name).toOption := by
        rintro n rfl
        exact uncached?_of_builtin hkind hrule
      dsimp only
      rw [answer_andThen (transparent_cachedDefinition hfind)
        fun d => transparent_follow env kind d]
      apply (Alike.refl _).bind
      rintro d _ rfl
      exact alike_follow kind d
    | openLiteral => exact alike_follow kind ((c.find? node).getD (env.arena.child node 0))
    | typeParameter =>
      exact alike_done (transparent_typeParameter hdeeper.transparent req node)
        (transparent_typeParameter hdeeper.transparent req' node)
        (alike_typeParameter hdeeper h node)
    | named =>
      exact alike_done (transparent_namedType req hkind hrule)
        (transparent_namedType req' hkind hrule) (alike_namedType hR h hkind hrule)
    | reference => exact alike_reference hdeeper h node kind
    | declaration => exact alike_follow kind _
    | call => exact alike_follow kind _
    | method => exact alike_follow kind _
    | constructor =>
      dsimp only
      split
      · exact alike_follow kind _
      · exact hself
    | assignment => exact alike_follow kind _
    | qualification =>
      have htransparent (req : Request) := transparent_receiver hdeeper.transparent req node
      dsimp only
      rw [answer_andThen (htransparent req) fun t => .ok _,
        answer_andThen (htransparent req') fun t => .ok _]
      exact hreceiver.bind fun _ _ ht => .ok (.done (hR.bindArguments _ ht h.context))
    | access => exact alike_access hdeeper h node _
    | chain =>
      have htransparent (req : Request) := transparent_receiver hdeeper.transparent req node
      exact alike_done (htransparent req) (htransparent req') hreceiver
    | viewpoint =>
      dsimp only
      split
      · exact .error _ _
      · exact .ok (.next _)
    | block => exact alike_follow kind _
    | lastChild => exact alike_follow kind _
    | self => exact hself
    | unsupported => exact .error _ _

/-! ### All frames in related contexts -/

omit hR in
theorem exists_stopped_of_alike {r r' : Except ResolveError Step}
    {outcome : Except ResolveError NominalType} (h : Alike (Step.Related R) r r')
    (hstopped : Progress.after r = .stopped outcome) :
    ∃ outcome', Progress.after r' = .stopped outcome' ∧ Alike R outcome outcome' := by
  cases h with
  | error e e' =>
    cases hstopped
    exact ⟨_, rfl, .error e e'⟩
  | ok h =>
    cases h with
    | next frame => cases hstopped
    | done ht =>
      cases hstopped
      exact ⟨_, rfl, .ok ht⟩

/-- The loops take the same frames, and the outcomes are related. -/
theorem alike_run (hdeeper : deeper.Carries env c R) (h : req.Related R req') (limit : Nat) :
    Alike R
      (c.answer (run (env.step deeper req) (.holding limit []) { node := req.node })).outcome
      (c.answer (run (env.step deeper req') (.holding limit [])
        { node := req'.node })).outcome := by
  have hframe (node : Link) : Alike (Step.Related R) (frameAnswer (env.step deeper req) c node)
      (frameAnswer (env.step deeper req') c node) := alike_step hR hdeeper h node
  have hnext (node : Link) (next : Frame)
      (hok : frameAnswer (env.step deeper req) c node = .ok (.next next)) :
      frameAnswer (env.step deeper req') c node = .ok (.next next) := by
    have hframe := hframe node
    rw [hok] at hframe
    generalize frameAnswer (env.step deeper req') c node = r at hframe ⊢
    cases hframe with
    | ok hframe =>
      cases hframe
      rfl
  have hstep := transparent_step hdeeper.transparent req
  have hstep' := transparent_step hdeeper.transparent req'
  rw [← h.node]
  rcases exists_stopped_or_repeat hdeeper.transparent req c { node := req.node } with
    ⟨nodes, last, outcome, hleads, hlast⟩ | ⟨nodes, last, hleads, hnodup, hlast⟩
  · obtain ⟨outcome', hlast', houtcome⟩ := exists_stopped_of_alike (hframe last.node) hlast
    rw [outcome_run_of_stopped hstep hleads hlast,
      outcome_run_of_stopped hstep' (hleads.imp hnext) hlast']
    split
    · exact houtcome
    · exact .error _ _
  · rw [outcome_run_of_repeat hstep hleads hnodup hlast,
      outcome_run_of_repeat hstep' (hleads.imp hnext) hnodup hlast]
    exact .error _ _

/-- By induction on the room. The type arguments of related types may be looked up with the
resolutions that there is room for. -/
theorem alike_resolveIn_memberIn
    (hargument : ∀ room ≤ env.options.maxNesting, Respects c R (env.resolveIn room) →
      ∀ s t name, R s t → Alike R (c.answer (env.typeArgumentWith (env.resolveIn room) s name).run)
        (c.answer (env.typeArgumentWith (env.resolveIn room) t name).run))
    {room : Nat} (hroom : room ≤ env.room) :
    Respects c R (env.resolveIn room) ∧
    ∀ s t name, R s t → Alike (Option.Rel (Member.Related R))
      (c.answer (env.memberIn room s name).run) (c.answer (env.memberIn room t name).run) := by
  induction room with
  | zero =>
    refine ⟨fun req req' _ => ?_, fun s t name _ => ?_⟩
    · rw [resolveIn, resolveIn]
      exact .error _ _
    · rw [memberIn, memberIn]
      exact .error _ _
  | succ room ih =>
    have hle : room ≤ env.options.maxNesting := Nat.le_of_succ_le_succ hroom
    obtain ⟨hresolve, hmember⟩ := ih (Nat.le_succ_of_le hle)
    have hdeeper : Deeper.Carries env c R ⟨env.resolveIn room, env.memberIn room⟩ :=
      ⟨isTransparent_deeper env room, hresolve, hmember, hargument room hle hresolve⟩
    refine ⟨fun req req' h => ?_, fun s t name h => ?_⟩
    · rw [answer_resolveIn_succ, answer_resolveIn_succ]
      exact alike_run hR hdeeper h _
    · rw [memberIn, memberIn]
      exact .ok (rel_memberWith hR hdeeper.transparent.resolve hresolve h name)

end Carried

end Env

end PonyLens
