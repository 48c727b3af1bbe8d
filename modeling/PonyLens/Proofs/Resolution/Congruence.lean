import PonyLens.Proofs.Arena.Operations
import PonyLens.Proofs.Resolution.Instances

/-!
# What equality of types is worth

Types are the same if they have one definition and the same argument nodes. The type in whose body
the arguments were written is not compared, but it is what they are resolved in. So the same types
have the same members, up to the types of these; and whether these types and the type arguments
agree depends on the outer types, through all of which the arguments may be passed on.
-/

namespace PonyLens

/-! ### Types made of definitions -/

def Instance.IsDefined (i : Instance) (a : Arena) : Prop :=
  ∃ t, NominalType.ofDefinition? a (some i.definition) = some t ∧
    { t.head with args := i.args } = i

theorem Instance.IsDefined.withArgs {i : Instance} {a : Arena} (h : i.IsDefined a)
    (args : Option (List Link)) : Instance.IsDefined { i with args } a := by
  obtain ⟨t, ht, hi⟩ := h
  exact ⟨t, ht, congrArg (fun i : Instance => { i with args }) hi⟩

theorem Instance.isKept_isDefined (a : Arena) : IsKept a (·.IsDefined a) where
  ofDefinition {l t} h := by
    obtain ⟨rfl, _⟩ := NominalType.ofDefinition?_eq_some h
    exact ⟨t, h, rfl⟩
  withArgs _ h := h.withArgs _

namespace NominalType

def IsDefined (t : NominalType) (a : Arena) : Prop := ∀ i ∈ t.head :: t.outers, i.IsDefined a

variable {a : Arena} {s t : NominalType}

theorem IsDefined.head (h : t.IsDefined a) : t.head.IsDefined a := Everywhere.head h

theorem IsDefined.outer {o : NominalType} (h : t.IsDefined a) (houter : t.outer? = some o) :
    o.IsDefined a :=
  Everywhere.outer h houter

/-- Definition and arguments make up an instance. -/
theorem head_eq_of_same (hs : s.head.IsDefined a) (ht : t.head.IsDefined a)
    (h : s.same t = true) : s.head = t.head := by
  obtain ⟨u, hu, hs⟩ := hs
  obtain ⟨v, hv, ht⟩ := ht
  simp only [same, Bool.and_eq_true, beq_iff_eq] at h
  obtain ⟨hdefinition, hargs⟩ := h
  change s.head.definition = t.head.definition at hdefinition
  change s.head.args = t.head.args at hargs
  rw [hdefinition, hv] at hu
  cases hu
  rw [← hs, ← ht, hargs]

theorem same_of_head_eq (h : s.head = t.head) : s.same t = true := by
  simp [same, definition, args, h]

/-! ### Types in the bodies of related types -/

/-- The relation `R`, and what is made of it: a type of definitions is related to itself, and so are
two types that only differ in related outer types. -/
inductive Congruent (a : Arena) (R : NominalType → NominalType → Prop) :
    NominalType → NominalType → Prop
  | refl {t : NominalType} (h : t.IsDefined a) : Congruent a R t t
  | base {s t : NominalType} (h : R s t) : Congruent a R s t
  | inside {i : Instance} {o o' : NominalType} (hi : i.IsDefined a) (h : Congruent a R o o') :
    Congruent a R ⟨i, o.head :: o.outers⟩ ⟨i, o'.head :: o'.outers⟩

namespace Congruent

variable {R : NominalType → NominalType → Prop}

variable (hR : ∀ s t, R s t → s.head = t.head ∧ s.head.IsDefined a)
include hR

theorem head_eq (h : Congruent a R s t) : s.head = t.head ∧ s.head.IsDefined a := by
  cases h with
  | refl h => exact ⟨rfl, h.head⟩
  | base h => exact hR s t h
  | inside hi _ => exact ⟨rfl, hi⟩

theorem isCarried : IsCarried a (Congruent a R) where
  head_eq h := (head_eq hR h).1
  ofDefinition h := .refl (everywhere_of_ofDefinition? (Instance.isKept_isDefined a) h)
  bindArguments {s t o o'} args h ho := by
    obtain ⟨hhead, hdefined⟩ := head_eq hR h
    obtain ⟨i, os⟩ := s
    obtain ⟨j, os'⟩ := t
    obtain rfl : i = j := hhead
    have hbound := hdefined.withArgs
      (some ((List.range i.typeParams.length).map fun n => a.child args n))
    cases ho with
    | none =>
      apply refl
      intro i hi
      rw [List.mem_singleton.mp hi]
      exact hbound
    | some ho => exact inside hbound ho

end Congruent

end NominalType

namespace Env

open NominalType

variable {env : Env} {c : Cache} {R : NominalType → NominalType → Prop} {s t : NominalType}
  {room : Nat}

/-- If the arguments of related types agree, then so do those of the types that are made of them. -/
theorem alike_typeArgumentWith {resolve : Request → ResolveM NominalType}
    (hbase : ∀ s t name, R s t → Alike (Congruent env.arena R)
      (c.answer (env.typeArgumentWith resolve s name).run)
      (c.answer (env.typeArgumentWith resolve t name).run))
    (hresolve : Respects c (Congruent env.arena R) resolve) (name : String)
    (h : Congruent env.arena R s t) :
    Alike (Congruent env.arena R) (c.answer (env.typeArgumentWith resolve s name).run)
      (c.answer (env.typeArgumentWith resolve t name).run) := by
  cases h with
  | base h => exact hbase s t name h
  | refl h =>
    exact alike_typeArgumentWith_of_context hresolve rfl (.refl (Everywhere.context h)) name
  | inside _ h =>
    refine alike_typeArgumentWith_of_context hresolve ?_ ?_ name
    · rfl
    · exact h

/-- If the arguments of related types agree at any nesting, then so do all resolutions. -/
theorem respects_resolveIn (hR : ∀ s t, R s t → s.head = t.head ∧ s.head.IsDefined env.arena)
    (hargument : ∀ s t nesting name, R s t → Alike (Congruent env.arena R)
      (c.answer (env.typeArgumentAt nesting s name).run)
      (c.answer (env.typeArgumentAt nesting t name).run)) (hroom : room ≤ env.room) :
    Respects c (Congruent env.arena R) (env.resolveIn room) := by
  refine (alike_resolveIn_memberIn (Congruent.isCarried hR)
    (fun room hle hresolve s t name h => alike_typeArgumentWith ?_ hresolve name h) hroom).1
  intro s t name h
  have hroom : env.resolveIn room =
      env.resolveIn (env.options.maxNesting - (env.options.maxNesting - room)) := by
    rw [Nat.sub_sub_self hle]
  rw [hroom]
  exact hargument s t _ name h

end Env

/-! ### Types of a program -/

/-- The types that questions come to in an arena, whatever the options and the caches: the type of a
definition, what a node resolves to, the types of members and of their parameters, and type
arguments. -/
inductive NominalType.Produced (a : Arena) (scopes : ScopeTable) : NominalType → Prop
  | definition {l : Link} {t : NominalType} (h : NominalType.ofDefinition? a l = some t) :
    Produced a scopes t
  | resolved {o : Options} {c : Cache} {req : Request} {t : NominalType}
    (hcontext : ∀ u ∈ req.context, Produced a scopes u)
    (hbindings : ∀ b ∈ req.bindings, Produced a scopes b.2)
    (h : c.answer ((Env.mk a scopes o).tryResolve req).run = .ok t) : Produced a scopes t
  | member {o : Options} {c : Cache} {s t : NominalType} {m : Member} (hs : Produced a scopes s)
    (hm : m ∈ c.answer ((Env.mk a scopes o).members s)) (h : m.type = some t) :
    Produced a scopes t
  | param {o : Options} {c : Cache} {s t : NominalType} {m : Member} {p : MemberParam}
    (hs : Produced a scopes s) (hm : m ∈ c.answer ((Env.mk a scopes o).members s))
    (hp : p ∈ m.params) (h : p.type = some t) : Produced a scopes t
  | argument {o : Options} {c : Cache} {s t : NominalType} {name : String}
    (hs : Produced a scopes s)
    (h : c.answer ((Env.mk a scopes o).typeArgument s name) = some t) : Produced a scopes t

namespace Env

theorem answer_typeArgument (env : Env) (c : Cache) (t : NominalType) (name : String) :
    c.answer (env.typeArgument t name) =
      (c.answer (env.typeArgumentAt 0 t name).run).toOption := rfl

end Env

/-- By induction on the questions. -/
theorem NominalType.Produced.isDefined {a : Arena} {scopes : ScopeTable} {t : NominalType}
    (h : Produced a scopes t) : t.IsDefined a := by
  have hkept := Instance.isKept_isDefined a
  have hmembers (o : Options) {c : Cache} {s t : NominalType} {m : Member} (hs : s.IsDefined a)
      (hm : m ∈ c.answer ((Env.mk a scopes o).members s)) (ht : t ∈ m.types) : t.IsDefined a :=
    Env.everywhere_of_membersIn ⟨a, scopes, o⟩ hkept le_rfl hs rfl hm ht
  induction h with
  | definition h => exact everywhere_of_ofDefinition? hkept h
  | @resolved o c req t _ _ h hcontext hbindings =>
    exact Env.everywhere_of_resolveIn ⟨a, scopes, o⟩ hkept le_rfl hcontext hbindings h
  | @member o c s t m _ hm h hs =>
    exact hmembers o hs hm (List.mem_append_left _ (by simp [h]))
  | @param o c s t m p _ hm hp h hs =>
    exact hmembers o hs hm (List.mem_append_right _ (List.mem_filterMap.mpr ⟨p, hp, h⟩))
  | @argument o c s t name _ h hs =>
    rw [Env.answer_typeArgument, Env.toOption_eq_some] at h
    exact Env.everywhere_of_typeArgumentAt ⟨a, scopes, o⟩ hkept hs h

/-! ### The same members, up to their types -/

/-- One member, whose types and whose parameters' types may differ. -/
structure Member.Matches (m m' : Member) : Prop where
  same : { m' with type := m.type, params := m.params } = m
  params : m.params.map MemberParam.name = m'.params.map MemberParam.name

namespace Env

variable {env : Env} {c : Cache} {s t : NominalType} {nesting room : Nat}

theorem isCarried_head_eq (a : Arena) : IsCarried a fun s t => s.head = t.head where
  head_eq h := h
  ofDefinition _ := rfl
  bindArguments args h _ := by simp [NominalType.bindArguments, h]

theorem matches_memberAt {resolve : Request → ResolveM NominalType}
    (hresolve : ∀ req, env.Transparent (resolve req).run) {site site' : MemberSite}
    (h : site.Related (fun s t => s.head = t.head) site') :
    (c.answer (env.memberAt resolve site)).Matches (c.answer (env.memberAt resolve site')) := by
  have howner : site.owner.name = site'.owner.name := congrArg Instance.name h.owner
  rw [answer_memberAt hresolve, answer_memberAt hresolve, h.name, h.node, howner]
  refine ⟨rfl, ?_⟩
  dsimp only
  split
  · simp [answer_methodParams hresolve, h.node, Function.comp_def]
  · rfl

theorem matches_members (h : s.head = t.head) :
    List.Forall₂ Member.Matches (c.answer (env.members s)) (c.answer (env.members t)) := by
  have hresolve := (isTransparent_deeper env env.options.maxNesting).resolve
  rw [answer_members, answer_members, answer_membersWith hresolve, answer_membersWith hresolve,
    List.forall₂_map_left_iff, List.forall₂_map_right_iff]
  exact (related_memberSites (isCarried_head_eq env.arena) h).imp
    fun _ _ hsite => matches_memberAt hresolve hsite

/-! ### Interchangeable types -/

/-- A bisimulation: related types are the same, and at any nesting their type arguments are related,
or neither has one. -/
structure IsBisimulation (env : Env) (c : Cache) (R : NominalType → NominalType → Prop) : Prop where
  same : ∀ s t, R s t → s.same t = true
  argument : ∀ s t nesting name, R s t →
    Alike R (c.answer (env.typeArgumentAt nesting s name).run)
      (c.answer (env.typeArgumentAt nesting t name).run)

/-- Types that are the same, and so are their type arguments, and the type arguments of these, and
so on. -/
def Interchangeable (env : Env) (c : Cache) (s t : NominalType) : Prop :=
  ∃ R, env.IsBisimulation c R ∧ R s t

theorem isBisimulation_interchangeable (env : Env) (c : Cache) :
    env.IsBisimulation c (env.Interchangeable c) where
  same s t := by
    rintro ⟨R, hR, h⟩
    exact hR.same s t h
  argument s t nesting name := by
    rintro ⟨R, hR, h⟩
    exact (hR.argument s t nesting name h).mono fun _ _ h => ⟨R, hR, h⟩

def InterchangeableDefined (env : Env) (c : Cache) (s t : NominalType) : Prop :=
  env.Interchangeable c s t ∧ s.IsDefined env.arena ∧ t.IsDefined env.arena

open NominalType

theorem head_eq_of_interchangeableDefined (h : env.InterchangeableDefined c s t) :
    s.head = t.head ∧ s.head.IsDefined env.arena := by
  obtain ⟨h, hs, ht⟩ := h
  have hsame := (isBisimulation_interchangeable env c).same s t h
  exact ⟨head_eq_of_same hs.head ht.head hsame, hs.head⟩

theorem alike_typeArgumentAt (name : String) (h : env.InterchangeableDefined c s t) :
    Alike (Congruent env.arena (env.InterchangeableDefined c))
      (c.answer (env.typeArgumentAt nesting s name).run)
      (c.answer (env.typeArgumentAt nesting t name).run) := by
  obtain ⟨h, hs, ht⟩ := h
  have hanswer := (isBisimulation_interchangeable env c).argument s t nesting name h
  have hkept := Instance.isKept_isDefined env.arena
  exact (hanswer.and (fun _ hu => everywhere_of_typeArgumentAt env hkept hs hu)
    fun _ hu => everywhere_of_typeArgumentAt env hkept ht hu).mono fun _ _ h => .base h

theorem respects_interchangeableDefined (hroom : room ≤ env.room) :
    Respects c (Congruent env.arena (env.InterchangeableDefined c)) (env.resolveIn room) :=
  respects_resolveIn (fun _ _ h => head_eq_of_interchangeableDefined h)
    (fun _ _ _ name h => alike_typeArgumentAt name h) hroom

theorem interchangeable_of_congruent
    (h : Congruent env.arena (env.InterchangeableDefined c) s t) : env.Interchangeable c s t := by
  -- The closure is itself a bisimulation.
  refine ⟨_, ⟨fun s t h => ?_, fun s t nesting name h => ?_⟩, h⟩
  · exact same_of_head_eq (h.head_eq fun _ _ h => head_eq_of_interchangeableDefined h).1
  · have hrespects := respects_interchangeableDefined (c := c) (sub_le_room env nesting)
    exact alike_typeArgumentWith (fun _ _ name h => alike_typeArgumentAt name h) hrespects name h

theorem interchangeable_of_outer (hs : s.IsDefined env.arena) (ht : t.IsDefined env.arena)
    (h : s.same t = true) (houter : Option.Rel (env.Interchangeable c) s.outer? t.outer?) :
    env.Interchangeable c s t := by
  apply interchangeable_of_congruent
  have hhead := head_eq_of_same hs.head ht.head h
  obtain ⟨i, os⟩ := s
  obtain ⟨j, os'⟩ := t
  obtain rfl : i = j := hhead
  cases os with
  | nil =>
    cases os' with
    | nil => exact .refl hs
    | cons o' os' => cases houter
  | cons o os =>
    cases os' with
    | nil => cases houter
    | cons o' os' =>
      cases houter with
      | some houter =>
        have hbase : Congruent env.arena (env.InterchangeableDefined c) ⟨o, os⟩ ⟨o', os'⟩ :=
          .base ⟨houter, hs.outer rfl, ht.outer rfl⟩
        exact .inside hs.head hbase

theorem related_of_interchangeable (hs : s.IsDefined env.arena) (ht : t.IsDefined env.arena)
    (h : env.Interchangeable c s t) :
    (∀ name, Option.Rel (env.Interchangeable c) (c.answer (env.typeArgument s name))
      (c.answer (env.typeArgument t name))) ∧
    List.Forall₂ (Member.Related (env.Interchangeable c)) (c.answer (env.members s))
      (c.answer (env.members t)) := by
  constructor
  · intro name
    rw [answer_typeArgument, answer_typeArgument]
    exact ((isBisimulation_interchangeable env c).argument s t 0 name h).toOption
  · have hcarried := Congruent.isCarried (a := env.arena) (R := env.InterchangeableDefined c)
      fun _ _ h => head_eq_of_interchangeableDefined h
    have hmembers := related_membersWith hcarried
      (isTransparent_deeper env env.options.maxNesting).resolve
      (respects_interchangeableDefined (c := c) (Nat.le_succ _)) (.base ⟨h, hs, ht⟩)
    rw [answer_members, answer_members]
    exact hmembers.imp fun _ _ hm => hm.mono fun _ _ => interchangeable_of_congruent

/-- What equality of types is worth. Two types that are the same have the same members in the same
order, up to the types of these. If their outer types are interchangeable or there are none, then
they are interchangeable themselves: all their type arguments and all types of their members and of
these members' parameters are there on both sides or on neither, and are the same and
interchangeable again. -/
theorem congruence_of_same (env : Env) (c : Cache) {s t : NominalType}
    (hs : s.Produced env.arena env.scopes) (ht : t.Produced env.arena env.scopes)
    (h : s.same t = true) :
    List.Forall₂ Member.Matches (c.answer (env.members s)) (c.answer (env.members t)) ∧
    (Option.Rel (env.Interchangeable c) s.outer? t.outer? → env.Interchangeable c s t) ∧
    (env.Interchangeable c s t →
      (∀ name, Option.Rel (env.Interchangeable c) (c.answer (env.typeArgument s name))
        (c.answer (env.typeArgument t name))) ∧
      List.Forall₂ (Member.Related (env.Interchangeable c)) (c.answer (env.members s))
        (c.answer (env.members t))) := by
  have hs := hs.isDefined
  have ht := ht.isDefined
  have hhead := head_eq_of_same hs.head ht.head h
  exact ⟨matches_members hhead, interchangeable_of_outer hs ht h,
    related_of_interchangeable hs ht⟩

/-! ### Boxes with different contents -/

/-- A class `Wrap` with a field of its parameter, a class `Box` with a field that wraps its own
parameter, and a class `C` with two boxes, one of a class `A` and one of `C`. -/
def boxes : Program :=
  .ofRoot (.after .empty [
    .add .ident "U" [], .add .typeParam "" [some 0], .add .typeParams "" [some 1],
    .add .ident "w" [], .add .ident "U" [], .add .typeParamRef "" [some 4],
    .add .letField "" [some 3, some 5], .add .members "" [some 6],
    .add .ident "Wrap" [], .add .absent "" [], .add .absent "" [],
    .add .classDef "" [some 8, some 2, some 9, some 10, some 7],
    .add .ident "T" [], .add .typeParam "" [some 12], .add .typeParams "" [some 13],
    .add .ident "T" [], .add .typeParamRef "" [some 15], .add .typeArgs "" [some 16],
    .add .absent "" [], .add .ident "Wrap" [], .add .nominal "" [some 18, some 19, some 17],
    .add .ident "inner" [], .add .letField "" [some 21, some 20], .add .members "" [some 22],
    .add .ident "Box" [], .add .absent "" [], .add .absent "" [],
    .add .classDef "" [some 24, some 14, some 25, some 26, some 23],
    .add .ident "A" [], .add .classDef "" [some 28],
    .add .absent "" [], .add .ident "A" [], .add .nominal "" [some 30, some 31],
    .add .typeArgs "" [some 32], .add .absent "" [], .add .ident "Box" [],
    .add .nominal "" [some 34, some 35, some 33],
    .add .ident "p" [], .add .letField "" [some 37, some 36],
    .add .absent "" [], .add .ident "C" [], .add .nominal "" [some 39, some 40],
    .add .typeArgs "" [some 41], .add .absent "" [], .add .ident "Box" [],
    .add .nominal "" [some 43, some 44, some 42],
    .add .ident "q" [], .add .letField "" [some 46, some 45],
    .add .members "" [some 38, some 47],
    .add .ident "C" [], .add .absent "" [], .add .absent "" [], .add .absent "" [],
    .add .classDef "" [some 49, some 50, some 51, some 52, some 48],
    .add .sourceModule "" [some 11, some 27, some 29, some 53]])
    (some 54)

def boxOwner : Instance := ⟨53, .classDef, "C", "", .unknown, [], [], none⟩

/-- The box whose argument this node writes. -/
def boxOf (arg : NodeId) : Instance :=
  ⟨27, .classDef, "Box", "", .unknown, [13], [], some [some arg]⟩

def boxField (outers : List Instance) : NominalType :=
  ⟨⟨11, .classDef, "Wrap", "", .unknown, [1], [], some [some 16]⟩, outers⟩

def boxContent : NominalType := ⟨⟨29, .classDef, "A", "", .unknown, [], [], none⟩, []⟩

theorem boxes_answers :
    NominalType.ofDefinition? boxes.arena (some 53) = some ⟨boxOwner, []⟩ ∧
    (∀ arg ∈ [32, 41],
      (∃ m ∈ Cache.empty.answer ((boxes.env {}).members ⟨boxOwner, []⟩),
        m.type = some ⟨boxOf arg, [boxOwner]⟩) ∧
      ∃ m ∈ Cache.empty.answer ((boxes.env {}).members ⟨boxOf arg, [boxOwner]⟩),
        m.type = some (boxField [boxOf arg, boxOwner])) ∧
    Cache.empty.answer ((boxes.env {}).tryResolve { node := some 36 }).run = .ok ⟨boxOf 32, []⟩ ∧
    (∃ m ∈ Cache.empty.answer ((boxes.env {}).members ⟨boxOf 32, []⟩),
      m.type = some (boxField [boxOf 32])) ∧
    ∀ outers ∈ [[], [boxOwner]], ∀ room < 4,
      Cache.empty.answer ((boxes.env { maxNesting := 3 }).typeArgumentWith
        ((boxes.env { maxNesting := 3 }).resolveIn room) ⟨boxOf 32, outers⟩ "T").run =
          if room = 0 then .error (.depthExceeded 3) else .ok boxContent := by
  decide +kernel

theorem produced_boxField {arg : NodeId} (h : arg ∈ [32, 41]) :
    (boxField [boxOf arg, boxOwner]).Produced boxes.arena boxes.scopes := by
  obtain ⟨howner, hboxes, _⟩ := boxes_answers
  obtain ⟨⟨m, hm, hbox⟩, m', hm', hfield⟩ := hboxes arg h
  exact .member (.member (.definition howner) hm hbox) hm' hfield

theorem produced_boxField_alone :
    (boxField [boxOf 32]).Produced boxes.arena boxes.scopes := by
  obtain ⟨_, _, hbox, ⟨m, hm, hfield⟩, _⟩ := boxes_answers
  exact .member (.resolved (by rintro u ⟨⟩) (by rintro b ⟨⟩) hbox) hm hfield

theorem typeArgumentWith_boxOf {name : String} (hname : name ≠ "T") (o : Options)
    (resolve : Request → ResolveM NominalType) (outers : List Instance) :
    (boxes.env o).typeArgumentWith resolve ⟨boxOf 32, outers⟩ name =
      throw (.unboundArgument name) := by
  have hparam : boxes.arena.name? (some 13) = some "T" := by decide +kernel
  have hargument : argument? ⟨boxOf 32, outers⟩ (boxes.env o).arena name = none := by
    simp [Program.env, argument?, args, paramIndex?, boxOf, hparam, Ne.symm hname]
  rw [typeArgumentWith_eq, hargument]

theorem interchangeable_boxOf :
    (boxes.env { maxNesting := 3 }).Interchangeable .empty ⟨boxOf 32, []⟩
      ⟨boxOf 32, [boxOwner]⟩ := by
  refine ⟨fun u v => (u = ⟨boxOf 32, []⟩ ∧ v = ⟨boxOf 32, [boxOwner]⟩) ∨
    (u = boxContent ∧ v = boxContent), ⟨?_, ?_⟩, .inl ⟨rfl, rfl⟩⟩
  · rintro u v (⟨rfl, rfl⟩ | ⟨rfl, rfl⟩) <;> decide
  · rintro u v nesting name (⟨rfl, rfl⟩ | ⟨rfl, rfl⟩)
    · by_cases hname : name = "T"
      · subst hname
        have hcontent (outers : List Instance) (houters : outers ∈ [[], [boxOwner]]) :
            Cache.empty.answer ((boxes.env { maxNesting := 3 }).typeArgumentAt nesting
              ⟨boxOf 32, outers⟩ "T").run =
                if 3 - nesting = 0 then .error (.depthExceeded 3) else .ok boxContent :=
          boxes_answers.2.2.2.2 outers houters (3 - nesting) (by omega)
        rw [hcontent [] (by simp), hcontent [boxOwner] (by simp)]
        split
        · exact .error _ _
        · exact .ok (.inr ⟨rfl, rfl⟩)
      · rw [typeArgumentAt, typeArgumentAt, typeArgumentWith_boxOf hname,
          typeArgumentWith_boxOf hname]
        exact .error _ _
    · exact .error _ _

theorem congruence_of_same_boxes :
    let env := boxes.env { maxNesting := 3 }
    let s := boxField [boxOf 32]
    let t := boxField [boxOf 32, boxOwner]
    (s.Produced boxes.arena boxes.scopes ∧ t.Produced boxes.arena boxes.scopes ∧
      s.same t = true) ∧
    s ≠ t ∧ env.Interchangeable .empty s t ∧
    List.Forall₂ (Member.Related (env.Interchangeable .empty))
      (Cache.empty.answer (env.members s)) (Cache.empty.answer (env.members t)) := by
  intro env s t
  have hs : s.Produced boxes.arena boxes.scopes := produced_boxField_alone
  have ht : t.Produced boxes.arena boxes.scopes := produced_boxField (by simp)
  have hcongruence (p : Program) (hs : s.Produced p.arena p.scopes)
      (ht : t.Produced p.arena p.scopes) :=
    congruence_of_same (p.env { maxNesting := 3 }) .empty hs ht rfl
  obtain ⟨_, hinside, hmembers⟩ := hcongruence boxes hs ht
  have hst := hinside (.some interchangeable_boxOf)
  exact ⟨⟨hs, ht, rfl⟩, by simp [s, t, boxField], hst, (hmembers hst).2⟩

/-- The types of the fields of two boxes with different contents are the same. Their type arguments
are there and are not the same, and neither are the types of their members. -/
theorem not_congruence_of_same :
    let env := boxes.env {}
    let s := boxField [boxOf 32, boxOwner]
    let t := boxField [boxOf 41, boxOwner]
    (s.Produced boxes.arena boxes.scopes ∧ t.Produced boxes.arena boxes.scopes ∧
      s.same t = true) ∧
    ∃ u v, Cache.empty.answer (env.typeArgument s "U") = some u ∧
      Cache.empty.answer (env.typeArgument t "U") = some v ∧ u.same v = false ∧
      (Cache.empty.answer (env.members s)).map Member.type = [some u] ∧
      (Cache.empty.answer (env.members t)).map Member.type = [some v] := by
  intro env s t
  have hanswers : Cache.empty.answer (env.typeArgument s "U") = some boxContent ∧
      Cache.empty.answer (env.typeArgument t "U") = some ⟨boxOwner, []⟩ ∧
      (Cache.empty.answer (env.members s)).map Member.type = [some boxContent] ∧
      (Cache.empty.answer (env.members t)).map Member.type = [some ⟨boxOwner, []⟩] := by
    decide +kernel
  obtain ⟨hs, ht, hms, hmt⟩ := hanswers
  exact ⟨⟨produced_boxField (by simp), produced_boxField (by simp), rfl⟩, _, _, hs, ht, rfl, hms,
    hmt⟩

end Env

end PonyLens
