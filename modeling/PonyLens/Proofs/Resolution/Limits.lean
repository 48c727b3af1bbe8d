import PonyLens.Program
import PonyLens.Proofs.Resolution.Loop

/-!
# Raising limits

Limits only cut answers off. What a resolution with lower limits finds is found with higher ones,
and is the same: no frame makes use of a failure, and a member that is left without a type for a
failure gives no type to any frame. So, by induction on the room, the answers with the lower limits
are among those with the higher ones.
-/

namespace PonyLens

/-- The limits of `o'` are those of `o` or higher, and nothing else differs. -/
structure Options.Below (o o' : Options) : Prop where
  blockValue : o.blockValue = o'.blockValue
  maxNesting : o.maxNesting ≤ o'.maxNesting
  maxFrames : o.maxFrames ≤ o'.maxFrames

structure MemberParam.Completes (p' p : MemberParam) : Prop where
  name : p'.name = p.name
  type : ∀ t, p.type = some t → p'.type = some t

/-- The member `m'` is `m`, perhaps with types where `m` has none. -/
structure Member.Completes (m' m : Member) : Prop where
  same : { m' with type := m.type, params := m.params } = m
  type : ∀ t, m.type = some t → m'.type = some t
  params : List.Forall₂ MemberParam.Completes m'.params m.params

def Resolves (c : Cache) (small large : Request → ResolveM NominalType) : Prop :=
  ∀ req t, c.answer (small req).run = .ok t → c.answer (large req).run = .ok t

structure Deeper.Below (small : Deeper) (c : Cache) (large : Deeper) : Prop where
  resolve : Resolves c small.resolve large.resolve
  member : ∀ t name m, c.answer (small.member t name).run = .ok m →
    ∃ m', c.answer (large.member t name).run = .ok m' ∧ Option.Rel Member.Completes m' m

namespace Env

variable {env : Env} {c : Cache}

/-! ### Members -/

section Answers

variable {resolve : Request → ResolveM NominalType}
  (hresolve : ∀ req, env.Transparent (resolve req).run)
include hresolve

theorem answer_typeIn (owner : NominalType) (n : NodeId) :
    c.answer (typeIn resolve owner n) =
      (c.answer (resolve { node := some n, context := some owner }).run).toOption := by
  rw [typeIn, answer_bind (hresolve _)]
  · cases c.answer (resolve { node := some n, context := some owner }).run <;> rfl
  · intro r
    cases r with
    | ok t => exact .pure _
    | error e => exact .pure _

theorem answer_methodParams (site : MemberSite) :
    c.answer (env.methodParams resolve site) =
      (env.arena.children (env.arena.child (some site.node) methodLayout.params)).map fun p =>
        ⟨(env.arena.name? (some p)).getD "", c.answer (typeIn resolve site.owner p)⟩ :=
  answer_mapM (fun p => (transparent_typeIn hresolve site.owner p).map fun type =>
    (⟨(env.arena.name? (some p)).getD "", type⟩ : MemberParam)) _

theorem answer_memberAt (site : MemberSite) :
    c.answer (env.memberAt resolve site) =
      let kind := (env.arena.kind? (some site.node)).getD .absent
      let part := env.arena.child (some site.node)
      { name := site.name
        docstring :=
          if kind.isMethod then NominalType.docstringAt env.arena (part methodLayout.docstring)
          else ""
        kind := .ofKind kind
        capability :=
          if kind.isMethod then .ofKind (env.arena.kind? (part methodLayout.capability))
          else .unknown
        type := c.answer (typeIn resolve site.owner site.node)
        definition := site.node
        declaredIn := site.owner.name
        params := if kind.isMethod then c.answer (env.methodParams resolve site) else [] } := by
  have htype := transparent_typeIn hresolve site.owner site.node
  rw [memberAt]
  split
  · rename_i hmethod
    rw [answer_bind (transparent_methodParams hresolve site) fun _ => htype.bind fun _ => .pure _,
      answer_bind htype fun _ => .pure _]
    simp [hmethod]
  · rename_i hmethod
    rw [answer_bind (.pure []) fun _ => htype.bind fun _ => .pure _,
      answer_bind htype fun _ => .pure _]
    simp [hmethod]

theorem answer_membersWith (t : NominalType) :
    c.answer (env.membersWith resolve t) =
      (c.answer (env.memberSites t)).map fun site => c.answer (env.memberAt resolve site) := by
  have hmember := transparent_memberAt hresolve
  rw [membersWith, answer_bind (transparent_memberSites env t) fun sites => .mapM hmember sites,
    answer_mapM hmember]

theorem answer_memberWith (t : NominalType) (name : String) :
    c.answer (env.memberWith resolve t name) =
      ((c.answer (env.memberSites t)).find? (·.name == name)).map fun site =>
        c.answer (env.memberAt resolve site) := by
  rw [memberWith]
  refine (answer_bind (transparent_memberSites env t) fun sites => ?_).trans ?_
  · split
    · exact (transparent_memberAt hresolve _).map some
    · exact .pure none
  · cases (c.answer (env.memberSites t)).find? (·.name == name) <;> rfl

end Answers

section Members

variable {small large : Request → ResolveM NominalType}
  (hsmall : ∀ req, env.Transparent (small req).run)
  (hlarge : ∀ req, env.Transparent (large req).run) (hle : Resolves c small large)
include hsmall hlarge hle

theorem typeIn_eq_some {owner : NominalType} {n : NodeId} {t : NominalType}
    (h : c.answer (typeIn small owner n) = some t) : c.answer (typeIn large owner n) = some t := by
  rw [answer_typeIn hsmall] at h
  rw [answer_typeIn hlarge]
  cases hanswer : c.answer (small { node := some n, context := some owner }).run with
  | error e =>
    rw [hanswer] at h
    cases h
  | ok t' =>
    rw [hanswer] at h
    rw [hle _ _ hanswer]
    exact h

theorem completes_methodParams (site : MemberSite) :
    List.Forall₂ MemberParam.Completes (c.answer (env.methodParams large site))
      (c.answer (env.methodParams small site)) := by
  rw [answer_methodParams hsmall, answer_methodParams hlarge, List.forall₂_map_left_iff,
    List.forall₂_map_right_iff, List.forall₂_same]
  exact fun p _ => ⟨rfl, fun t h => typeIn_eq_some hsmall hlarge hle h⟩

theorem completes_memberAt (site : MemberSite) :
    (c.answer (env.memberAt large site)).Completes (c.answer (env.memberAt small site)) := by
  have htype (t : NominalType) (h : c.answer (typeIn small site.owner site.node) = some t) :=
    typeIn_eq_some hsmall hlarge hle h
  rw [answer_memberAt hsmall, answer_memberAt hlarge]
  refine ⟨rfl, htype, ?_⟩
  dsimp only
  split
  · exact completes_methodParams hsmall hlarge hle site
  · exact .nil

theorem completes_membersWith (t : NominalType) :
    List.Forall₂ Member.Completes (c.answer (env.membersWith large t))
      (c.answer (env.membersWith small t)) := by
  rw [answer_membersWith hsmall, answer_membersWith hlarge, List.forall₂_map_left_iff,
    List.forall₂_map_right_iff, List.forall₂_same]
  exact fun site _ => completes_memberAt hsmall hlarge hle site

theorem completes_memberWith (t : NominalType) (name : String) :
    Option.Rel Member.Completes (c.answer (env.memberWith large t name))
      (c.answer (env.memberWith small t name)) := by
  rw [answer_memberWith hsmall, answer_memberWith hlarge]
  cases (c.answer (env.memberSites t)).find? (·.name == name) with
  | none => exact .none
  | some site => exact .some (completes_memberAt hsmall hlarge hle site)

end Members

/-! ### Frames -/

theorem typeOfMember_eq_ok {owner : NominalType} {name : String} {m m' : Option Member}
    {t : NominalType} (hle : Option.Rel Member.Completes m' m)
    (h : env.typeOfMember owner name m = .ok t) : env.typeOfMember owner name m' = .ok t := by
  cases hle with
  | none => cases h
  | @some m' m hle =>
    dsimp only [typeOfMember] at h ⊢
    cases htype : m.type with
    | none =>
      rw [htype] at h
      cases h
    | some t' =>
      rw [htype] at h
      rw [hle.type t' htype]
      exact h

theorem answer_step_of_below {small large : Deeper} (hsmall : small.IsTransparent env)
    (hlarge : large.IsTransparent env) (hle : small.Below c large) {req : Request} {node : Link}
    {s : Step} (h : c.answer (env.step small req node).run = .ok s) :
    c.answer (env.step large req node).run = .ok s := by
  obtain ⟨asks, hasks⟩ := exists_asksFor_step env c req node
  rw [hasks.answer_eq small hsmall] at h
  rw [hasks.answer_eq large hlarge]
  cases asks with
  | nothing r => exact h
  | type request use =>
    cases hresolve : c.answer (small.resolve request).run with
    | error e =>
      rw [answerTo, hresolve] at h
      cases h
    | ok t =>
      rw [answerTo, hresolve] at h
      rw [answerTo, hle.resolve _ _ hresolve]
      exact h
  | member request name =>
    obtain ⟨owner, hresolve, h⟩ := bind_eq_ok h
    obtain ⟨m, hmember, h⟩ := bind_eq_ok h
    obtain ⟨m', hmember', hcompletes⟩ := hle.member _ _ _ hmember
    rw [answerTo, hle.resolve _ _ hresolve]
    dsimp only [Except.bind]
    rw [hmember']
    dsimp only [Except.bind]
    cases htype : env.typeOfMember owner name m with
    | error e =>
      rw [htype] at h
      cases h
    | ok t =>
      rw [htype] at h
      rw [typeOfMember_eq_ok hcompletes htype]
      exact h

/-! ### Options -/

section Options

variable (a : Arena) (scopes : ScopeTable) {o o' : Options}

/-- The options have a say in a frame only by the statement that gives a block its type. -/
theorem step_of_blockValue_eq (h : o.blockValue = o'.blockValue) (deeper : Deeper) (req : Request) :
    (Env.mk a scopes o').step deeper req = (Env.mk a scopes o).step deeper req := by
  cases o
  cases o'
  cases h
  rfl

variable (o o')

theorem visitType_of_options (levels : Nat) :
    (Env.mk a scopes o').visitType levels = (Env.mk a scopes o).visitType levels := by
  induction levels with
  | zero => rfl
  | succ levels ih =>
    funext owner i
    rw [visitType, visitType, ih]
    rfl

theorem memberSites_of_options (t : NominalType) :
    (Env.mk a scopes o').memberSites t = (Env.mk a scopes o).memberSites t := by
  rw [memberSites, memberSites, inheritance, inheritance, visitType_of_options a scopes o o']

theorem membersWith_of_options (resolve : Request → ResolveM NominalType) (t : NominalType) :
    (Env.mk a scopes o').membersWith resolve t = (Env.mk a scopes o).membersWith resolve t := by
  rw [membersWith, membersWith, memberSites_of_options a scopes o o']
  rfl

theorem memberWith_of_options (resolve : Request → ResolveM NominalType) (t : NominalType)
    (name : String) :
    (Env.mk a scopes o').memberWith resolve t name =
      (Env.mk a scopes o).memberWith resolve t name := by
  rw [memberWith, memberWith, memberSites_of_options a scopes o o']
  rfl

end Options

/-! ### Resolutions -/

variable {o o' : Options}

theorem isTransparent_deeper_of_options (a : Arena) (scopes : ScopeTable) (o o' : Options)
    (room : Nat) :
    Deeper.IsTransparent (Env.mk a scopes o)
      ⟨(Env.mk a scopes o').resolveIn room, (Env.mk a scopes o').memberIn room⟩ :=
  have h := isTransparent_deeper (Env.mk a scopes o') room
  ⟨h.resolve, h.member⟩

/-- A loop that comes to a type comes to it also within a higher limit, and if its frames have
answers that they did not have. -/
theorem outcome_run_of_below {small large : Deeper} (hsmall : small.IsTransparent env)
    (hlarge : large.IsTransparent env) (hle : small.Below c large) {limit limit' : Nat}
    (hlimit : limit ≤ limit') {req : Request} {t : NominalType}
    (h : (c.answer (run (env.step small req) (.holding limit []) { node := req.node })).outcome =
      .ok t) :
    (c.answer (run (env.step large req) (.holding limit' []) { node := req.node })).outcome =
      .ok t := by
  have hstep := transparent_step hsmall req
  have hanswer (node : Link) (s : Step) (hok : frameAnswer (env.step small req) c node = .ok s) :
      frameAnswer (env.step large req) c node = .ok s :=
    answer_step_of_below hsmall hlarge hle hok
  rcases exists_stopped_or_repeat hsmall req c { node := req.node } with
    ⟨nodes, last, outcome, hleads, hlast⟩ | ⟨nodes, last, hleads, hnodup, hlast⟩
  · rw [outcome_run_of_stopped hstep hleads hlast] at h
    split at h
    · rename_i hlength
      subst h
      have hlast' := hanswer _ _ (Progress.eq_done_of_after hlast)
      have hstopped : Progress.after (frameAnswer (env.step large req) c last.node) =
          .stopped (.ok t) := by
        rw [hlast']
        rfl
      rw [outcome_run_of_stopped (transparent_step hlarge req) (hleads.mono hanswer) hstopped,
        if_pos (hlength.trans_le hlimit)]
    · cases h
  · rw [outcome_run_of_repeat hstep hleads hnodup hlast] at h
    cases h

/-- By induction on the room: both kinds of resolution have the answers that they have with less
room and a lower limit of frames. The limit of nesting only shows in errors. -/
theorem below_of_room (a : Arena) (scopes : ScopeTable) (hblock : o.blockValue = o'.blockValue)
    (hframes : o.maxFrames ≤ o'.maxFrames) (c : Cache) {room room' : Nat} (hroom : room ≤ room') :
    Deeper.Below ⟨(Env.mk a scopes o).resolveIn room, (Env.mk a scopes o).memberIn room⟩ c
      ⟨(Env.mk a scopes o').resolveIn room', (Env.mk a scopes o').memberIn room'⟩ := by
  induction room generalizing room' with
  | zero =>
    refine ⟨fun req t hok => ?_, fun t name m hok => ?_⟩
    · dsimp only at hok
      rw [resolveIn] at hok
      cases hok
    · dsimp only at hok
      rw [memberIn] at hok
      cases hok
  | succ room ih =>
    obtain ⟨room', rfl⟩ : ∃ n, room' = n + 1 := ⟨room' - 1, by omega⟩
    have hle := ih (Nat.le_of_succ_le_succ hroom)
    have hsmall := isTransparent_deeper (Env.mk a scopes o) room
    have hlarge := isTransparent_deeper_of_options a scopes o o' room'
    refine ⟨fun req t hok => ?_, fun t name m hok => ?_⟩
    · dsimp only at hok ⊢
      rw [answer_resolveIn_succ] at hok ⊢
      rw [step_of_blockValue_eq a scopes hblock]
      exact outcome_run_of_below hsmall hlarge hle hframes hok
    · dsimp only at hok ⊢
      rw [memberIn] at hok ⊢
      cases hok
      rw [memberWith_of_options a scopes o o']
      exact ⟨_, rfl, completes_memberWith hsmall.resolve hlarge.resolve hle.resolve t name⟩

theorem below_resolveIn_memberIn (a : Arena) (scopes : ScopeTable) (h : o.Below o') (c : Cache)
    {room room' : Nat} (hroom : room ≤ room') :
    Deeper.Below ⟨(Env.mk a scopes o).resolveIn room, (Env.mk a scopes o).memberIn room⟩ c
      ⟨(Env.mk a scopes o').resolveIn room', (Env.mk a scopes o').memberIn room'⟩ :=
  below_of_room a scopes h.blockValue h.maxFrames c hroom

theorem answer_members (env : Env) (c : Cache) (t : NominalType) :
    c.answer (env.members t) =
      c.answer (env.membersWith (env.resolveIn env.options.maxNesting) t) := rfl

/-- Raising limits changes no answer. A type that is found for a node with lower limits is found
with higher ones, with its arguments and all its outer types. The members of a type are the same
and in the same order, and where one of them or a parameter has a type with the lower limits it has
that type with the higher ones. -/
theorem answers_of_below (a : Arena) (scopes : ScopeTable) {o o' : Options} (h : o.Below o')
    (c : Cache) :
    let small : Env := ⟨a, scopes, o⟩
    let large : Env := ⟨a, scopes, o'⟩
    (∀ req t, c.answer (small.tryResolve req).run = .ok t →
      c.answer (large.tryResolve req).run = .ok t) ∧
    ∀ t, List.Forall₂ Member.Completes (c.answer (large.members t))
      (c.answer (small.members t)) := by
  intro small large
  refine ⟨?_, fun t => ?_⟩
  · exact (below_resolveIn_memberIn a scopes h c (Nat.succ_le_succ h.maxNesting)).resolve
  · have hsmall := isTransparent_deeper small o.maxNesting
    have hlarge := isTransparent_deeper_of_options a scopes o o' o'.maxNesting
    have hle := below_resolveIn_memberIn a scopes h c h.maxNesting
    rw [answer_members, answer_members, membersWith_of_options a scopes o o']
    exact completes_membersWith hsmall.resolve hlarge.resolve hle.resolve t

/-- A class with two fields, of which one has its type two frames away and the other one three. -/
def twoFields : Program :=
  let (root, a) := Dump.read .empty "(module (class (id C) x x x (members
    (flet (id f) (nominal x (id C))) (flet (id g) (seq (nominal x (id C)))))))"
  .ofRoot a root.toOption

theorem answers_of_below_twoFields :
    let small := twoFields.env { maxNesting := 1, maxFrames := 2 }
    let large := twoFields.env {}
    let t : NominalType := ⟨⟨1, .classDef, "C", "", .unknown, [], [], none⟩, []⟩
    let types (env : Env) := (Cache.empty.answer (env.members t)).map Member.type
    small.options.Below large.options ∧
    (Cache.empty.answer (small.tryResolve { node := some 7 }).run = .ok t ∧
      Cache.empty.answer (large.tryResolve { node := some 7 }).run = .ok t) ∧
    types small = [some t, none] ∧ types large = [some t, some t] ∧
    List.Forall₂ Member.Completes (Cache.empty.answer (large.members t))
      (Cache.empty.answer (small.members t)) := by
  intro small large t types
  have hbelow : small.options.Below large.options := ⟨rfl, by decide, by decide⟩
  obtain ⟨hresolve, hmembers⟩ :=
    answers_of_below twoFields.arena twoFields.scopes hbelow .empty
  obtain ⟨hok, htypes, htypes'⟩ :
      Cache.empty.answer (small.tryResolve { node := some 7 }).run = .ok t ∧
      types small = [some t, none] ∧ types large = [some t, some t] := by
    decide +kernel
  exact ⟨hbelow, ⟨hok, hresolve _ t hok⟩, htypes, htypes', hmembers t⟩

end Env

end PonyLens
