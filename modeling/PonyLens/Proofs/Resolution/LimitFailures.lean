import PonyLens.Proofs.Resolution.TypeArguments

/-!
# Failures of limits

A resolution that fails with some limits and comes to a type with higher ones has met a limit: its
own one, or that of a resolution one level deeper, or that of the resolution of a member's type. The
first two are reported as they are. A member that has no type does not say why, so a limit that was
met in its type is reported as the lack of a type.
-/

namespace PonyLens

def Asks.request? : Asks → Option Request
  | .nothing _ => none
  | .type request _ => some request
  | .member request _ => some request

/-- What is said of a failure outside of the members in whose types it happened, outermost first. -/
def ResolveError.outside (a : Arena) (members : List NodeId) (e : ResolveError) : ResolveError :=
  match members with
  | [] => e
  | m :: _ => .untyped ((a.kind? (some m)).getD .absent)

namespace Env

/-- Whether a resolution with room for so many levels meets a limit. The members are those in whose
types it is met, outermost first. -/
inductive MeetsLimit (env : Env) (c : Cache) :
    Nat → Request → List NodeId → ResolveError → Prop
  /-- There is no room for the resolution. -/
  | nesting (req : Request) :
    MeetsLimit env c 0 req [] (.depthExceeded env.options.maxNesting)
  /-- Its frames lead over too many nodes. -/
  | frames {room : Nat} {req : Request} {nodes : List Link} {last : Frame}
    (hleads : Leads (frameAnswer (env.step ⟨env.resolveIn room, env.memberIn room⟩ req) c)
      { node := req.node } nodes last)
    (hnodup : nodes.Nodup) (hlimit : env.options.maxFrames ≤ nodes.length) :
    MeetsLimit env c (room + 1) req [] (.frameLimit env.options.maxFrames)
  /-- Its last frame asks for the type of a node, and that meets a limit. -/
  | deeper {room : Nat} {req request : Request} {nodes : List Link} {last : Frame} {asks : Asks}
    {members : List NodeId} {limit : ResolveError}
    (hleads : Leads (frameAnswer (env.step ⟨env.resolveIn room, env.memberIn room⟩ req) c)
      { node := req.node } nodes last)
    (hlimit : nodes.length < env.options.maxFrames)
    (hasks : env.AsksFor c (fun deeper => env.step deeper req last.node) asks)
    (hrequest : asks.request? = some request) (h : MeetsLimit env c room request members limit) :
    MeetsLimit env c (room + 1) req members limit
  /-- Its last frame asks for the type of a member, and that meets a limit. -/
  | member {room : Nat} {req request : Request} {nodes : List Link} {last : Frame} {name : String}
    {owner : NominalType} {site : MemberSite} {members : List NodeId} {limit : ResolveError}
    (hleads : Leads (frameAnswer (env.step ⟨env.resolveIn (room + 1), env.memberIn (room + 1)⟩ req) c)
      { node := req.node } nodes last)
    (hlimit : nodes.length < env.options.maxFrames)
    (hasks : env.AsksFor c (fun deeper => env.step deeper req last.node) (.member request name))
    (howner : c.answer (env.resolveIn (room + 1) request).run = .ok owner)
    (hsite : (c.answer (env.memberSites owner)).find? (·.name == name) = some site)
    (h : MeetsLimit env c room { node := some site.node, context := some site.owner } members
      limit) :
    MeetsLimit env c (room + 2) req (site.node :: members) limit

variable {env : Env} {c : Cache} {room room' : Nat} {req : Request} {members : List NodeId}
  {limit e : ResolveError} {t owner : NominalType} {name : String} {site : MemberSite}
  {resolve : Request → ResolveM NominalType}

theorem MeetsLimit.failureClass_eq (h : env.MeetsLimit c room req members limit) :
    limit.failureClass = .limit := by
  induction h with
  | nesting _ => rfl
  | frames _ _ _ => rfl
  | deeper _ _ _ _ _ ih => exact ih
  | member _ _ _ _ _ _ ih => exact ih

theorem failureClass_outside (a : Arena) (hlimit : limit.failureClass = .limit)
    (members : List NodeId) :
    (limit.outside a members).failureClass = if members = [] then .limit else .lookup := by
  cases members with
  | nil => simpa [ResolveError.outside] using hlimit
  | cons m members => rfl

/-! ### Members -/

theorem typeOfMember_memberAt (hresolve : ∀ req, env.Transparent (resolve req).run)
    (owner : NominalType) (name : String) (site : MemberSite) :
    env.typeOfMember owner name (some (c.answer (env.memberAt resolve site))) =
      match c.answer (resolve { node := some site.node, context := some site.owner }).run with
      | .ok t => .ok t
      | .error _ => .error (.untyped ((env.arena.kind? (some site.node)).getD .absent)) := by
  simp only [typeOfMember, type_memberAt hresolve, definition_memberAt]
  cases c.answer (resolve { node := some site.node, context := some site.owner }).run <;> rfl

theorem bind_memberIn_succ (env : Env) (c : Cache) (room : Nat) (owner : NominalType)
    (name : String) :
    ((c.answer (env.memberIn (room + 1) owner name).run).bind fun m =>
      (env.typeOfMember owner name m).map Step.done) =
      match (c.answer (env.memberSites owner)).find? (·.name == name) with
      | none => .error (.memberNotFound owner.name name)
      | some site =>
        match c.answer
          (env.resolveIn room { node := some site.node, context := some site.owner }).run with
        | .ok t => .ok (.done t)
        | .error _ => .error (.untyped ((env.arena.kind? (some site.node)).getD .absent)) := by
  have hresolve := (isTransparent_deeper env room).resolve
  have hmember : c.answer (env.memberIn (room + 1) owner name).run =
      .ok (((c.answer (env.memberSites owner)).find? (·.name == name)).map fun site =>
        c.answer (env.memberAt (env.resolveIn room) site)) := by
    rw [← answer_memberWith (c := c) hresolve, memberIn]
    rfl
  rw [hmember]
  cases (c.answer (env.memberSites owner)).find? (·.name == name) with
  | none => rfl
  | some site =>
    dsimp only [Option.map_some, Except.bind]
    rw [typeOfMember_memberAt hresolve]
    cases c.answer
      (env.resolveIn room { node := some site.node, context := some site.owner }).run <;> rfl

/-! ### A limit that is met is reported -/

theorem answer_resolveIn_of_error {nodes : List Link} {last : Frame}
    (hleads : Leads (frameAnswer (env.step ⟨env.resolveIn room, env.memberIn room⟩ req) c)
      { node := req.node } nodes last)
    (hlimit : nodes.length < env.options.maxFrames)
    (hlast : frameAnswer (env.step ⟨env.resolveIn room, env.memberIn room⟩ req) c last.node =
      .error e) :
    c.answer (env.resolveIn (room + 1) req).run = .error e := by
  have hstep := transparent_step (isTransparent_deeper env room) req
  have hstopped : Progress.after (frameAnswer
      (env.step ⟨env.resolveIn room, env.memberIn room⟩ req) c last.node) = .stopped (.error e) := by
    rw [hlast]
    rfl
  rw [answer_resolveIn_succ, outcome_run_of_stopped hstep hleads hstopped, if_pos hlimit]

/-- By induction on where the limit is met: each level passes the failure on, and each member hides
it. -/
theorem MeetsLimit.answer_eq (h : env.MeetsLimit c room req members limit) :
    c.answer (env.resolveIn room req).run = .error (limit.outside env.arena members) := by
  induction h with
  | nesting req =>
    rw [resolveIn]
    rfl
  | @frames room req nodes last hleads hnodup hlimit =>
    have hstep := transparent_step (isTransparent_deeper env room) req
    rw [answer_resolveIn_succ, outcome_run_of_limit hstep hleads hnodup hlimit]
    rfl
  | @deeper room req request nodes last asks members limit hleads hlimit hasks hrequest _ ih =>
    apply answer_resolveIn_of_error hleads hlimit
    rw [frameAnswer, hasks.answer_eq _ (isTransparent_deeper env room)]
    cases asks with
    | nothing r => cases hrequest
    | type request use =>
      cases hrequest
      rw [answerTo, ih]
      rfl
    | member request name =>
      cases hrequest
      rw [answerTo, ih]
      rfl
  | @member room req request nodes last name owner site members limit hleads hlimit hasks howner
      hsite _ ih =>
    apply answer_resolveIn_of_error hleads hlimit
    rw [frameAnswer, hasks.answer_eq _ (isTransparent_deeper env (room + 1)), answerTo, howner]
    refine (bind_memberIn_succ env c room owner name).trans ?_
    rw [hsite]
    dsimp only
    rw [ih]
    rfl

/-! ### A failure that higher limits avoid has met a limit -/

theorem exists_frameAnswer_of_ok {nodes : List Link} {last : Frame}
    (h : c.answer (env.resolveIn (room + 1) req).run = .ok t)
    (hleads : Leads (frameAnswer (env.step ⟨env.resolveIn room, env.memberIn room⟩ req) c)
      { node := req.node } nodes last) :
    ∃ s, frameAnswer (env.step ⟨env.resolveIn room, env.memberIn room⟩ req) c last.node =
      .ok s := by
  cases hlast : frameAnswer (env.step ⟨env.resolveIn room, env.memberIn room⟩ req) c last.node with
  | ok s => exact ⟨s, rfl⟩
  | error e =>
    by_cases hlimit : nodes.length < env.options.maxFrames
    · rw [answer_resolveIn_of_error hleads hlimit hlast] at h
      cases h
    · have hstep := transparent_step (isTransparent_deeper env room) req
      have hstopped : Progress.after (frameAnswer
          (env.step ⟨env.resolveIn room, env.memberIn room⟩ req) c last.node) =
            .stopped (.error e) := by
        rw [hlast]
        rfl
      have hnodup := hleads.nodup_of_stopped hstopped
      rw [answer_resolveIn_succ, outcome_run_of_limit hstep hleads
        (List.nodup_append.mp hnodup).1 (Nat.not_lt.mp hlimit)] at h
      cases h

section Below

variable (a : Arena) (scopes : ScopeTable) {o o' : Options}

/-- What fails in the one and comes to a type in the other has met a limit in the one. -/
def MeetsLimitWithin (o o' : Options) (c : Cache) (room : Nat) : Prop :=
  ∀ room' req e t, room ≤ room' →
    c.answer ((Env.mk a scopes o).resolveIn room req).run = .error e →
    c.answer ((Env.mk a scopes o').resolveIn room' req).run = .ok t →
    ∃ members limit, (Env.mk a scopes o).MeetsLimit c room req members limit ∧
      e = limit.outside a members

variable {a scopes} (hblock : o.blockValue = o'.blockValue) (hframes : o.maxFrames ≤ o'.maxFrames)
include hblock hframes

/-- A frame that fails with the lower limits only has met a limit in what it asks for. -/
theorem exists_meetsLimit_of_frame (hroom : room ≤ room') {nodes : List Link} {last : Frame}
    {s : Step}
    (ih : ∀ k ≤ room, MeetsLimitWithin a scopes o o' c k)
    (hleads : Leads (frameAnswer ((Env.mk a scopes o).step
      ⟨(Env.mk a scopes o).resolveIn room, (Env.mk a scopes o).memberIn room⟩ req) c)
      { node := req.node } nodes last)
    (hlimit : nodes.length < o.maxFrames)
    (hsmall : frameAnswer ((Env.mk a scopes o).step
      ⟨(Env.mk a scopes o).resolveIn room, (Env.mk a scopes o).memberIn room⟩ req) c last.node =
        .error e)
    (hlarge : frameAnswer ((Env.mk a scopes o').step
      ⟨(Env.mk a scopes o').resolveIn room', (Env.mk a scopes o').memberIn room'⟩ req) c last.node =
        .ok s) :
    ∃ members limit, (Env.mk a scopes o).MeetsLimit c (room + 1) req members limit ∧
      e = limit.outside a members := by
  obtain ⟨asks, hasks⟩ := exists_asksFor_step (Env.mk a scopes o) c req last.node
  rw [step_of_blockValue_eq a scopes hblock] at hlarge
  rw [frameAnswer, hasks.answer_eq _ (isTransparent_deeper (Env.mk a scopes o) room)] at hsmall
  rw [frameAnswer, hasks.answer_eq _ (isTransparent_deeper_of_options a scopes o o' room')] at hlarge
  have hdeeper {request : Request} {t : NominalType} (hrequest : asks.request? = some request)
      (hfails : c.answer ((Env.mk a scopes o).resolveIn room request).run = .error e)
      (hok : c.answer ((Env.mk a scopes o').resolveIn room' request).run = .ok t) :
      ∃ members limit, (Env.mk a scopes o).MeetsLimit c (room + 1) req members limit ∧
        e = limit.outside a members := by
    obtain ⟨members, limit, h, he⟩ := ih room (Nat.le_refl room) room' request e t hroom hfails hok
    exact ⟨members, limit, .deeper hleads hlimit hasks hrequest h, he⟩
  cases asks with
  | nothing r =>
    rw [answerTo] at hsmall hlarge
    rw [hsmall] at hlarge
    cases hlarge
  | type request use =>
    rw [answerTo] at hsmall hlarge
    cases hok : c.answer ((Env.mk a scopes o').resolveIn room' request).run with
    | ok t => exact hdeeper rfl (map_eq_error hsmall) hok
    | error e' =>
      rw [hok] at hlarge
      cases hlarge
  | member request name =>
    obtain ⟨owner, howner', hlarge⟩ := bind_eq_ok hlarge
    rcases bind_eq_error hsmall with hfails | ⟨owner', howner, hsmall⟩
    · exact hdeeper rfl hfails howner'
    · have hsame := (below_of_room a scopes hblock hframes c hroom).resolve _ _ howner
      cases hsame.symm.trans howner'
      cases room with
      | zero =>
        dsimp only at howner
        rw [resolveIn] at howner
        cases howner
      | succ room =>
        obtain ⟨room', rfl⟩ : ∃ n, room' = n + 1 := ⟨room' - 1, by omega⟩
        have hfails := (bind_memberIn_succ (Env.mk a scopes o) c room owner name).symm.trans hsmall
        have hok := (bind_memberIn_succ (Env.mk a scopes o') c room' owner name).symm.trans hlarge
        rw [memberSites_of_options a scopes o o'] at hok
        cases hsite : (c.answer ((Env.mk a scopes o).memberSites owner)).find? (·.name == name) with
        | none =>
          rw [hsite] at hok
          cases hok
        | some site =>
          rw [hsite] at hfails hok
          dsimp only at hfails hok
          split at hfails
          · cases hfails
          · rename_i e' hinner
            cases hfails
            split at hok
            · rename_i t hinner'
              obtain ⟨members, limit, h, _⟩ := ih room (Nat.le_succ room) room' _ e' t
                (Nat.le_of_succ_le_succ hroom) hinner hinner'
              exact ⟨site.node :: members, limit, .member hleads hlimit hasks howner hsite h, rfl⟩
            · cases hok

/-- By strong induction on the room: the loops with the higher limits go where the others go, so a
loop that fails early has come to too many nodes or to a frame that fails. -/
theorem meetsLimitWithin (room : Nat) : MeetsLimitWithin a scopes o o' c room := by
  induction room using Nat.strongRecOn with
  | _ room ih =>
    intro room' req e t hroom hfails hok
    cases room with
    | zero =>
      rw [resolveIn] at hfails
      cases hfails
      exact ⟨[], _, .nesting req, rfl⟩
    | succ room =>
      obtain ⟨room', rfl⟩ : ∃ n, room' = n + 1 := ⟨room' - 1, by omega⟩
      have hroom := Nat.le_of_succ_le_succ hroom
      have hsmall := isTransparent_deeper (Env.mk a scopes o) room
      have hlarge := isTransparent_deeper_of_options a scopes o o' room'
      have hmono (node : Link) (s : Step) (h : frameAnswer ((Env.mk a scopes o).step
          ⟨(Env.mk a scopes o).resolveIn room, (Env.mk a scopes o).memberIn room⟩ req) c node =
            .ok s) : frameAnswer ((Env.mk a scopes o').step
          ⟨(Env.mk a scopes o').resolveIn room', (Env.mk a scopes o').memberIn room'⟩ req) c node =
            .ok s := by
        rw [step_of_blockValue_eq a scopes hblock]
        exact answer_step_of_below hsmall hlarge (below_of_room a scopes hblock hframes c hroom) h
      have hstep := transparent_step hsmall req
      have hstep' := transparent_step (isTransparent_deeper (Env.mk a scopes o') room') req
      rcases exists_stopped_or_repeat hsmall req c { node := req.node } with
        ⟨nodes, last, outcome, hleads, hlast⟩ | ⟨nodes, last, hleads, hnodup, hlast⟩
      · by_cases hlimit : nodes.length < o.maxFrames
        · rw [answer_resolveIn_succ, outcome_run_of_stopped hstep hleads hlast, if_pos hlimit]
            at hfails
          subst hfails
          obtain ⟨s, hs⟩ := exists_frameAnswer_of_ok hok (hleads.mono hmono)
          exact exists_meetsLimit_of_frame hblock hframes hroom
            (fun k hk => ih k (Nat.lt_succ_of_le hk)) hleads hlimit
            (Progress.eq_error_of_after hlast) hs
        · have hnodup := (List.nodup_append.mp (hleads.nodup_of_stopped hlast)).1
          have hlimit := Nat.not_lt.mp hlimit
          rw [answer_resolveIn_succ, outcome_run_of_limit hstep hleads hnodup hlimit] at hfails
          cases hfails
          exact ⟨[], _, .frames hleads hnodup hlimit, rfl⟩
      · rw [answer_resolveIn_succ, outcome_run_of_repeat hstep' (hleads.mono hmono) hnodup hlast]
          at hok
        cases hok

end Below

/-- How a limit is reported. If the type of a node is found with some limits, and with lower ones
the resolution fails, then it has met a limit there, perhaps in the types of members. It is reported
as that limit exactly if it was not met in the type of a member; else the failure says that the
outermost of these members has no type. And whenever a resolution meets a limit, it fails in this
way. -/
theorem limit_reported_outside_members (a : Arena) (scopes : ScopeTable) {o o' : Options}
    (h : o.Below o') (c : Cache) (req : Request) :
    let small : Env := ⟨a, scopes, o⟩
    let large : Env := ⟨a, scopes, o'⟩
    (∀ e t, c.answer (small.tryResolve req).run = .error e →
      c.answer (large.tryResolve req).run = .ok t →
      ∃ members limit, small.MeetsLimit c small.room req members limit ∧
        e = limit.outside a members ∧
        e.failureClass = if members = [] then .limit else .lookup) ∧
    ∀ members limit, small.MeetsLimit c small.room req members limit →
      limit.failureClass = .limit ∧
      c.answer (small.tryResolve req).run = .error (limit.outside a members) := by
  intro small large
  constructor
  · intro e t hfails hok
    obtain ⟨members, limit, hmeets, he⟩ := meetsLimitWithin h.blockValue h.maxFrames small.room
      large.room req e t (Nat.succ_le_succ h.maxNesting) hfails hok
    exact ⟨members, limit, hmeets, he, he ▸ failureClass_outside a hmeets.failureClass_eq members⟩
  · intro members limit hmeets
    exact ⟨hmeets.failureClass_eq, hmeets.answer_eq⟩

/-- A class with a field, and another one whose value is this field of the object itself. -/
def fieldOfField : Program :=
  let (root, a) := Dump.read .empty "(module (class (id C) x x x (members
    (flet (id f) (nominal x (id C))) (flet (id g) (. (this) (id f))))))"
  .ofRoot a root.toOption

theorem limit_reported_outside_members_fieldOfField :
    let small := fieldOfField.env { maxNesting := 1 }
    let large := fieldOfField.env { maxNesting := 2 }
    let t : NominalType := ⟨⟨1, .classDef, "C", "", .unknown, [], [], none⟩, []⟩
    small.options.Below large.options ∧
    (Cache.empty.answer (small.tryResolve { node := some 14 }).run = .error (.untyped .letField) ∧
      Cache.empty.answer (large.tryResolve { node := some 14 }).run = .ok t) ∧
    ∃ members limit, small.MeetsLimit .empty small.room { node := some 14 } members limit ∧
      limit.failureClass = .limit ∧ members ≠ [] := by
  intro small large t
  have hbelow : small.options.Below large.options := ⟨rfl, by decide, by decide⟩
  obtain ⟨hfails, hok⟩ :
      Cache.empty.answer (small.tryResolve { node := some 14 }).run = .error (.untyped .letField) ∧
      Cache.empty.answer (large.tryResolve { node := some 14 }).run = .ok t := by
    decide +kernel
  obtain ⟨hmeets, hreports⟩ := limit_reported_outside_members fieldOfField.arena fieldOfField.scopes
    hbelow .empty { node := some 14 }
  obtain ⟨members, limit, hlimit, _, hclass⟩ := hmeets _ t hfails hok
  refine ⟨hbelow, ⟨hfails, hok⟩, members, limit, hlimit, (hreports members limit hlimit).1, ?_⟩
  rintro rfl
  cases hclass

/-- The type of the second field is found with two levels of nesting. With one, that of the first
field is not found any more, and the failure of the second one is no failure of a limit. -/
theorem limit_hidden_by_member :
    ((fieldOfField.env { maxNesting := 2 }).options.blockValue =
        (fieldOfField.env { maxNesting := 1 }).options.blockValue ∧
      (Cache.empty.answer ((fieldOfField.env { maxNesting := 2 }).tryResolve
        { node := some 14 }).run).isOk = true) ∧
    Cache.empty.answer ((fieldOfField.env { maxNesting := 1 }).tryResolve { node := some 14 }).run =
      .error (.untyped .letField) ∧
    (ResolveError.untyped .letField).failureClass = .lookup := by
  decide +kernel

end Env

end PonyLens
