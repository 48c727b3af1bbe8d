import PonyLens.Proofs.Editor.Agreement
import PonyLens.Proofs.Resolution.Bounds
import PonyLens.Types.Collector

/-!
# One member and all members

A collector can be asked for one member of a type or for all of them, and it can be asked again and
again. Its walks share a guard, but each of them leaves the limits of the guard as they are, and the
next one resets the rest; so a collector answers as a new one does. A member that is looked up by
name is the one of this name in the list of all members, since the names in the list are distinct.
The member of an access is looked up one level deeper, and its type is the type of the access.
-/

namespace PonyLens

namespace Collector

variable {env : Env} {c : Cache} {t : NominalType} {name : String} {nesting : Nat}

inductive Question where
  | sites (type : NominalType)
  | members (type : NominalType)
  | member (type : NominalType) (name : String)
deriving DecidableEq

inductive Answer where
  | sites (sites : List MemberSite)
  | members (members : Except ResolveError (List Member))
  | member (member : Except ResolveError (Option Member))

def ask (env : Env) : Question → CollectM Answer
  | .sites t => .sites <$> sites env t
  | .members t => .members <$> members env t
  | .member t name => .member <$> member env t name

/-- The answer to a question that is nested so deep, with a walk of its own. -/
def asked (env : Env) (nesting : Nat) : Question → CacheM Answer
  | .sites t => .sites <$> env.memberSites t
  | .members t => .members <$> (env.calls.members nesting t).run
  | .member t name => .member <$> (env.calls.member nesting t name).run

/-! ### A used collector -/

structure IsAt (k : Collector) (nesting : Nat) : Prop where
  nesting_eq : k.nesting = nesting
  reset_guard : k.guard.reset = ({} : Inheritance).guard

theorem isAt_new (nesting : Nat) : IsAt { nesting } nesting := ⟨rfl, rfl⟩

theorem reset_guard_inheritance (env : Env) (t : NominalType) (c : Cache) :
    ((env.inheritance t).run c).1.guard.reset = ({} : Inheritance).guard := by
  obtain ⟨calls, i, c', -, hrun, hbounds⟩ := env.exists_collectionBounds t c
  obtain ⟨hdepth, hvisits⟩ := Guard.limits_after ({} : Inheritance).guard calls
  rw [hrun, Guard.reset, ← hbounds.after_eq, hdepth, hvisits]

/-- On every collector with this nesting `x` does what `y` does, and it leaves such a collector. -/
def AnswersAs {α : Type} (nesting : Nat) (x : CollectM α) (y : CacheM α) : Prop :=
  ∀ k : Collector, k.IsAt nesting → ∀ c, ∃ k' : Collector, k'.IsAt nesting ∧
    (x.run k).run c = (((y.run c).1, k'), (y.run c).2)

namespace AnswersAs

variable {α β : Type} {x : CollectM α} {y : CacheM α}

protected theorem pure (nesting : Nat) (a : α) : AnswersAs nesting (pure a) (pure a) :=
  fun k hk _ => ⟨k, hk, rfl⟩

protected theorem bind {f : α → CollectM β} {g : α → CacheM β} (hx : AnswersAs nesting x y)
    (hf : ∀ a, AnswersAs nesting (f a) (g a)) : AnswersAs nesting (x >>= f) (y >>= g) := by
  intro k hk c
  obtain ⟨k', hk', hrun⟩ := hx k hk c
  obtain ⟨k'', hk'', hrun'⟩ := hf (y.run c).1 k' hk' (y.run c).2
  refine ⟨k'', hk'', ?_⟩
  rw [StateT.run_bind, StateT.run_bind, hrun]
  exact hrun'

protected theorem map (hx : AnswersAs nesting x y) (f : α → β) :
    AnswersAs nesting (f <$> x) (f <$> y) :=
  hx.bind fun a => .pure nesting (f a)

theorem mapM {f : α → CollectM β} {g : α → CacheM β} (hf : ∀ a, AnswersAs nesting (f a) (g a))
    (l : List α) : AnswersAs nesting (l.mapM f) (l.mapM g) := by
  induction l with
  | nil => exact .pure nesting []
  | cons a l ih =>
    rw [List.mapM_cons, List.mapM_cons]
    exact (hf a).bind fun b => ih.bind fun bs => .pure nesting (b :: bs)

theorem get_nesting {f : Nat → CollectM α} (h : AnswersAs nesting (f nesting) y) :
    AnswersAs nesting (do f (← get).nesting) y := by
  intro k hk c
  obtain ⟨k', hk', hrun⟩ := h k hk c
  refine ⟨k', hk', ?_⟩
  rw [← hrun, ← hk.nesting_eq]
  rfl

theorem answer_run' (h : AnswersAs nesting x y) (c : Cache) :
    c.answer (x.run' { nesting }) = c.answer y := by
  obtain ⟨k', _, hrun⟩ := h { nesting } (isAt_new nesting) c
  exact congrArg (fun r => r.1.1) hrun

end AnswersAs

/-- A walk starts from the limits alone, whatever was walked before. -/
theorem answersAs_sites (env : Env) (nesting : Nat) (t : NominalType) :
    AnswersAs nesting (sites env t) (env.memberSites t) := by
  intro k hk c
  have hstart : ({ guard := k.guard.reset } : Inheritance) = {} := by rw [hk.reset_guard]
  have hrun : ((sites env t).run k).run c =
      (fun r => ((r.1.found, { k with guard := r.1.guard }), r.2)) ((env.inheritance t).run c) := by
    rw [Env.inheritance, ← hstart]
    rfl
  refine ⟨{ k with guard := ((env.inheritance t).run c).1.guard }, ⟨hk.nesting_eq, ?_⟩, hrun⟩
  exact reset_guard_inheritance env t c

theorem answersAs_memberAt (env : Env) (nesting : Nat) (site : MemberSite) :
    AnswersAs nesting (memberAt env site)
      (env.memberAt (env.calls.resolve (nesting + 1)) site) := by
  intro k hk c
  refine ⟨k, hk, ?_⟩
  rw [← hk.nesting_eq]
  rfl

theorem AnswersAs.limited {α : Type} {x : CollectM α} {y : CacheM α} (h : AnswersAs nesting x y)
    (env : Env) : AnswersAs nesting (Collector.limited env x) (env.limited nesting y).run := by
  refine .get_nesting (f := fun n =>
    if env.options.maxNesting < n then
      return Except.error (ResolveError.depthExceeded env.options.maxNesting)
    else return Except.ok (← x)) ?_
  rcases Nat.lt_or_ge env.options.maxNesting nesting with hlt | hle
  · rw [if_pos hlt, Env.limited_of_lt hlt]
    exact .pure nesting _
  · rw [if_neg (Nat.not_lt.mpr hle), Env.limited_of_le hle]
    exact h.map Except.ok

theorem answersAs_members (env : Env) (nesting : Nat) (t : NominalType) :
    AnswersAs nesting (members env t) (env.calls.members nesting t).run := by
  rw [Env.calls_eq_callsOnce]
  exact ((answersAs_sites env nesting t).bind fun sites =>
    .mapM (answersAs_memberAt env nesting) sites).limited env

theorem answersAs_member (env : Env) (nesting : Nat) (t : NominalType) (name : String) :
    AnswersAs nesting (member env t name) (env.calls.member nesting t name).run := by
  rw [Env.calls_eq_callsOnce]
  refine AnswersAs.limited ((answersAs_sites env nesting t).bind fun sites => ?_) env
  cases sites.find? (·.name == name) with
  | some site => exact (answersAs_memberAt env nesting site).map some
  | none => exact .pure nesting none

theorem answersAs_ask (env : Env) (nesting : Nat) (q : Question) :
    AnswersAs nesting (ask env q) (asked env nesting q) := by
  cases q with
  | sites t => exact (answersAs_sites env nesting t).map Answer.sites
  | members t => exact (answersAs_members env nesting t).map Answer.members
  | member t name => exact (answersAs_member env nesting t name).map Answer.member

/-! ### Answers -/

theorem transparent_limited {α : Type} {call : ResolveM α} (h : env.Transparent call.run)
    (nesting : Nat) : env.Transparent (env.limited nesting call).run := by
  rcases Nat.lt_or_ge env.options.maxNesting nesting with hlt | hle
  · rw [Env.limited_of_lt hlt]
    exact .throw _
  · rw [Env.limited_of_le hle]
    exact h

theorem transparent_asked (env : Env) (nesting : Nat) (q : Question) :
    env.Transparent (asked env nesting q) := by
  have hresolve := (Env.isTransparent_deeper env (env.room - (nesting + 1))).resolve
  rw [asked.eq_def, Env.calls_eq_callsOnce]
  cases q with
  | sites t => exact (Env.transparent_memberSites env t).map _
  | members t =>
    have hmembers := Env.transparent_membersWith hresolve t
    exact (transparent_limited (hmembers.map Except.ok) nesting).map _
  | member t name =>
    have hmember := Env.transparent_memberWith hresolve t name
    exact (transparent_limited (hmember.map Except.ok) nesting).map _

/-- A collector that is asked again and again answers as a new one does, also if the cache has been
filled meanwhile. -/
theorem answer_mapM_ask {c' : Cache} (h : env.Fills c c') (nesting : Nat) (qs : List Question) :
    c'.answer ((qs.mapM (ask env)).run' { nesting }) =
      qs.map fun q => c.answer ((ask env q).run' { nesting }) := by
  have hask := answersAs_ask env nesting
  have hasked := transparent_asked env nesting
  calc c'.answer ((qs.mapM (ask env)).run' { nesting })
      = c'.answer (qs.mapM (asked env nesting)) := (AnswersAs.mapM hask qs).answer_run' c'
    _ = c.answer (qs.mapM (asked env nesting)) := (Env.Transparent.mapM hasked qs c c' h).1
    _ = qs.map fun q => c.answer (asked env nesting q) := Env.answer_mapM hasked qs
    _ = _ := List.map_congr_left fun q _ => ((hask q).answer_run' c).symm

/-! ### One of all members -/

theorem exists_ok_members_iff (env : Env) (c : Cache) (nesting : Nat) (t : NominalType) :
    (∃ ms, c.answer (env.calls.members nesting t).run = .ok ms) ↔
      nesting ≤ env.options.maxNesting := by
  rw [Env.calls_eq_callsOnce]
  rcases Nat.lt_or_ge env.options.maxNesting nesting with hlt | hle
  · simp only [Env.callsOnce, Env.limited_of_lt hlt]
    refine iff_of_false ?_ (Nat.not_le.mpr hlt)
    rintro ⟨ms, ⟨⟩⟩
  · simp only [Env.callsOnce, Env.limited_of_le hle]
    exact iff_of_true ⟨_, rfl⟩ hle

theorem picks_calls (env : Env) (c : Cache) (nesting : Nat) (t : NominalType) (name : String) :
    Picks name (c.answer (env.calls.members nesting t).run)
      (c.answer (env.calls.member nesting t name).run) := by
  have hresolve := (Env.isTransparent_deeper env (env.room - (nesting + 1))).resolve
  rw [Env.calls_eq_callsOnce]
  rcases Nat.lt_or_ge env.options.maxNesting nesting with hlt | hle
  · simp only [Env.callsOnce, Env.limited_of_lt hlt]
    exact .failed _
  · simp only [Env.callsOnce, Env.limited_of_le hle]
    exact Env.picks_membersWith hresolve c t name

/-! ### The member of an access -/

theorem one_le_maxFrames {room : Nat} {req : Request}
    (h : c.answer (env.resolveIn room req).run = .ok t) : 1 ≤ env.options.maxFrames := by
  cases room with
  | zero => cases h
  | succ room =>
    by_contra hframes
    have hstep := Env.transparent_step (Env.isTransparent_deeper env room) req
    rw [Env.answer_resolveIn_succ, Env.outcome_run_of_limit hstep (.refl _) List.nodup_nil
      (Nat.not_lt.mp hframes)] at h
    cases h

theorem after_map_done (r : Except ResolveError NominalType) :
    Progress.after (r.map Step.done) = .stopped r := by
  cases r <;> rfl

theorem bind_map_done {α : Type} (r : Except ResolveError α)
    (f : α → Except ResolveError NominalType) :
    (r.bind fun a => (f a).map Step.done) = (r.bind f).map Step.done := by
  cases r <;> rfl

/-- The type of `.name` is that of the member, if the receiver has a type. -/
theorem answer_resolve_of_namesMember {node : NodeId} (h : env.NamesMember node)
    {context : Option NominalType} {bindings : List (String × NominalType)} {owner : NominalType}
    (howner : c.answer (env.calls.resolve (nesting + 1)
      { node := env.arena.child (some node) 0, context, bindings }).run = .ok owner) :
    c.answer (env.calls.resolve nesting { node := some node, context, bindings }).run =
      (c.answer (env.calls.member (nesting + 1) owner (env.accessName node)).run).bind
        (env.typeOfMember owner (env.accessName node)) := by
  simp only [Env.calls] at howner ⊢
  have hroom : env.room - nesting = env.room - (nesting + 1) + 1 := by
    have hne : env.room - (nesting + 1) ≠ 0 := by
      intro hzero
      rw [hzero] at howner
      cases howner
    omega
  generalize env.room - (nesting + 1) = room at howner hroom ⊢
  have hdeeper := Env.isTransparent_deeper env room
  have hstep := Env.transparent_step hdeeper { node := some node, context, bindings }
  -- The frame of the node ends the loop at once.
  have hanswer : Env.frameAnswer (env.step ⟨env.resolveIn room, env.memberIn room⟩
      { node := some node, context, bindings }) c (some node) =
      ((c.answer (env.memberIn room owner (env.accessName node)).run).bind
        (env.typeOfMember owner (env.accessName node))).map Step.done := by
    rw [Env.frameAnswer, h.answer_step hdeeper, Env.answerTo]
    simp only [Env.receiverRequest, howner]
    exact bind_map_done _ _
  have hstopped := (congrArg Progress.after hanswer).trans (after_map_done _)
  rw [hroom, Env.answer_resolveIn_succ, Env.outcome_run_of_stopped hstep (.refl _) hstopped]
  exact if_pos (one_le_maxFrames howner)

/-- A member that is looked up has a type exactly if a member of the list with this name has it. -/
theorem bind_typeOfMember_of_picks {owner : NominalType}
    {listed : Except ResolveError (List Member)} {found : Except ResolveError (Option Member)}
    (h : Picks name listed found) :
    found.bind (env.typeOfMember owner name) = .ok t ↔
      ∃ ms, listed = .ok ms ∧ ∃ m ∈ ms, m.name = name ∧ m.type = some t := by
  cases h with
  | failed e =>
    constructor
    · rintro ⟨⟩
    · rintro ⟨ms, ⟨⟩, _⟩
  | @found ms found hfound hunique =>
    have hmember : env.typeOfMember owner name found = .ok t ↔
        ∃ m, (m ∈ ms ∧ m.name = name) ∧ m.type = some t := by
      simp only [Env.typeOfMember_eq_ok_iff, hfound]
    refine hmember.trans ⟨fun ⟨m, ⟨hmem, hname⟩, htype⟩ => ?_, ?_⟩
    · exact ⟨ms, rfl, m, hmem, hname, htype⟩
    · rintro ⟨ms', hms, m, hmem, hname, htype⟩
      cases hms
      exact ⟨m, ⟨hmem, hname⟩, htype⟩

/-! ### Agreement -/

/-- One member and all members of a type agree, for a collector of any nesting, whatever the cache
holds.

A collector answers any questions in a row as new ones would, also if the cache has been filled
meanwhile. It lists members unless it is nested too deep. A look-up by name fails exactly if the
list does, and with the same failure; if not, it finds the member of the list with this name, which
is the only one. And `.name` after a receiver that has a type has the type of the member with this
name in the list that is made one level deeper, and no type if there is no such member or it has
none. -/
theorem member_agrees_with_members (env : Env) (c : Cache) (nesting : Nat) :
    (∀ c', env.Fills c c' → ∀ qs : List Question,
      c'.answer ((qs.mapM (ask env)).run' { nesting }) =
        qs.map fun q => c.answer ((ask env q).run' { nesting })) ∧
    (∀ t, ((∃ ms, c.answer ((members env t).run' { nesting }) = .ok ms) ↔
        nesting ≤ env.options.maxNesting) ∧
      ∀ name, Picks name (c.answer ((members env t).run' { nesting }))
        (c.answer ((member env t name).run' { nesting }))) ∧
    ∀ node, env.NamesMember node → ∀ context bindings owner,
      c.answer (env.calls.resolve (nesting + 1)
        { node := env.arena.child (some node) 0, context, bindings }).run = .ok owner →
      ∀ t, c.answer (env.calls.resolve nesting { node := some node, context, bindings }).run =
          .ok t ↔
        ∃ ms, c.answer ((members env owner).run' { nesting := nesting + 1 }) = .ok ms ∧
          ∃ m ∈ ms, m.name = env.accessName node ∧ m.type = some t := by
  have hmembers (n : Nat) (t : NominalType) := (answersAs_members env n t).answer_run' c
  have hmember (n : Nat) (t : NominalType) (name : String) :=
    (answersAs_member env n t name).answer_run' c
  refine ⟨fun c' h qs => answer_mapM_ask h nesting qs, fun t => ⟨?_, fun name => ?_⟩, ?_⟩
  · rw [hmembers]
    exact exists_ok_members_iff env c nesting t
  · rw [hmembers, hmember]
    exact picks_calls env c nesting t name
  · intro node hnode context bindings owner howner t
    rw [answer_resolve_of_namesMember hnode howner, hmembers]
    exact bind_typeOfMember_of_picks (picks_calls env c (nesting + 1) owner _)

theorem exists_ok_of_isSome {α : Type} {r : Except ResolveError α}
    (h : r.toOption.isSome = true) : ∃ a, r = .ok a := by
  cases r with
  | ok a => exact ⟨a, rfl⟩
  | error e => cases h

theorem member_agrees_with_members_selfCaller :
    let env := selfCaller.env {}
    ∃ owner t ms,
      Cache.empty.answer (env.calls.resolve 1 { node := env.arena.child (some 16) 0 }).run =
        .ok owner ∧
      Cache.empty.answer (env.calls.resolve 0 { node := some 16 }).run = .ok t ∧
      Cache.empty.answer ((members env owner).run' { nesting := 1 }) = .ok ms ∧
      ∃ m ∈ ms, m.name = "f" ∧ m.type = some t := by
  intro env
  obtain ⟨hkind, hname, howner, htype⟩ :
      env.arena.kind? (some 16) = some .dot ∧ env.accessName 16 = "f" ∧
      (Cache.empty.answer (env.calls.resolve 1
        { node := env.arena.child (some 16) 0 }).run).toOption.isSome = true ∧
      (Cache.empty.answer (env.calls.resolve 0
        { node := some 16 }).run).toOption.isSome = true := by
    decide +kernel
  obtain ⟨owner, howner⟩ := exists_ok_of_isSome howner
  obtain ⟨t, htype⟩ := exists_ok_of_isSome htype
  obtain ⟨_, _, haccess⟩ := member_agrees_with_members env .empty 0
  obtain ⟨ms, hms, hmember⟩ :=
    (haccess 16 ⟨.dot, hkind, .inl rfl⟩ none [] owner howner t).mp htype
  exact ⟨owner, t, ms, howner, htype, hms, hname ▸ hmember⟩

end Collector

end PonyLens
