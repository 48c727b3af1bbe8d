import PonyLens.Proofs.Cache.Answers

/-!
# What a frame asks for

A frame has its answer by itself, or it takes the type of one other node, resolved one level deeper,
or it takes the type of a member of such a type. Which of the three it is and what is asked for does
not depend on the deeper resolutions, so that frames can be compared between runs in which these
answer differently.
-/

namespace PonyLens

inductive Asks where
  | nothing (answer : Except ResolveError Step)
  /-- The type of a node, from which the frame makes its own. -/
  | type (request : Request) (use : NominalType → NominalType)
  /-- The type of a member of the type of a node. -/
  | member (request : Request) (name : String)

namespace Env

variable {env : Env} {deeper : Deeper} {c : Cache}

def typeOfMember (env : Env) (owner : NominalType) (name : String) :
    Option Member → Except ResolveError NominalType
  | none => .error (.memberNotFound owner.name name)
  | some m =>
    match m.type with
    | some t => .ok t
    | none => .error (.untyped ((env.arena.kind? (some m.definition)).getD .absent))

theorem answer_memberType (hdeeper : deeper.IsTransparent env) (owner : NominalType)
    (name : String) :
    c.answer (env.memberType deeper owner name).run =
      (c.answer (deeper.member owner name).run).bind (env.typeOfMember owner name) := by
  rw [memberType, answer_andThen (hdeeper.member owner name)]
  · congr 1
    funext m
    cases m with
    | none => rfl
    | some m =>
      dsimp only [typeOfMember]
      cases m.type <;> rfl
  · intro m
    split
    · exact .throw _
    · split
      · exact .ok _
      · exact .throw _

/-- What a node names, and then the type of the definition with the arguments that are written. -/
theorem answer_namedType {node : Link} {kind : Kind} (req : Request)
    (hkind : env.arena.kind? node = some kind) (hrule : kind.typeRule = .named) :
    c.answer (env.namedType req node).run =
      (c.answer (env.nominalDefinition node).run).bind fun d =>
        match NominalType.ofDefinition? env.arena d with
        | none => .error (.untyped .nominal)
        | some t =>
          if env.arena.is (env.arena.child node 2) .typeArgs then
            .ok (t.bindArguments env.arena (env.arena.child node 2) req.context)
          else .ok t := by
  rw [namedType, answer_andThen (transparent_nominalDefinition hkind hrule)]
  · congr 1
    funext d
    cases NominalType.ofDefinition? env.arena d with
    | none => rfl
    | some t =>
      dsimp only
      split <;> rfl
  · intro d
    split
    · exact .throw _
    · dsimp only
      split <;> exact .ok _

def answerTo (env : Env) (deeper : Deeper) (c : Cache) : Asks → Except ResolveError Step
  | .nothing answer => answer
  | .type request use => (c.answer (deeper.resolve request).run).map fun t => .done (use t)
  | .member request name =>
    (c.answer (deeper.resolve request).run).bind fun owner =>
      (c.answer (deeper.member owner name).run).bind fun m =>
        (env.typeOfMember owner name m).map .done

theorem map_eq_error {α β : Type} {r : Except ResolveError α} {f : α → β} {e : ResolveError}
    (h : r.map f = .error e) : r = .error e := by
  cases r with
  | ok a => cases h
  | error e' =>
    cases h
    rfl

theorem bind_eq_error {α β : Type} {r : Except ResolveError α} {f : α → Except ResolveError β}
    {e : ResolveError} (h : r.bind f = .error e) :
    r = .error e ∨ ∃ a, r = .ok a ∧ f a = .error e := by
  cases r with
  | ok a => exact .inr ⟨a, rfl, h⟩
  | error e' =>
    cases h
    exact .inl rfl

theorem bind_eq_ok {α β : Type} {r : Except ResolveError α} {f : α → Except ResolveError β} {b : β}
    (h : r.bind f = .ok b) : ∃ a, r = .ok a ∧ f a = .ok b := by
  cases r with
  | error e => cases h
  | ok a => exact ⟨a, rfl, h⟩

/-- If the computation fails, then not because of a limit. -/
def FailsWithoutLimit {α : Type} (r : Except ResolveError α) : Prop :=
  ∀ e, r = .error e → e.failureClass ≠ .limit

section FailsWithoutLimit

variable {α β : Type}

theorem failsWithoutLimit_ok (a : α) : FailsWithoutLimit (.ok a) := by
  intro e h
  cases h

theorem failsWithoutLimit_error {e : ResolveError} (h : (e.failureClass == .limit) = false) :
    FailsWithoutLimit (.error e : Except ResolveError α) := by
  intro e' he
  cases he
  exact beq_eq_false_iff_ne.mp h

theorem FailsWithoutLimit.bind {r : Except ResolveError α} {f : α → Except ResolveError β}
    (hr : FailsWithoutLimit r) (hf : ∀ a, FailsWithoutLimit (f a)) :
    FailsWithoutLimit (r.bind f) := by
  cases r with
  | ok a => exact hf a
  | error e => exact failsWithoutLimit_error (beq_eq_false_iff_ne.mpr (hr e rfl))

theorem failsWithoutLimit_typeDefinition (env : Env) (name : String) (symbol : Option Symbol) :
    FailsWithoutLimit (env.typeDefinition name symbol) := by
  cases symbol with
  | none => exact failsWithoutLimit_error rfl
  | some s =>
    dsimp only [typeDefinition]
    split
    · exact failsWithoutLimit_ok _
    · exact failsWithoutLimit_error rfl

theorem failsWithoutLimit_namedDefinition (env : Env) (l : Link) :
    FailsWithoutLimit (env.namedDefinition l) := by
  rw [namedDefinition]
  split
  · split
    · split
      · exact failsWithoutLimit_typeDefinition env _ _
      · exact failsWithoutLimit_error rfl
    · exact failsWithoutLimit_error rfl
  · exact failsWithoutLimit_typeDefinition env _ _

theorem failsWithoutLimit_cachedDefinition {l : Link} {find : Except ResolveError NodeId}
    (h : FailsWithoutLimit find) (c : Cache) :
    FailsWithoutLimit (c.answer (env.cachedDefinition l find).run) := by
  rw [Cache.answer]
  cases hl : c.find? l with
  | some bound =>
    rw [cachedDefinition_of_bound hl]
    exact failsWithoutLimit_ok _
  | none =>
    cases find with
    | ok d =>
      rw [cachedDefinition_of_free hl]
      exact failsWithoutLimit_ok _
    | error e =>
      rw [cachedDefinition_of_error hl]
      exact failsWithoutLimit_error (beq_eq_false_iff_ne.mpr (h e rfl))

theorem failsWithoutLimit_follow (kind : Kind) (target : Link) (c : Cache) :
    FailsWithoutLimit (c.answer (follow kind target).run) := by
  cases target with
  | some n => exact failsWithoutLimit_ok _
  | none => exact failsWithoutLimit_error rfl

theorem failsWithoutLimit_selfType (env : Env) (req : Request) (node : Link) (c : Cache) :
    FailsWithoutLimit (c.answer (env.selfType req node).run) := by
  have hplain (definition : Link) :
      FailsWithoutLimit (c.answer (selfType.plain env.arena definition).run) := by
    rw [selfType.plain]
    split
    · exact failsWithoutLimit_ok _
    · exact failsWithoutLimit_error rfl
  rw [selfType]
  split
  · exact failsWithoutLimit_error rfl
  · split
    · exact failsWithoutLimit_ok _
    · exact hplain _
  · exact hplain _

theorem failsWithoutLimit_namedType {node : Link} {kind : Kind} (req : Request)
    (hkind : env.arena.kind? node = some kind) (hrule : kind.typeRule = .named) (c : Cache) :
    FailsWithoutLimit (c.answer (env.namedType req node).run) := by
  rw [answer_namedType req hkind hrule]
  apply (failsWithoutLimit_cachedDefinition (failsWithoutLimit_namedDefinition env node) c).bind
  intro d
  split
  · exact failsWithoutLimit_error rfl
  · split <;> exact failsWithoutLimit_ok _

end FailsWithoutLimit

def receiverRequest (env : Env) (req : Request) (node : Link) : Request :=
  { req with node := env.arena.child node 0 }

/-- Whether the computation needs what is asked for, and nothing else from deeper resolutions. Where
it needs nothing it does not run into a limit. -/
structure AsksFor (env : Env) (c : Cache) (x : Deeper → ResolveM Step) (asks : Asks) : Prop where
  failsWithoutLimit : ∀ r, asks = .nothing r → FailsWithoutLimit r
  answer_eq : ∀ deeper, deeper.IsTransparent env →
    c.answer (x deeper).run = env.answerTo deeper c asks

theorem asksFor_nothing {x : ResolveM Step} (h : FailsWithoutLimit (c.answer x.run)) :
    env.AsksFor c (fun _ => x) (.nothing (c.answer x.run)) where
  failsWithoutLimit := by
    rintro r ⟨⟩
    exact h
  answer_eq _ _ := rfl

theorem asksFor_resolve (request : Request) (use : NominalType → NominalType) :
    env.AsksFor c (fun deeper => do return .done (use (← deeper.resolve request)))
      (.type request use) where
  failsWithoutLimit _ h := by cases h
  answer_eq deeper hdeeper := by
    rw [answer_andThen (hdeeper.resolve request) fun t => .ok _]
    rfl

theorem asksFor_receiver_member (req : Request) (node : Link) (name : String) :
    env.AsksFor c
      (fun deeper => do
        return .done (← env.memberType deeper (← env.receiver deeper req node) name))
      (.member (env.receiverRequest req node) name) where
  failsWithoutLimit _ h := by cases h
  answer_eq deeper hdeeper := by
    have hmember (owner : NominalType) := transparent_memberType hdeeper owner name
    rw [answer_andThen (transparent_receiver hdeeper req node)
      fun owner => (hmember owner).andThen fun t => .ok _, answerTo]
    congr 1
    funext owner
    rw [answer_andThen (hmember owner) fun t => .ok _, answer_memberType hdeeper]
    cases c.answer (deeper.member owner name).run with
    | error e => rfl
    | ok m =>
      dsimp only [Except.bind]
      cases env.typeOfMember owner name m <;> rfl

theorem exists_asksFor_typeParameter (env : Env) (c : Cache) (req : Request) (node : Link) :
    ∃ asks, env.AsksFor c (fun deeper => do return .done (← env.typeParameter deeper req node))
      asks := by
  simp only [typeParameter]
  split
  · exact ⟨_, asksFor_nothing (failsWithoutLimit_ok _)⟩
  · simp only [typeArgumentWith]
    split
    · exact ⟨_, asksFor_resolve _ id⟩
    · exact ⟨_, asksFor_nothing (failsWithoutLimit_error rfl)⟩
  · exact ⟨_, asksFor_nothing (failsWithoutLimit_error rfl)⟩

theorem exists_asksFor_reference (env : Env) (c : Cache) (req : Request) (node : Link)
    (kind : Kind) :
    ∃ asks, env.AsksFor c (fun deeper => env.reference deeper req node kind) asks := by
  simp only [reference]
  split
  · refine ⟨_, asksFor_nothing ?_⟩
    split
    · exact failsWithoutLimit_follow kind _ c
    · exact failsWithoutLimit_error rfl
  · split
    · exact ⟨_, asksFor_receiver_member req node _⟩
    · exact ⟨_, asksFor_nothing (failsWithoutLimit_error rfl)⟩

theorem exists_asksFor_step (env : Env) (c : Cache) (req : Request) (node : Link) :
    ∃ asks, env.AsksFor c (fun deeper => env.step deeper req node) asks := by
  have self : ∃ asks, env.AsksFor c (fun _ => do return .done (← env.selfType req node)) asks := by
    refine ⟨_, asksFor_nothing ?_⟩
    rw [answer_andThen (transparent_selfType env req node) fun t => .ok _]
    exact (failsWithoutLimit_selfType env req node c).bind fun t => failsWithoutLimit_ok _
  have next (kind : Kind) (target : Link) :
      ∃ asks, env.AsksFor c (fun _ => follow kind target) asks :=
    ⟨_, asksFor_nothing (failsWithoutLimit_follow kind target c)⟩
  simp only [step]
  split
  · exact ⟨_, asksFor_nothing (failsWithoutLimit_error rfl)⟩
  · rename_i kind hkind
    cases hrule : kind.typeRule with
    | definition =>
      refine ⟨_, asksFor_nothing ?_⟩
      split
      · exact failsWithoutLimit_ok _
      · exact failsWithoutLimit_error rfl
    | builtin name =>
      have hfind : ∀ n, node = some n →
          env.uncached? n = (env.builtinDefinition node name).toOption := by
        rintro n rfl
        exact uncached?_of_builtin hkind hrule
      have hanswer := answer_andThen (c := c) (transparent_cachedDefinition hfind)
        fun d => transparent_follow env kind d
      refine ⟨_, asksFor_nothing (hanswer ▸ ?_)⟩
      exact (failsWithoutLimit_cachedDefinition (failsWithoutLimit_typeDefinition env _ _) c).bind
        fun d => failsWithoutLimit_follow kind d c
    | openLiteral =>
      refine ⟨_, asksFor_nothing ?_⟩
      exact failsWithoutLimit_follow kind ((c.find? node).getD (env.arena.child node 0)) c
    | typeParameter => exact exists_asksFor_typeParameter env c req node
    | named =>
      have hanswer := answer_andThen (c := c) (f := fun t => (pure (.done t) : ResolveM Step))
        (transparent_namedType req hkind hrule) fun t => .ok _
      refine ⟨_, asksFor_nothing (hanswer ▸ ?_)⟩
      exact (failsWithoutLimit_namedType req hkind hrule c).bind fun t => failsWithoutLimit_ok _
    | reference => exact exists_asksFor_reference env c req node kind
    | declaration => exact next kind _
    | call => exact next kind _
    | method => exact next kind _
    | constructor =>
      dsimp only
      split
      · exact next kind _
      · exact self
    | assignment => exact next kind _
    | qualification =>
      exact ⟨_, asksFor_resolve (env.receiverRequest req node)
        fun t => t.bindArguments env.arena (env.arena.child node 1) req.context⟩
    | access => exact ⟨_, asksFor_receiver_member req node _⟩
    | chain => exact ⟨_, asksFor_resolve (env.receiverRequest req node) id⟩
    | viewpoint =>
      refine ⟨_, asksFor_nothing ?_⟩
      split
      · exact failsWithoutLimit_error rfl
      · exact failsWithoutLimit_ok _
    | block => exact next kind _
    | lastChild => exact next kind _
    | self => exact self
    | unsupported => exact ⟨_, asksFor_nothing (failsWithoutLimit_error rfl)⟩

end Env

end PonyLens
