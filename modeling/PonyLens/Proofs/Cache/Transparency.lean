import PonyLens.Proofs.Cache.Filling
import PonyLens.Editor.Completion
import PonyLens.Editor.Hover
import PonyLens.Types.Resolver

/-!
# Transparent resolutions

Every question about types is transparent: the collection of members, each rule for a frame, the
loop over frames, and the resolutions they start, by induction on the room that is left. So are the
services of the editor, which are put together from such questions.
-/

namespace PonyLens

theorem Arena.kind?_of_mem_nominalsWithin {a : Arena} {levels : Nat} {n m : NodeId}
    (h : m ∈ a.nominalsWithin levels n) : a.kind? (some m) = some .nominal := by
  induction levels generalizing n with
  | zero => simp [nominalsWithin] at h
  | succ levels ih =>
    rw [nominalsWithin] at h
    split at h
    · rename_i hkind
      rw [List.mem_singleton.mp h]
      exact hkind
    · simp at h
    · simp at h
    · obtain ⟨child, _, hm⟩ := List.mem_flatMap.mp h
      exact ih hm

structure Deeper.IsTransparent (env : Env) (deeper : Deeper) : Prop where
  resolve : ∀ req, env.Transparent (deeper.resolve req).run
  member : ∀ t name, env.Transparent (deeper.member t name).run

namespace Env

theorem kind?_of_mem_providedNominals {env : Env} {owner : NominalType} {m : NodeId}
    (h : m ∈ env.providedNominals owner) : env.arena.kind? (some m) = some .nominal := by
  obtain ⟨_, _, hm⟩ := List.mem_flatMap.mp h
  exact Arena.kind?_of_mem_nominalsWithin hm

/-! ### Members -/

theorem transparent_provider? {env : Env} {nominal : NodeId}
    (h : env.arena.kind? (some nominal) = some .nominal) (owner : NominalType) :
    env.Transparent (env.provider? owner nominal) := by
  apply (transparent_nominalDefinition h rfl).bind
  intro r
  cases r with
  | ok definition => exact .pure _
  | error e => exact .pure none

theorem transparent_visitType (env : Env) (levels : Nat) (owner : NominalType) (i : Inheritance) :
    env.Transparent (env.visitType levels owner i) := by
  induction levels generalizing owner i with
  | zero => exact .pure _
  | succ levels ih =>
    rw [visitType]
    split
    · refine Transparent.bind (.foldlM (fun i nominal hm => ?_) _) fun i => .pure _
      have hkind := kind?_of_mem_providedNominals hm
      apply (transparent_provider? hkind owner).bind
      intro provider
      cases provider with
      | some provider => exact ih provider i
      | none => exact .pure i
    · exact .pure _

theorem transparent_memberSites (env : Env) (t : NominalType) :
    env.Transparent (env.memberSites t) :=
  (transparent_visitType env _ t {}).map Inheritance.found

section Members

variable {env : Env} {resolve : Request → ResolveM NominalType}
  (hresolve : ∀ req, env.Transparent (resolve req).run)
include hresolve

theorem transparent_typeIn (owner : NominalType) (n : NodeId) :
    env.Transparent (typeIn resolve owner n) := by
  apply (hresolve _).bind
  intro r
  cases r with
  | ok t => exact .pure (some t)
  | error e => exact .pure none

theorem transparent_methodParams (site : MemberSite) :
    env.Transparent (env.methodParams resolve site) :=
  .mapM (fun p => (transparent_typeIn hresolve site.owner p).map _) _

theorem transparent_memberAt (site : MemberSite) : env.Transparent (env.memberAt resolve site) := by
  rw [memberAt]
  split
  · exact (transparent_methodParams hresolve site).bind fun params =>
      (transparent_typeIn hresolve site.owner site.node).bind fun _ => .pure _
  · exact Transparent.bind (.pure []) fun params =>
      (transparent_typeIn hresolve site.owner site.node).bind fun _ => .pure _

theorem transparent_membersWith (t : NominalType) : env.Transparent (env.membersWith resolve t) :=
  (transparent_memberSites env t).bind fun sites => .mapM (transparent_memberAt hresolve) sites

theorem transparent_memberWith (t : NominalType) (name : String) :
    env.Transparent (env.memberWith resolve t name) := by
  apply (transparent_memberSites env t).bind
  intro sites
  split
  · exact (transparent_memberAt hresolve _).map some
  · exact .pure none

theorem transparent_typeArgumentWith (t : NominalType) (name : String) :
    env.Transparent (env.typeArgumentWith resolve t name).run := by
  rw [typeArgumentWith]
  split
  · exact hresolve _
  · exact .throw _

end Members

/-! ### Frames -/

theorem transparent_follow (env : Env) (kind : Kind) (target : Link) :
    env.Transparent (follow kind target).run := by
  cases target with
  | some n => exact .ok _
  | none => exact .throw _

theorem transparent_selfType (env : Env) (req : Request) (node : Link) :
    env.Transparent (env.selfType req node).run := by
  have hplain (definition : Link) :
      env.Transparent (selfType.plain env.arena definition).run := by
    rw [selfType.plain]
    split
    · exact .ok _
    · exact .throw _
  rw [selfType]
  split
  · exact .throw _
  · split
    · exact .ok _
    · exact hplain _
  · exact hplain _

theorem transparent_namedType {env : Env} {node : Link} {kind : Kind} (req : Request)
    (hkind : env.arena.kind? node = some kind) (hrule : kind.typeRule = .named) :
    env.Transparent (env.namedType req node).run := by
  apply (transparent_nominalDefinition hkind hrule).andThen
  intro d
  split
  · exact .throw _
  · dsimp only
    split
    · exact .ok _
    · exact .ok _

theorem transparent_run {env : Env} {step : Link → ResolveM Step}
    (hstep : ∀ node, env.Transparent (step node).run) (guard : Guard Link) (frame : Frame) :
    env.Transparent (run step guard frame) := by
  fun_induction run step guard frame with
  | case1 guard frame guard' _ ih =>
    apply (hstep frame.node).bind
    intro r
    match r with
    | .ok (.done t) => exact .pure _
    | .ok (.next next) => exact (ih next).bind fun _ => .pure _
    | .error e => exact .pure _
  | case2 => exact .pure _
  | case3 => exact .pure _
  | case4 => exact .pure _

section Frames

variable {env : Env} {deeper : Deeper} (hdeeper : deeper.IsTransparent env) (req : Request)
  (node : Link)
include hdeeper

theorem transparent_typeParameter : env.Transparent (env.typeParameter deeper req node).run := by
  rw [typeParameter]
  split
  · exact .ok _
  · exact transparent_typeArgumentWith hdeeper.resolve _ _
  · exact .throw _

omit req node in
theorem transparent_memberType (owner : NominalType) (name : String) :
    env.Transparent (env.memberType deeper owner name).run := by
  apply (hdeeper.member owner name).andThen
  intro m
  split
  · exact .throw _
  · split
    · exact .ok _
    · exact .throw _

theorem transparent_receiver : env.Transparent (env.receiver deeper req node).run :=
  hdeeper.resolve _

theorem transparent_reference (kind : Kind) :
    env.Transparent (env.reference deeper req node kind).run := by
  rw [reference]
  split
  · split
    · exact transparent_follow env kind _
    · exact .throw _
  · split
    · apply (transparent_receiver hdeeper req node).andThen
      intro owner
      exact (transparent_memberType hdeeper owner _).andThen fun t => .ok _
    · exact .throw _

theorem transparent_step : env.Transparent (env.step deeper req node).run := by
  rw [step]
  split
  · exact .throw _
  · rename_i kind hkind
    cases hrule : kind.typeRule with
    | definition =>
      dsimp only
      split
      · exact .ok _
      · exact .throw _
    | builtin name =>
      refine (transparent_cachedDefinition fun n hn => ?_).andThen
        fun d => transparent_follow env kind d
      subst hn
      exact uncached?_of_builtin hkind hrule
    | openLiteral =>
      -- No look-up is made from such a node, so its slot is as it was at first.
      cases node with
      | none => cases hkind
      | some n =>
        have hfree : env.uncached? n = none := by simp [uncached?, hkind, hrule]
        exact .get_find? hfree (f := fun bound => follow kind (bound.getD (env.arena.child n 0)))
          fun bound => transparent_follow env kind _
    | typeParameter => exact (transparent_typeParameter hdeeper req node).andThen fun t => .ok _
    | named => exact (transparent_namedType req hkind hrule).andThen fun t => .ok _
    | reference => exact transparent_reference hdeeper req node kind
    | declaration => exact transparent_follow env kind _
    | call => exact transparent_follow env kind _
    | method => exact transparent_follow env kind _
    | constructor =>
      dsimp only
      split
      · exact transparent_follow env kind _
      · exact (transparent_selfType env req node).andThen fun t => .ok _
    | assignment => exact transparent_follow env kind _
    | qualification => exact (transparent_receiver hdeeper req node).andThen fun t => .ok _
    | access =>
      apply (transparent_receiver hdeeper req node).andThen
      intro owner
      exact (transparent_memberType hdeeper owner _).andThen fun t => .ok _
    | chain => exact (transparent_receiver hdeeper req node).andThen fun t => .ok _
    | viewpoint =>
      dsimp only
      split
      · exact .throw _
      · exact .ok _
    | block => exact transparent_follow env kind _
    | lastChild => exact transparent_follow env kind _
    | self => exact (transparent_selfType env req node).andThen fun t => .ok _
    | unsupported => exact .throw _

omit node in
theorem transparent_trace : env.Transparent (env.trace deeper req) :=
  transparent_run (transparent_step hdeeper req) _ _

end Frames

/-! ### Resolutions -/

/-- A level of resolutions is transparent if the levels below it are. -/
theorem transparent_resolveIn_memberIn (env : Env) (room : Nat) :
    (∀ req, env.Transparent (env.resolveIn room req).run) ∧
      ∀ t name, env.Transparent (env.memberIn room t name).run := by
  induction room with
  | zero =>
    refine ⟨fun req => ?_, fun t name => ?_⟩
    · rw [resolveIn]
      exact .throw _
    · rw [memberIn]
      exact .throw _
  | succ room ih =>
    obtain ⟨hresolve, hmember⟩ := ih
    refine ⟨fun req => ?_, fun t name => ?_⟩
    · rw [resolveIn]
      exact (transparent_trace ⟨hresolve, hmember⟩ req).map Trace.outcome
    · rw [memberIn]
      exact (transparent_memberWith hresolve t name).map Except.ok

variable (env : Env)

theorem transparent_resolveTrace (req : Request) : env.Transparent (env.resolveTrace req) :=
  have ⟨hresolve, hmember⟩ := transparent_resolveIn_memberIn env env.options.maxNesting
  transparent_trace ⟨hresolve, hmember⟩ req

theorem transparent_tryResolve (req : Request) : env.Transparent (env.tryResolve req).run :=
  (transparent_resolveIn_memberIn env env.room).1 req

theorem transparent_resolve (node : Link) (context : Option NominalType) :
    env.Transparent (env.resolve node context) :=
  (transparent_tryResolve env _).map Except.toOption

theorem transparent_tryMembers (t : NominalType) : env.Transparent (env.tryMembers t).run :=
  (transparent_membersWith (transparent_resolveIn_memberIn env _).1 t).map Except.ok

theorem transparent_members (t : NominalType) : env.Transparent (env.members t) :=
  (transparent_tryMembers env t).bind fun _ => .pure _

theorem transparent_tryMember (t : NominalType) (name : String) :
    env.Transparent (env.tryMember t name).run :=
  (transparent_resolveIn_memberIn env env.room).2 t name

theorem transparent_member? (t : NominalType) (name : String) :
    env.Transparent (env.member? t name) :=
  (transparent_tryMember env t name).bind fun _ => .pure _

theorem transparent_typeArgument (t : NominalType) (name : String) :
    env.Transparent (env.typeArgument t name) :=
  (transparent_typeArgumentWith (transparent_resolveIn_memberIn env _).1 t name).map _

/-! ### Editor services -/

theorem transparent_typeInfo (t : NominalType) : env.Transparent (env.typeInfo t) := by
  have hname (param : NodeId) : env.Transparent (env.argumentName t param) := by
    rw [argumentName]
    split
    · exact (transparent_typeArgument env t _).map _
    · exact .pure none
  rw [typeInfo]
  split
  · exact Transparent.bind (.mapM hname _) fun args => .pure _
  · exact Transparent.bind (.pure []) fun args => .pure _

theorem transparent_typeInfo? (t : Option NominalType) : env.Transparent (env.typeInfo? t) := by
  cases t with
  | some t => exact (transparent_typeInfo env t).map some
  | none => exact .pure none

theorem transparent_memberInfo (m : Member) : env.Transparent (env.memberInfo m) :=
  (transparent_typeInfo? env m.type).bind fun _ =>
    Transparent.bind (.mapM (fun p => (transparent_typeInfo? env p.type).map _) m.params)
      fun _ => .pure _

theorem transparent_receiverAt (access : Link) : env.Transparent (env.receiverAt access) :=
  transparent_resolve env _ _

theorem transparent_memberSymbol? (id : NodeId) : env.Transparent (env.memberSymbol? id) := by
  rw [memberSymbol?]
  split
  · exact .pure none
  · apply (transparent_receiverAt env _).bind
    intro owner
    cases owner with
    | none => exact .pure none
    | some owner => exact (transparent_member? env owner _).map _

theorem transparent_symbolAt (q : CaretQuery) : env.Transparent (env.symbolAt q) := by
  rw [symbolAt]
  split
  · exact .pure none
  · exact (transparent_memberSymbol? env _).bind fun _ => .pure _

theorem transparent_hoverDocstring (target : Link) :
    env.Transparent (env.hoverDocstring target) := by
  rw [hoverDocstring]
  split
  · exact .pure _
  · split
    · apply (transparent_receiverAt env target).bind
      intro owner
      cases owner with
      | none => exact .pure ""
      | some owner => exact (transparent_member? env owner _).bind fun _ => .pure _
    · exact .pure ""

theorem transparent_hover (q : CaretQuery) : env.Transparent (env.hover q) := by
  rw [hover]
  split
  · exact .pure none
  · apply (transparent_resolve env _ _).bind
    intro t
    cases t with
    | none => exact .pure none
    | some t =>
      exact (transparent_typeInfo env t).bind fun info =>
        (transparent_hoverDocstring env _).bind fun _ => .pure _

theorem transparent_memberCompletions? (q : CaretQuery) :
    env.Transparent (env.memberCompletions? q) := by
  rw [memberCompletions?]
  split
  · exact .pure none
  · apply (transparent_receiverAt env _).bind
    intro owner
    cases owner with
    | none => exact .pure (some [])
    | some owner =>
      exact (transparent_members env owner).bind fun members =>
        (Transparent.mapM (transparent_memberInfo env) _).map some

theorem transparent_completions (q : CaretQuery) : env.Transparent (env.completions q) := by
  apply (transparent_memberCompletions? env q).bind
  intro members
  cases members with
  | some members => exact .pure _
  | none => exact .pure _

end Env

end PonyLens
