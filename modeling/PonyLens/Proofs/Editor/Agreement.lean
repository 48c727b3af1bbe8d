import PonyLens.Editor.Completion
import PonyLens.Editor.Hover
import PonyLens.Proofs.Arena.Links
import PonyLens.Proofs.Inheritance.Coverage
import PonyLens.Proofs.Resolution.Limits

/-!
# The services agree about members

Hovering over the member name of an access takes the type of the access, which a frame finds one
level below the question. Completion lists all members of the receiver, the definition and the
docstring come from a look-up of one member, and these are asked directly. All come to the same
member: an answer stays the same with more room, and the names of members are distinct.
-/

namespace PonyLens

theorem filter_eq_singleton_of_find? {α : Type} {key : α → String} {l : List α} {name : String}
    {x : α} (hnodup : (l.map key).Nodup) (h : l.find? (key · == name) = some x) :
    l.filter (key · == name) = [x] := by
  induction l with
  | nil => simp at h
  | cons y l ih =>
    obtain ⟨hnew, hnodup⟩ := List.nodup_cons.mp hnodup
    by_cases hy : key y = name
    · have hxy : y = x := by simpa [hy] using h
      have hrest : l.filter (key · == name) = [] := by
        rw [List.filter_eq_nil_iff]
        intro z hz hname
        have hkey : key z = key y := (beq_iff_eq.mp hname).trans hy.symm
        exact hnew (hkey ▸ List.mem_map_of_mem hz)
      rw [List.filter_cons_of_pos (by simpa using hy), hrest, hxy]
    · rw [List.find?_cons_of_neg (by simpa using hy)] at h
      rw [List.filter_cons_of_neg (by simpa using hy)]
      exact ih hnodup h

/-- What is found under a name in a list of members whose names are distinct. Where there is no list
the look-up fails for the same reason. -/
inductive Picks (name : String) :
    Except ResolveError (List Member) → Except ResolveError (Option Member) → Prop
  | failed (e : ResolveError) : Picks name (.error e) (.error e)
  | found {ms : List Member} {found : Option Member}
      (hfound : ∀ m, found = some m ↔ m ∈ ms ∧ m.name = name)
      (hunique : ∀ m, found = some m → ms.filter (·.name == name) = [m]) :
      Picks name (.ok ms) (.ok found)

theorem Picks.of_nodup {ms : List Member} (h : (ms.map Member.name).Nodup) (name : String) :
    Picks name (.ok ms) (.ok (ms.find? (·.name == name))) := by
  have hunique (m : Member) (hm : ms.find? (·.name == name) = some m) :
      ms.filter (·.name == name) = [m] := filter_eq_singleton_of_find? h hm
  refine .found (fun m => ⟨fun hm => ?_, fun ⟨hmem, hname⟩ => ?_⟩) hunique
  · exact ⟨List.mem_of_find?_eq_some hm, by simpa using List.find?_some hm⟩
  · cases hfound : ms.find? (·.name == name) with
    | none => exact absurd (beq_iff_eq.mpr hname) (List.find?_eq_none.mp hfound m hmem)
    | some m' =>
      have hin : m ∈ ms.filter (·.name == name) := List.mem_filter.mpr ⟨hmem, by simpa using hname⟩
      rw [hunique m' hfound, List.mem_singleton] at hin
      rw [hin]

namespace Env

variable {env : Env} {c : Cache} {access id : NodeId} {owner t : NominalType} {m : Member}
  {q : CaretQuery}

def accessName (env : Env) (access : NodeId) : String :=
  env.arena.text (env.arena.child (some access) 1)

/-- Whether the receiver of an access has this type and the member name is the name of this
member. -/
structure AccessNames (env : Env) (c : Cache) (access : NodeId) (owner : NominalType) (m : Member) :
    Prop where
  receiver : c.answer (env.receiverAt (some access)) = some owner
  member : c.answer (env.member? owner (env.accessName access)) = some m

/-! ### The frame of an access -/

def isTypedAccess (env : Env) (access : NodeId) : Bool :=
  env.arena.is (some access) .dot || env.arena.is (some access) .tilde

theorem exists_kind_of_isTypedAccess (h : env.isTypedAccess access = true) :
    ∃ kind, env.arena.kind? (some access) = some kind ∧ (kind = .dot ∨ kind = .tilde) := by
  simp only [isTypedAccess, Arena.is, Bool.or_eq_true, beq_iff_eq] at h
  rcases h with h | h
  · exact ⟨.dot, h, .inl rfl⟩
  · exact ⟨.tilde, h, .inr rfl⟩

/-- The node is `.name` after a receiver: an access, or a reference to a member of its first
child. -/
def NamesMember (env : Env) (node : NodeId) : Prop :=
  ∃ kind, env.arena.kind? (some node) = some kind ∧
    (kind.typeRule = .access ∨
      kind.typeRule = .reference ∧ env.arena.is (env.arena.child (some node) 0) .ident = false ∧
        (env.arena.child (some node) 0).isSome = true ∧
        env.arena.is (env.arena.child (some node) 1) .ident = true)

theorem namesMember_of_isTypedAccess (h : env.isTypedAccess access = true) :
    env.NamesMember access := by
  obtain ⟨kind, hkind, rfl | rfl⟩ := exists_kind_of_isTypedAccess h
  · exact ⟨.dot, hkind, .inl rfl⟩
  · exact ⟨.tilde, hkind, .inl rfl⟩

theorem NamesMember.answer_step (h : env.NamesMember access) {deeper : Deeper}
    (hdeeper : deeper.IsTransparent env) (req : Request) :
    c.answer (env.step deeper req (some access)).run =
      env.answerTo deeper c
        (.member (env.receiverRequest req (some access)) (env.accessName access)) := by
  have hasks : env.AsksFor c _ _ :=
    asksFor_receiver_member req (some access) (env.accessName access)
  rw [← hasks.answer_eq deeper hdeeper]
  obtain ⟨kind, hkind, hrule | ⟨hrule, hfirst, hsome, hsecond⟩⟩ := h
  · simp only [step, hkind, hrule]
    rfl
  · simp only [step, hkind, hrule, reference, hfirst, hsome, hsecond]
    rfl

/-- A loop whose first frame ends it has the outcome of this frame, if it has a type. -/
theorem eq_ok_of_stopped {step : Link → ResolveM Step} {frame : Frame} {limit : Nat}
    {outcome : Except ResolveError NominalType} (hstep : ∀ node, env.Transparent (step node).run)
    (hstopped : Progress.after (frameAnswer step c frame.node) = .stopped outcome)
    (hok : (c.answer (run step (.holding limit []) frame)).outcome = .ok t) :
    outcome = .ok t := by
  rw [outcome_run_of_stopped hstep (.refl frame) hstopped] at hok
  split at hok
  · exact hok
  · cases hok

theorem typeOfMember_eq_ok_iff {name : String} {found : Option Member} :
    env.typeOfMember owner name found = .ok t ↔ ∃ m, found = some m ∧ m.type = some t := by
  constructor
  · intro h
    cases found with
    | none => cases h
    | some m =>
      dsimp only [typeOfMember] at h
      cases htype : m.type with
      | none => simp [htype] at h
      | some t' =>
        rw [htype] at h
        cases h
        exact ⟨m, rfl, htype⟩
  · rintro ⟨m, rfl, htype⟩
    simp only [typeOfMember, htype]

/-- An access that has a type has that of a member, found with less room. -/
theorem exists_member_of_resolveIn (h : env.isTypedAccess access = true) {room : Nat}
    {context : Option NominalType}
    (hok : c.answer (env.resolveIn (room + 1) { node := some access, context }).run = .ok t) :
    ∃ owner m,
      c.answer (env.resolveIn room { node := env.arena.child (some access) 0, context }).run =
        .ok owner ∧
      c.answer (env.memberIn room owner (env.accessName access)).run = .ok (some m) ∧
      m.type = some t := by
  have hdeeper := isTransparent_deeper env room
  have hstep := transparent_step hdeeper { node := some access, context }
  have hanswer := (namesMember_of_isTypedAccess h).answer_step (c := c) hdeeper
    { node := some access, context }
  rw [answer_resolveIn_succ] at hok
  have hstopped (outcome : Except ResolveError NominalType) (hafter : Progress.after
      (env.answerTo ⟨env.resolveIn room, env.memberIn room⟩ c
        (.member (env.receiverRequest { node := some access, context } (some access))
          (env.accessName access))) = .stopped outcome) : outcome = .ok t :=
    eq_ok_of_stopped hstep (by rw [frameAnswer, hanswer, hafter]) hok
  -- An access has no successor: its frame ends the loop.
  cases hframe : env.answerTo ⟨env.resolveIn room, env.memberIn room⟩ c
      (.member (env.receiverRequest { node := some access, context } (some access))
        (env.accessName access)) with
  | error e =>
    cases hstopped (.error e) (by rw [hframe]; rfl)
  | ok s =>
    obtain ⟨owner, howner, hs⟩ := bind_eq_ok hframe
    obtain ⟨found, hfound, hs⟩ := bind_eq_ok hs
    cases htype : env.typeOfMember owner (env.accessName access) found with
    | error e =>
      rw [htype] at hs
      cases hs
    | ok t' =>
      rw [htype] at hs
      cases hs
      cases hstopped (.ok t') (by rw [hframe]; rfl)
      obtain ⟨m, rfl, hm⟩ := typeOfMember_eq_ok_iff.mp htype
      exact ⟨owner, m, howner, hfound, hm⟩

/-! ### One member -/

theorem answer_resolve_eq_some {node : Link} {context : Option NominalType} :
    c.answer (env.resolve node context) = some t ↔
      c.answer (env.resolveIn (env.options.maxNesting + 1) { node, context }).run = .ok t := by
  have hanswer : c.answer (env.resolve node context) =
    (c.answer (env.resolveIn (env.options.maxNesting + 1) { node, context }).run).toOption := rfl
  rw [hanswer]
  cases c.answer (env.resolveIn (env.options.maxNesting + 1) { node, context }).run with
  | ok t' => simp [Except.toOption]
  | error e => simp [Except.toOption]

theorem answer_tryMember (env : Env) (c : Cache) (t : NominalType) (name : String) :
    c.answer (env.memberIn (env.options.maxNesting + 1) t name).run =
      .ok (c.answer (env.member? t name)) := rfl

/-- If an access has a type, its member name stands for a member, which has this type. -/
theorem exists_accessNames (h : env.isTypedAccess access = true)
    (hok : c.answer (env.resolve (some access) (NominalType.enclosing? env.arena (some access))) =
      some t) : ∃ owner m, env.AccessNames c access owner m ∧ m.type = some t := by
  rw [answer_resolve_eq_some] at hok
  obtain ⟨owner, m, howner, hmember, htype⟩ := exists_member_of_resolveIn h hok
  have hbelow : env.options.Below env.options := ⟨rfl, le_rfl, le_rfl⟩
  have hmore := below_resolveIn_memberIn env.arena env.scopes hbelow c
    (Nat.le_succ env.options.maxNesting)
  obtain ⟨found, hfound, hcompletes⟩ := hmore.member _ _ _ hmember
  have hanswer := Except.ok.inj ((answer_tryMember env c owner _).symm.trans hfound)
  cases hcompletes with
  | @some m' m hcompletes =>
    have hreceiver := answer_resolve_eq_some.mpr (hmore.resolve _ _ howner)
    exact ⟨owner, m', ⟨hreceiver, hanswer⟩, hcompletes.type t htype⟩

/-! ### The services -/

theorem name_memberAt (resolve : Request → ResolveM NominalType) (site : MemberSite) :
    (c.answer (env.memberAt resolve site)).name = site.name := by
  rw [memberAt]
  split <;> rfl

theorem nodup_names_memberSites (env : Env) (c : Cache) (t : NominalType) :
    ((c.answer (env.memberSites t)).map MemberSite.name).Nodup := by
  rw [answer_memberSites]
  exact nodup_names_visit List.nodup_nil

/-- The members have distinct names, and the member of a name is looked up among them. -/
theorem picks_membersWith {resolve : Request → ResolveM NominalType}
    (hresolve : ∀ req, env.Transparent (resolve req).run) (c : Cache) (t : NominalType)
    (name : String) :
    Picks name (.ok (c.answer (env.membersWith resolve t)))
      (.ok (c.answer (env.memberWith resolve t name))) := by
  have hnodup : ((c.answer (env.membersWith resolve t)).map Member.name).Nodup := by
    rw [answer_membersWith hresolve, List.map_map]
    simpa only [Function.comp_def, name_memberAt] using nodup_names_memberSites env c t
  have hfind : c.answer (env.memberWith resolve t name) =
      (c.answer (env.membersWith resolve t)).find? (·.name == name) := by
    rw [answer_memberWith hresolve, answer_membersWith hresolve, List.find?_map]
    simp only [Function.comp_def, name_memberAt]
  rw [hfind]
  exact .of_nodup hnodup name

theorem filter_members {name : String} (h : c.answer (env.member? t name) = some m) :
    m.name = name ∧ (c.answer (env.members t)).filter (·.name == name) = [m] := by
  have hresolve := (isTransparent_deeper env env.options.maxNesting).resolve
  rw [answer_members]
  cases picks_membersWith hresolve c t name with
  | found hfound hunique => exact ⟨((hfound m).mp h).2, hunique m h⟩

theorem answer_bind_of_answer {α β : Type} {x : CacheM α} {f : α → CacheM β} {a : α}
    (hx : env.Transparent x) (ha : c.answer x = a) (hf : env.Transparent (f a)) :
    c.answer (x >>= f) = c.answer (f a) := by
  subst ha
  exact (hf c _ (hx.fills c)).1

section Services

variable (hnames : env.AccessNames c access owner m)
include hnames

theorem AccessNames.answer_hoverDocstring (h : env.isTypedAccess access = true) :
    c.answer (env.hoverDocstring (some access)) = m.docstring := by
  have hmethod : env.arena.isA (some access) Kind.isMethod = false := by
    obtain ⟨kind, hkind, rfl | rfl⟩ := exists_kind_of_isTypedAccess h
    · simp [Arena.isA, hkind, Kind.isMethod]
    · simp [Arena.isA, hkind, Kind.isMethod]
  have hmember := transparent_member? env owner (env.accessName access)
  rw [isTypedAccess] at h
  rw [hoverDocstring, if_neg (by simp [hmethod]), if_pos h]
  refine (answer_bind_of_answer (transparent_receiverAt env _) hnames.receiver
    (hmember.bind fun _ => .pure _)).trans ?_
  refine (answer_bind_of_answer hmember hnames.member ?_).trans rfl
  exact .pure _

theorem AccessNames.answer_memberSymbol? (haccess : env.accessOf? id = some access)
    (hid : env.arena.child (some access) 1 = some id) :
    c.answer (env.memberSymbol? id) = some ⟨m.definition, .defined⟩ := by
  have hname : env.accessName access = env.arena.text (some id) := by rw [accessName, hid]
  have hmember := transparent_member? env owner (env.arena.text (some id))
  rw [memberSymbol?, haccess]
  refine (answer_bind_of_answer (transparent_receiverAt env _) hnames.receiver
    (hmember.bind fun _ => .pure _)).trans ?_
  refine (answer_bind_of_answer hmember (hname ▸ hnames.member) ?_).trans rfl
  exact .pure _

theorem AccessNames.answer_completions (haccess : env.accessAt? q = some access) :
    c.answer (env.completions q) =
      { isMemberCompletion := true
        members := ((c.answer (env.members owner)).filter
          (isOffered (env.arena.is (some access) .tilde))).map fun m =>
            c.answer (env.memberInfo m) } := by
  have hinfo := transparent_memberInfo env
  have hmembers : c.answer (env.memberCompletions? q) =
      some (((c.answer (env.members owner)).filter
        (isOffered (env.arena.is (some access) .tilde))).map fun m =>
          c.answer (env.memberInfo m)) := by
    rw [memberCompletions?, haccess, ← answer_mapM hinfo]
    refine (answer_bind_of_answer (transparent_receiverAt env _) hnames.receiver
      ((transparent_members env owner).bind fun _ => (Transparent.mapM hinfo _).map some)).trans ?_
    exact answer_bind (transparent_members env owner) fun _ => (Transparent.mapM hinfo _).map some
  exact answer_bind_of_answer (transparent_memberCompletions? env q) hmembers (.pure _)

end Services

/-- Hovering over a member name gives the type of the access, and the docstring of the access. -/
theorem exists_type_of_hover {info : HoverInfo} (hid : q.identifier? env.arena = some id)
    (hparent : env.arena.parent (some id) = some access)
    (h : c.answer (env.hover q) = some info) :
    info.name = env.arena.text (some id) ∧ ∃ t,
      c.answer (env.resolve (some access) (NominalType.enclosing? env.arena (some access))) =
        some t ∧
      c.answer (env.typeInfo t) = info.type ∧
      c.answer (env.hoverDocstring (some access)) = info.docstring := by
  have hhovered : env.hovered? q = some (env.arena.text (some id), some access) := by
    simp [hovered?, hid, hparent]
  rw [hover, hhovered] at h
  dsimp only at h
  have hresolve := transparent_resolve env (some access)
    (NominalType.enclosing? env.arena (some access))
  have hdocstring := transparent_hoverDocstring env (some access)
  cases htype : c.answer (env.resolve (some access)
      (NominalType.enclosing? env.arena (some access))) with
  | none =>
    rw [answer_bind_of_answer hresolve htype] at h
    · cases h
    · exact .pure none
  | some t =>
    have hinfo := transparent_typeInfo env t
    rw [answer_bind_of_answer hresolve htype] at h
    · dsimp only at h
      rw [answer_bind hinfo fun _ => hdocstring.bind fun _ => .pure _,
        answer_bind hdocstring fun _ => .pure _, answer_pure, Option.some.injEq] at h
      subst h
      exact ⟨rfl, t, rfl, rfl, rfl⟩
    · exact hinfo.bind fun _ => hdocstring.bind fun _ => .pure _

/-- The definition of a member name is that of the member, if its place is known. -/
theorem AccessNames.answer_symbolAt (hnames : env.AccessNames c access owner m)
    (haccess : env.accessOf? id = some access)
    (hchild : env.arena.child (some access) 1 = some id) (hid : q.identifier? env.arena = some id) :
    c.answer (env.symbolAt q) = (env.arena.sourcePlace? (some m.definition)).map fun place =>
      { name := env.arena.text (some id)
        kind := ((env.arena.kind? (some m.definition)).map Kind.token).getD "unknown"
        status := .defined
        definition := some place } := by
  have hsymbol := hnames.answer_memberSymbol? haccess hchild
  rw [symbolAt, hid]
  refine (answer_bind_of_answer (transparent_memberSymbol? env id) hsymbol ?_).trans ?_
  · exact .pure _
  · cases hplace : env.arena.sourcePlace? (some m.definition) <;>
      simp [symbolInfo, hplace, Option.filter]

theorem isMemberAccess_of_isTypedAccess (h : env.isTypedAccess access = true) :
    env.arena.isA (some access) Kind.isMemberAccess = true := by
  obtain ⟨kind, hkind, rfl | rfl⟩ := exists_kind_of_isTypedAccess h
  · simp [Arena.isA, hkind, Kind.isMemberAccess]
  · simp [Arena.isA, hkind, Kind.isMemberAccess]

theorem accessOf?_eq_some (h : env.arena.isA (some access) Kind.isMemberAccess = true)
    (hchild : env.arena.child (some access) 1 = some id)
    (hparent : env.arena.parent (some id) = some access) : env.accessOf? id = some access := by
  simp [accessOf?, hparent, h, hchild]

theorem answer_memberInfo (env : Env) (c : Cache) (m : Member) :
    (c.answer (env.memberInfo m)).name = m.name ∧
      (c.answer (env.memberInfo m)).docstring = m.docstring ∧
      (c.answer (env.memberInfo m)).type = m.type.map fun t => c.answer (env.typeInfo t) := by
  refine ⟨rfl, rfl, ?_⟩
  have htype : (c.answer (env.memberInfo m)).type = c.answer (env.typeInfo? m.type) := rfl
  rw [htype]
  cases m.type <;> rfl

theorem services_agree (hchild : env.arena.child (some access) 1 = some id)
    (hparent : env.arena.parent (some id) = some access) (htyped : env.isTypedAccess access = true)
    (hid : q.identifier? env.arena = some id) (haccess : env.accessAt? q = some access)
    {info : HoverInfo} (h : c.answer (env.hover q) = some info) :
    ∃ owner m, env.AccessNames c access owner m ∧ m.name = info.name ∧
      c.answer (env.symbolAt q) = (env.arena.sourcePlace? (some m.definition)).map (fun place =>
        { name := info.name
          kind := ((env.arena.kind? (some m.definition)).map Kind.token).getD "unknown"
          status := .defined
          definition := some place }) ∧
      (isOffered (env.arena.is (some access) .tilde) m = true →
        (c.answer (env.completions q)).isMemberCompletion = true ∧
        ∃ entry, (c.answer (env.completions q)).members.filter (·.name == info.name) = [entry] ∧
          entry.type = some info.type ∧ entry.docstring = info.docstring) := by
  obtain ⟨hname, t, htype, hinfo, hdocstring⟩ := exists_type_of_hover hid hparent h
  obtain ⟨owner, m, hnames, hm⟩ := exists_accessNames htyped htype
  obtain ⟨hmname, hfilter⟩ := filter_members hnames.member
  have hwritten : env.accessName access = info.name := by rw [accessName, hchild, hname]
  rw [hwritten] at hmname hfilter
  refine ⟨owner, m, hnames, hmname, ?_, fun hoffered => ?_⟩
  · rw [hname]
    have hmember := isMemberAccess_of_isTypedAccess htyped
    exact hnames.answer_symbolAt (accessOf?_eq_some hmember hchild hparent) hchild hid
  · rw [hnames.answer_completions haccess]
    obtain ⟨-, hentrydoc, hentrytype⟩ := answer_memberInfo env c m
    refine ⟨rfl, c.answer (env.memberInfo m), ?_, ?_, ?_⟩
    · have hentry : ((·.name == info.name) ∘ fun m => c.answer (env.memberInfo m)) =
          fun m : Member => m.name == info.name := rfl
      rw [List.filter_map, hentry, List.filter_comm, hfilter]
      simp [hoffered]
    · rw [hentrytype, hm, Option.map_some, hinfo]
    · rw [hentrydoc, ← hdocstring, hnames.answer_hoverDocstring htyped]

end Env

/-! ### Questions about a program -/

section Program

variable {p : Program} {ops : List Arena.Operation} {options : Options} {q : CaretQuery}
  {c c₁ c₂ c₃ : Cache} {access id : NodeId} {info : HoverInfo}

/-- The services agree about the member name of an access that has a type, wherever the caret is and
whatever has been asked before. There is one member that it stands for. Its definition is given if
the place is known. If the member may be offered there, it is offered exactly once under its name,
with the type and the docstring that hovering shows. -/
theorem services_agree_about_member (hp : p.arena = .after .empty ops)
    (h₁ : (p.env options).Fills c c₁) (h₂ : (p.env options).Fills c c₂)
    (h₃ : (p.env options).Fills c c₃) (hid : q.identifier? p.arena = some id)
    (hchild : p.arena.child (some access) 1 = some id)
    (htyped : (p.env options).isTypedAccess access = true)
    (haccess : (p.env options).accessAt? q = some access)
    (h : c₁.answer ((p.env options).hover q) = some info) :
    ∃ owner m, (p.env options).AccessNames c access owner m ∧ m.name = info.name ∧
      c₂.answer ((p.env options).symbolAt q) =
        (p.arena.sourcePlace? (some m.definition)).map (fun place =>
          { name := info.name
            kind := ((p.arena.kind? (some m.definition)).map Kind.token).getD "unknown"
            status := .defined
            definition := some place }) ∧
      (m.isPrivate = false → (p.arena.is (some access) .tilde = true → m.kind.isCallable = true) →
        (c₃.answer ((p.env options).completions q)).isMemberCompletion = true ∧
        ∃ entry, (c₃.answer ((p.env options).completions q)).members.filter
            (·.name == info.name) = [entry] ∧
          entry.type = some info.type ∧ entry.docstring = info.docstring) := by
  have hparent : p.arena.parent (some id) = some access := by
    have hlinked : p.arena.Linked _ := hp ▸ Arena.linked_after ops
    exact (hlinked.parent_iff id access).mpr (.inl (List.mem_of_getElem? hchild))
  have hhover := (Env.transparent_hover (p.env options) q c c₁ h₁).1.symm.trans h
  have hsymbol := (Env.transparent_symbolAt (p.env options) q c c₂ h₂).1
  have hcompletions := (Env.transparent_completions (p.env options) q c c₃ h₃).1
  obtain ⟨owner, m, hnames, hname, hdefinition, hentry⟩ :=
    Env.services_agree hchild hparent htyped hid haccess hhover
  refine ⟨owner, m, hnames, hname, hsymbol.trans hdefinition, fun hprivate hcallable => ?_⟩
  have hoffered : Env.isOffered (p.arena.is (some access) .tilde) m = true := by
    cases htilde : p.arena.is (some access) .tilde with
    | false => simp [Env.isOffered, hprivate]
    | true => simp [Env.isOffered, hprivate, hcallable htilde]
  rw [Cache.answer, hcompletions]
  exact hentry hoffered

/-- A class with a method that calls for itself. -/
def selfCaller : Program :=
  .ofRoot (.after .empty [.read "(module (class (id C) x x x (members
    (fun@3:5 box (id f) x x (nominal x (id C)) x (. (this) (id@4:20 f))))))"]) (some 0)

theorem services_agree_about_selfCaller :
    let env := selfCaller.env {}
    let q : CaretQuery := ⟨some 0, ⟨4, 20⟩, none⟩
    let info : HoverInfo := ⟨"f", ".", ⟨"C", "", .unknown, []⟩, ""⟩
    Cache.empty.answer (env.hover q) = some info ∧
    (∃ owner m, env.AccessNames .empty 16 owner m ∧ m.name = "f") ∧
    (Cache.empty.answer (env.completions q)).isMemberCompletion = true ∧
    ∃ entry, (Cache.empty.answer (env.completions q)).members.filter (·.name == "f") = [entry] ∧
      entry.type = some info.type ∧ entry.docstring = "" := by
  intro env q info
  have hfills : env.Fills .empty .empty := .refl env .empty
  obtain ⟨hid, hchild, htyped, haccess, hhover, htilde⟩ :
      q.identifier? selfCaller.arena = some 18 ∧
      selfCaller.arena.child (some 16) 1 = some 18 ∧ env.isTypedAccess 16 = true ∧
      env.accessAt? q = some 16 ∧ Cache.empty.answer (env.hover q) = some info ∧
      selfCaller.arena.is (some 16) .tilde = false := by
    decide +kernel
  obtain ⟨owner, m, hnames, hname, _, hentry⟩ :=
    services_agree_about_member rfl hfills hfills hfills hid hchild htyped haccess hhover
  have hprivate : m.isPrivate = false := by
    rw [Member.isPrivate, hname]
    exact (by decide : ("f".toList.head? == some '_') = false)
  obtain ⟨hmember, honce⟩ := hentry hprivate fun h => absurd h (by simp [htilde])
  exact ⟨hhover, ⟨owner, m, hnames, hname⟩, hmember, honce⟩

end Program

end PonyLens
