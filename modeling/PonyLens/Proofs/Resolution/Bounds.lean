import PonyLens.Program
import PonyLens.Proofs.Inheritance.Bounds
import PonyLens.Proofs.Resolution.Loop

/-!
# Bounds of a resolution

Resolutions, look-ups of members and type arguments call each other, and a program may be such that
they never come to an end by themselves. Three things bound them: a call makes others one level
deeper only, and does nothing if it is nested too deep; a resolution takes each node once; and a
collection leaves the types that it has entered.

The calls are written twice here, with the room that is left and as a recursion that goes deeper at
each call. That the recursion ends is said by unrolling it: after so many levels it gives the calls
with room, whatever the calls below would be.
-/

namespace PonyLens

namespace Env

variable {env : Env} {deeper : Deeper} {req : Request}

/-! ### Frames -/

/-- The frames of a loop whose guard holds the nodes in `seen`: those that are let through, all on
new nodes, and perhaps one that is refused. -/
structure Admits (env : Env) (limit : Nat) (seen : List Link) (passed refused : List Frame)
    (refusals : List Guard.Answer) : Prop where
  length_refused : refused.length ≤ 1
  nodup : ((passed.map Frame.node).reverse ++ seen).Nodup
  length_le : passed.length + seen.length ≤ limit
  answers_eq : (Guard.holding limit seen).answers ((passed ++ refused).map (.enter ·.node)) =
    passed.map (fun _ => .entered) ++ refusals
  not_entered : .entered ∉ refusals
  not_tooDeep : env.arena.size < Word.max ∨ limit < Word.max → .tooDeep ∉ refusals

section Admits

variable {limit : Nat} {seen : List Link} {frame : Frame}

theorem admits_of_refused (hnodup : seen.Nodup)
    (hseen : ∀ node ∈ seen, ∃ n, node = some n ∧ n < env.arena.size) (hle : seen.length ≤ limit)
    (h : ((Guard.holding limit seen).enter frame.node).1 ≠ .entered) :
    env.Admits limit seen [] [frame] [((Guard.holding limit seen).enter frame.node).1] where
  length_refused := by simp
  nodup := by simpa using hnodup
  length_le := by simpa using hle
  answers_eq := rfl
  not_entered := by simpa using h.symm
  not_tooDeep hwords hmem := by
    have hdeep := (List.mem_singleton.mp hmem).symm
    have hmax := Guard.le_of_enter_holding_eq_tooDeep hdeep
    have hsize := length_le_size_of_nodup hnodup hseen
    omega

variable (henter : (Guard.holding limit seen).enter frame.node =
  (.entered, .holding limit (frame.node :: seen)))
include henter

theorem admits_of_entered (hfree : frame.node ∉ seen) (hnodup : seen.Nodup)
    (hlt : seen.length < limit) : env.Admits limit seen [frame] [] [] where
  length_refused := by simp
  nodup := by simp [hfree, hnodup]
  length_le := by
    rw [List.length_singleton]
    omega
  answers_eq := by simp [Guard.answers, henter]
  not_entered := by simp
  not_tooDeep := by simp

theorem Admits.cons {passed refused : List Frame} {refusals : List Guard.Answer}
    (h : env.Admits limit (frame.node :: seen) passed refused refusals) :
    env.Admits limit seen (frame :: passed) refused refusals where
  length_refused := h.length_refused
  nodup := by simpa using h.nodup
  length_le := by
    have hle := h.length_le
    simp only [List.length_cons] at hle ⊢
    omega
  answers_eq := by
    have hanswers := h.answers_eq
    simp only [List.cons_append, List.map_cons, Guard.answers, Guard.perform, henter]
    rw [hanswers]
  not_entered := h.not_entered
  not_tooDeep := h.not_tooDeep

end Admits

/-- What the guard of a loop lets through. The induction is on the nodes that it can hold still. -/
theorem exists_admits (env : Env) (deeper : Deeper) (req : Request) {limit : Nat} {seen : List Link}
    (hnodup : seen.Nodup) (hseen : ∀ node ∈ seen, ∃ n, node = some n ∧ n < env.arena.size)
    (hle : seen.length ≤ limit) (frame : Frame) (c : Cache) :
    ∃ passed refused refusals,
      ((run (env.step deeper req) (.holding limit seen) frame).run c).1.frames =
        passed ++ refused ∧ env.Admits limit seen passed refused refusals := by
  obtain ⟨room, hroom⟩ : ∃ room, limit - seen.length = room := ⟨_, rfl⟩
  induction room generalizing seen frame c with
  | zero =>
    have hlimit := Guard.isLimit_enter (g := Guard.holding limit seen)
      (Nat.le_of_sub_eq_zero hroom) frame.node
    refine ⟨[], [frame], _, ?_, admits_of_refused hnodup hseen hle ?_⟩
    · rw [run_of_isLimit hlimit]
      rfl
    · intro hentered
      rw [hentered] at hlimit
      cases hlimit
  | succ room ih =>
    have hlt : seen.length < limit := by omega
    rcases Guard.enter_holding hlt frame.node with ⟨_, hcycle⟩ | ⟨hfree, henter⟩
    · refine ⟨[], [frame], _, ?_, admits_of_refused hnodup hseen hle (by simp [hcycle])⟩
      rw [run_of_cycle hcycle]
      rfl
    · rw [run_of_entered henter, StateT.run_bind]
      rcases hstep : (env.step deeper req frame.node).run.run c with ⟨e | next | t, c'⟩
      · exact ⟨[frame], [], [], rfl, admits_of_entered henter hfree hnodup hlt⟩
      · have hnext : frameAnswer (env.step deeper req) c frame.node = .ok (.next next) :=
          congrArg Prod.fst hstep
        obtain ⟨passed, refused, refusals, hframes, hadmits⟩ :=
          ih (List.nodup_cons.mpr ⟨hfree, hnodup⟩)
            (List.forall_mem_cons.mpr ⟨lt_size_of_next hnext, hseen⟩) hlt next c'
            (by rw [List.length_cons]; omega)
        refine ⟨frame :: passed, refused, refusals, ?_, hadmits.cons henter⟩
        exact congrArg (frame :: ·) hframes
      · exact ⟨[frame], [], [], rfl, admits_of_entered henter hfree hnodup hlt⟩

/-! ### Calls -/

/-- Resolutions, look-ups of a member, lists of members and type arguments, by their nesting. -/
@[ext]
structure Calls where
  resolve : Nat → Request → ResolveM NominalType
  member : Nat → NominalType → String → ResolveM (Option Member)
  members : Nat → NominalType → ResolveM (List Member)
  typeArgument : Nat → NominalType → String → ResolveM NominalType

def limited {α : Type} (env : Env) (nesting : Nat) (call : ResolveM α) : ResolveM α :=
  if env.options.maxNesting < nesting then throw (.depthExceeded env.options.maxNesting) else call

/-- What each call does with the calls one level deeper. No level is the last one. -/
def callsOnce (env : Env) (calls : Calls) : Calls where
  resolve nesting req := env.limited nesting <| ExceptT.mk do
    return (← env.trace ⟨calls.resolve (nesting + 1), calls.member (nesting + 1)⟩ req).outcome
  member nesting t name :=
    env.limited nesting (env.memberWith (calls.resolve (nesting + 1)) t name)
  members nesting t := env.limited nesting (env.membersWith (calls.resolve (nesting + 1)) t)
  typeArgument nesting t name := env.typeArgumentWith (calls.resolve (nesting + 1)) t name

def calls (env : Env) : Calls where
  resolve nesting := env.resolveIn (env.room - nesting)
  member nesting := env.memberIn (env.room - nesting)
  members nesting := env.membersIn (env.room - nesting)
  typeArgument nesting := env.typeArgumentWith (env.resolveIn (env.room - (nesting + 1)))

theorem limited_of_lt {α : Type} {nesting : Nat} (h : env.options.maxNesting < nesting)
    (call : ResolveM α) :
    env.limited nesting call = throw (.depthExceeded env.options.maxNesting) := if_pos h

theorem limited_of_le {α : Type} {nesting : Nat} (h : nesting ≤ env.options.maxNesting)
    (call : ResolveM α) : env.limited nesting call = call := if_neg (Nat.not_lt.mpr h)

theorem calls_eq_callsOnce (env : Env) : env.calls = env.callsOnce env.calls := by
  have hcases (nesting : Nat) :
      (env.options.maxNesting < nesting ∧ env.room - nesting = 0) ∨
        (nesting ≤ env.options.maxNesting ∧
          env.room - nesting = env.room - (nesting + 1) + 1) := by
    rw [room]
    omega
  ext1
  · funext nesting req
    rcases hcases nesting with ⟨hlt, hroom⟩ | ⟨hle, hroom⟩
    · simp only [callsOnce, limited_of_lt hlt, calls, hroom, resolveIn]
    · simp only [callsOnce, limited_of_le hle, calls, hroom, resolveIn]
  · funext nesting t name
    rcases hcases nesting with ⟨hlt, hroom⟩ | ⟨hle, hroom⟩
    · simp only [callsOnce, limited_of_lt hlt, calls, hroom, memberIn]
    · simp only [callsOnce, limited_of_le hle, calls, hroom, memberIn]
  · funext nesting t
    rcases hcases nesting with ⟨hlt, hroom⟩ | ⟨hle, hroom⟩
    · simp only [callsOnce, limited_of_lt hlt, calls, hroom, membersIn]
    · simp only [callsOnce, limited_of_le hle, calls, hroom, membersIn]
  · rfl

/-- The calls that a call makes are one level deeper. -/
theorem callsOnce_congr {calls calls' : Calls} {nesting : Nat}
    (hresolve : calls.resolve (nesting + 1) = calls'.resolve (nesting + 1))
    (hmember : calls.member (nesting + 1) = calls'.member (nesting + 1)) :
    (env.callsOnce calls).resolve nesting = (env.callsOnce calls').resolve nesting ∧
      (env.callsOnce calls).member nesting = (env.callsOnce calls').member nesting ∧
      (env.callsOnce calls).members nesting = (env.callsOnce calls').members nesting ∧
      (env.callsOnce calls).typeArgument nesting = (env.callsOnce calls').typeArgument nesting := by
  simp only [callsOnce, hresolve, hmember, and_self]

theorem iterate_callsOnce_agrees (env : Env) (below : Calls) {k nesting : Nat}
    (h : env.room - nesting < k) :
    (env.callsOnce^[k] below).resolve nesting = env.calls.resolve nesting ∧
      (env.callsOnce^[k] below).member nesting = env.calls.member nesting := by
  induction k generalizing nesting with
  | zero => exact absurd h (Nat.not_lt_zero _)
  | succ k ih =>
    rw [Function.iterate_succ_apply', calls_eq_callsOnce]
    rcases Nat.lt_or_ge env.options.maxNesting nesting with hlt | hle
    · simp only [callsOnce, limited_of_lt hlt, and_self]
    · have hroom : env.room - (nesting + 1) < k := by
        rw [room] at h ⊢
        omega
      obtain ⟨hresolve, hmember⟩ := ih hroom
      obtain ⟨hresolve', hmember', _⟩ := callsOnce_congr hresolve hmember
      exact ⟨hresolve', hmember'⟩

/-- The recursion between the calls ends: what the calls would be without room does not matter. -/
theorem iterate_callsOnce (env : Env) (below : Calls) {k : Nat} (h : env.room < k) :
    env.callsOnce^[k] below = env.calls := by
  obtain ⟨k, rfl⟩ : ∃ n, k = n + 1 := ⟨k - 1, by omega⟩
  have hroom (nesting : Nat) : env.room - (nesting + 1) < k := by
    rw [room] at h ⊢
    omega
  have hdeeper (nesting : Nat) := iterate_callsOnce_agrees env below (hroom nesting)
  rw [Function.iterate_succ_apply', calls_eq_callsOnce]
  simp only [callsOnce, (hdeeper _).1, (hdeeper _).2]

/-- The bounds of resolutions and collections. A recursion or a loop ends if, after so many rounds,
it does not matter what the others would do. -/
structure Bounded (env : Env) : Prop where
  /-- A question is a call that is not nested. -/
  questions : env.tryResolve = env.calls.resolve 0 ∧ env.tryMember = env.calls.member 0 ∧
    env.tryMembers = env.calls.members 0 ∧ ∀ t name,
      env.typeArgument t name = return (← (env.calls.typeArgument 0 t name).run).toOption
  /-- The calls that a call makes are one level deeper. -/
  one_deeper (calls calls' : Calls) (nesting : Nat) :
    calls.resolve (nesting + 1) = calls'.resolve (nesting + 1) →
    calls.member (nesting + 1) = calls'.member (nesting + 1) →
    (env.callsOnce calls).resolve nesting = (env.callsOnce calls').resolve nesting ∧
      (env.callsOnce calls).member nesting = (env.callsOnce calls').member nesting ∧
      (env.callsOnce calls).members nesting = (env.callsOnce calls').members nesting ∧
      (env.callsOnce calls).typeArgument nesting = (env.callsOnce calls').typeArgument nesting
  /-- The recursion between the calls ends. -/
  calls_end (below : Calls) (k : Nat) : env.room < k → env.callsOnce^[k] below = env.calls
  /-- A call that is nested too deep does nothing. -/
  tooDeep (below : Calls) (nesting : Nat) : env.options.maxNesting < nesting →
    (∀ req, (env.callsOnce below).resolve nesting req =
      throw (.depthExceeded env.options.maxNesting)) ∧
    (∀ t name, (env.callsOnce below).member nesting t name =
      throw (.depthExceeded env.options.maxNesting)) ∧
    ∀ t, (env.callsOnce below).members nesting t = throw (.depthExceeded env.options.maxNesting)
  /-- The frames of a resolution are on different nodes and within their limit, and its guard never
  refuses one for the depth: the count of visits comes first, if it cannot stop at the largest word
  before. -/
  frames (deeper : Deeper) (req : Request) (c : Cache) : ∃ passed refused refusals,
    ((env.trace deeper req).run c).1.frames = passed ++ refused ∧
      env.Admits env.options.maxFrames [] passed refused refusals
  /-- A collection is within its limits and leaves all that it enters. -/
  collection (t : NominalType) (c : Cache) : ∃ calls i c',
    (env.inheritanceLogged t).run c = ((i, calls), c') ∧ (env.inheritance t).run c = (i, c') ∧
      CollectionBounds calls i.guard
  /-- The recursion of a collection ends. -/
  visits_end (below : NominalType → Inheritance → CacheM Inheritance) (k : Nat) (t : NominalType) :
    Limits.providesDepth < k → env.visitOnce^[k] below t {} = env.inheritance t
  /-- The search through a provides-list ends. -/
  search_ends (t : NominalType) : ∃ k, ∀ below : List NodeId → List NodeId,
    env.arena.searchOnce^[k] below t.head.provides = env.providedNominals t
  /-- The way up from a node ends. -/
  climb_ends (below : Link → List NodeId) :
    env.arena.parentAnd^[env.arena.size + 1] below = env.arena.ancestors

/-- In an arena without cycles resolutions and collections are bounded, whatever else is in it. -/
theorem bounded_of_acyclic (env : Env) (hacyclic : env.arena.Acyclic) : env.Bounded where
  questions := ⟨rfl, rfl, rfl, fun _ _ => rfl⟩
  one_deeper _ _ _ hresolve hmember := callsOnce_congr hresolve hmember
  calls_end below k h := env.iterate_callsOnce below h
  tooDeep below nesting h := by
    simp only [callsOnce, limited_of_lt h, implies_true, and_self]
  frames deeper req c := by
    have hnone : ∀ node ∈ ([] : List Link), ∃ n, node = some n ∧ n < env.arena.size := by simp
    have hadmits := exists_admits env deeper req List.nodup_nil hnone
      (Nat.zero_le env.options.maxFrames) { node := req.node } c
    rwa [Guard.holding_nil] at hadmits
  collection := env.exists_collectionBounds
  visits_end below k t h := iterate_visitOnce below h
  search_ends t := Arena.exists_iterate_searchOnce hacyclic t.head.provides
  climb_ends := Arena.iterate_parentAnd hacyclic

/-- A class that provides itself, with a field whose type is that of its own member. -/
def selfReference : Program :=
  let (root, a) := Dump.read .empty "(module (class (id C) x x (provides (nominal x (id C)))
    (members (flet (id f) (. (fletref (id f)) (id f))))))"
  .ofRoot a root.toOption

theorem bounded_of_acyclic_selfReference :
    let env := selfReference.env { maxNesting := 2 }
    env.arena.Acyclic ∧
    (∀ below, Cache.empty.answer ((env.callsOnce^[4] below).resolve 0 { node := some 10 }).run =
      .error (.depthExceeded 2)) ∧
    (∃ t, NominalType.ofDefinition? env.arena (some 1) = some t ∧
      ((env.inheritanceLogged t).run .empty).1.2 = [.enter 1, .enter 1, .leave 1] ∧
      ∀ c, ((env.inheritance t).run c).1.guard.visiting = []) ∧
    ∀ deeper req c, ∃ passed refused refusals,
      ((env.trace deeper req).run c).1.frames = passed ++ refused ∧
        env.Admits 4096 [] passed refused refusals ∧ .tooDeep ∉ refusals := by
  intro env
  obtain ⟨hdown, hup, hwords, hanswer, hclass⟩ :
      (∀ n < env.arena.size, ∀ c ∈ env.arena.children (some n), n < c) ∧
      (∀ n < env.arena.size, ∀ p ∈ env.arena.parent (some n), p < n) ∧
      env.arena.size < Word.max ∧
      Cache.empty.answer (env.tryResolve { node := some 10 }).run = .error (.depthExceeded 2) ∧
      ((NominalType.ofDefinition? env.arena (some 1)).any fun t =>
        ((env.inheritanceLogged t).run .empty).1.2 == [.enter 1, .enter 1, .leave 1]) = true := by
    decide +kernel
  have hacyclic := Arena.acyclic_of_lt hdown hup
  have hbounded := bounded_of_acyclic env hacyclic
  refine ⟨hacyclic, fun below => ?_, ?_, fun deeper req c => ?_⟩
  · rw [hbounded.calls_end below 4 (by decide), ← hbounded.questions.1]
    exact hanswer
  · obtain ⟨t, ht, hcalls⟩ := (Option.any_eq_true _ _).mp hclass
    refine ⟨t, ht, beq_iff_eq.mp hcalls, fun c => ?_⟩
    obtain ⟨calls, i, c', _, hrun, hcollection⟩ := hbounded.collection t c
    rw [hrun]
    exact hcollection.visiting_eq
  · obtain ⟨passed, refused, refusals, hframes, hadmits⟩ := hbounded.frames deeper req c
    exact ⟨passed, refused, refusals, hframes, hadmits, hadmits.not_tooDeep (.inl hwords)⟩

end Env

end PonyLens
