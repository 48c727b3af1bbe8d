import Mathlib.Data.Finset.Card
import PonyLens.Proofs.Guard
import PonyLens.Proofs.Resolution.Frames

/-!
# The loop over frames, with and without its guard

Without the guard the loop goes from frame to frame until one has a type or fails, perhaps for ever.
A frame's successor depends on its node alone, so a loop that comes back to a node does not end, and
one that ends has met no node twice. The guard lets through as many distinct nodes as its limit
says, and knows a node that comes back.
-/

namespace PonyLens

/-- How far a loop over frames has come. -/
inductive Progress where
  /-- The frame is the next one. -/
  | running (frame : Frame)
  | stopped (outcome : Except ResolveError NominalType)
deriving DecidableEq

namespace Progress

def after : Except ResolveError Step → Progress
  | .ok (.next frame) => running frame
  | .ok (.done t) => stopped (.ok t)
  | .error e => stopped (.error e)

theorem eq_error_of_after {r : Except ResolveError Step} {e : ResolveError}
    (h : after r = stopped (.error e)) : r = .error e := by
  rcases r with e' | next | t
  · cases h
    rfl
  · cases h
  · cases h

theorem eq_done_of_after {r : Except ResolveError Step} {t : NominalType}
    (h : after r = stopped (.ok t)) : r = .ok (.done t) := by
  rcases r with e | next | t'
  · cases h
  · cases h
  · cases h
    rfl

end Progress

namespace Env

/-- The loop over frames without a guard, cut off after `count` frames. -/
def unguarded (step : Link → ResolveM Step) : Nat → Frame → CacheM Progress
  | 0, frame => return .running frame
  | count + 1, frame => do
    match ← (step frame.node).run with
    | .ok (.next next) => unguarded step count next
    | .ok (.done t) => return .stopped (.ok t)
    | .error e => return .stopped (.error e)

def frameAnswer (step : Link → ResolveM Step) (c : Cache) (node : Link) :
    Except ResolveError Step :=
  c.answer (step node).run

/-- The frame of each node in the list has the next one as successor, and that of the last one leads
to the second frame. -/
inductive Leads (f : Link → Except ResolveError Step) : Frame → List Link → Frame → Prop
  | refl (frame : Frame) : Leads f frame [] frame
  | next {frame next last : Frame} {nodes : List Link} (hstep : f frame.node = .ok (.next next))
    (rest : Leads f next nodes last) : Leads f frame (frame.node :: nodes) last

namespace Leads

variable {f g : Link → Except ResolveError Step} {frame last last' : Frame}
  {nodes nodes' : List Link} {outcome : Except ResolveError NominalType}

theorem exists_of_append (h : Leads f frame (nodes ++ nodes') last) :
    ∃ mid, Leads f frame nodes mid ∧ Leads f mid nodes' last := by
  induction nodes generalizing frame with
  | nil => exact ⟨frame, .refl frame, h⟩
  | cons node nodes ih =>
    cases h with
    | next hstep rest =>
      obtain ⟨mid, hfirst, hrest⟩ := ih rest
      exact ⟨mid, .next hstep hfirst, hrest⟩

theorem node_eq {node : Link} (h : Leads f frame (node :: nodes) last) : frame.node = node := by
  cases h
  rfl

theorem exists_next {node : Link} (h : Leads f frame nodes last) (hnode : node ∈ nodes) :
    ∃ next, f node = .ok (.next next) := by
  induction h with
  | refl => cases hnode
  | next hstep _ ih =>
    rcases List.mem_cons.mp hnode with rfl | hnode
    · exact ⟨_, hstep⟩
    · exact ih hnode

theorem imp (h : Leads f frame nodes last)
    (hnext : ∀ node next, f node = .ok (.next next) → g node = .ok (.next next)) :
    Leads g frame nodes last := by
  induction h with
  | refl => exact .refl _
  | next hstep _ ih => exact .next (hnext _ _ hstep) ih

theorem mono (h : Leads f frame nodes last)
    (hle : ∀ node step, f node = .ok step → g node = .ok step) : Leads g frame nodes last :=
  h.imp fun node next => hle node (.next next)

/-- A way from the same node to a frame that stops goes on from where any other way leads. -/
theorem exists_rest {frame' : Frame} (h : Leads f frame nodes last)
    (h' : Leads f frame' nodes' last') (hlast' : Progress.after (f last'.node) = .stopped outcome)
    (hnode : frame.node = frame'.node) :
    ∃ rest mid, nodes' = nodes ++ rest ∧ mid.node = last.node ∧ Leads f mid rest last' := by
  induction h generalizing frame' nodes' with
  | refl => exact ⟨nodes', frame', rfl, hnode.symm, h'⟩
  | next hstep _ ih =>
    cases h' with
    | refl =>
      rw [← hnode, hstep] at hlast'
      cases hlast'
    | next hstep' rest' =>
      rw [hnode, hstep'] at hstep
      cases hstep
      obtain ⟨rest, mid, rfl, hmid, hrest⟩ := ih rest' rfl
      exact ⟨rest, mid, by rw [hnode, List.cons_append], hmid, hrest⟩

/-- From one node there is one way to a frame that stops. -/
theorem eq_of_stopped {frame' : Frame} {outcome' : Except ResolveError NominalType}
    (h : Leads f frame nodes last) (hlast : Progress.after (f last.node) = .stopped outcome)
    (h' : Leads f frame' nodes' last') (hlast' : Progress.after (f last'.node) = .stopped outcome')
    (hnode : frame.node = frame'.node) : nodes = nodes' := by
  obtain ⟨rest, mid, rfl, hmid, hrest⟩ := h.exists_rest h' hlast' hnode
  cases hrest with
  | refl => rw [List.append_nil]
  | next hstep _ =>
    rw [← hmid, hstep] at hlast
    cases hlast

theorem nodup_of_stopped (h : Leads f frame nodes last)
    (hlast : Progress.after (f last.node) = .stopped outcome) :
    (nodes ++ [last.node]).Nodup := by
  induction nodes generalizing frame with
  | nil => simp
  | cons node nodes ih =>
    have happend : Leads f frame ([node] ++ nodes) last := h
    obtain ⟨next, hfirst, hrest⟩ := happend.exists_of_append
    rw [List.cons_append, List.nodup_cons]
    refine ⟨fun hmem => ?_, ih hrest⟩
    -- From the place where the node comes up again the way to the end would be shorter.
    rcases List.mem_append.mp hmem with hmem | hmem
    · obtain ⟨before, rest, rfl⟩ := List.append_of_mem hmem
      obtain ⟨again, _, hagain⟩ := hrest.exists_of_append
      have heq := h.eq_of_stopped hlast hagain hlast (h.node_eq.trans hagain.node_eq.symm)
      have hlength := congrArg List.length heq
      simp only [List.length_cons, List.length_append] at hlength
      omega
    · have heq := h.eq_of_stopped hlast (.refl last) hlast
        (h.node_eq.trans (List.mem_singleton.mp hmem))
      cases heq

theorem exists_repeat (h : Leads f frame nodes last) (hdup : ¬ nodes.Nodup) :
    ∃ first mid, Leads f frame first mid ∧ first.Nodup ∧ mid.node ∈ first := by
  induction nodes using List.reverseRecOn generalizing last with
  | nil => exact absurd List.nodup_nil hdup
  | append_singleton nodes node ih =>
    obtain ⟨mid, hfirst, hrest⟩ := h.exists_of_append
    by_cases hnodup : nodes.Nodup
    · refine ⟨nodes, mid, hfirst, hnodup, ?_⟩
      rw [hrest.node_eq]
      by_contra hnew
      exact hdup (List.nodup_append_comm.mp (List.nodup_cons.mpr ⟨hnew, hnodup⟩))
    · exact ih hfirst hnodup

end Leads

/-! ### Without the guard -/

section Unguarded

variable {env : Env} {step : Link → ResolveM Step} {c : Cache} {frame last : Frame}
  {nodes : List Link} {outcome : Except ResolveError NominalType} {count : Nat}
  (hstep : ∀ node, env.Transparent (step node).run)
include hstep

theorem transparent_unguarded (count : Nat) (frame : Frame) :
    env.Transparent (unguarded step count frame) := by
  induction count generalizing frame with
  | zero => exact .pure _
  | succ count ih =>
    rw [unguarded]
    apply (hstep frame.node).bind
    intro r
    rcases r with e | next | t
    · exact .pure _
    · exact ih next
    · exact .pure _

theorem answer_unguarded_succ (count : Nat) (frame : Frame) :
    c.answer (unguarded step (count + 1) frame) =
      match Progress.after (frameAnswer step c frame.node) with
      | .running next => c.answer (unguarded step count next)
      | .stopped outcome => .stopped outcome := by
  rw [unguarded, answer_bind (hstep frame.node), frameAnswer]
  · rcases c.answer (step frame.node).run with e | next | t <;> rfl
  · intro r
    rcases r with e | next | t
    · exact .pure _
    · exact transparent_unguarded hstep count next
    · exact .pure _

theorem exists_leads_of_running (h : c.answer (unguarded step count frame) = .running last) :
    ∃ nodes, nodes.length = count ∧ Leads (frameAnswer step c) frame nodes last := by
  induction count generalizing frame with
  | zero =>
    cases h
    exact ⟨[], rfl, .refl last⟩
  | succ count ih =>
    rw [answer_unguarded_succ hstep] at h
    cases hanswer : frameAnswer step c frame.node with
    | error e =>
      rw [hanswer] at h
      cases h
    | ok s =>
      cases s with
      | done t =>
        rw [hanswer] at h
        cases h
      | next next =>
        rw [hanswer] at h
        obtain ⟨nodes, hlength, hleads⟩ := ih h
        exact ⟨frame.node :: nodes, by rw [List.length_cons, hlength], .next hanswer hleads⟩

theorem exists_leads_of_stopped (h : c.answer (unguarded step count frame) = .stopped outcome) :
    ∃ nodes last, nodes.length < count ∧ Leads (frameAnswer step c) frame nodes last ∧
      Progress.after (frameAnswer step c last.node) = .stopped outcome := by
  induction count generalizing frame with
  | zero => cases h
  | succ count ih =>
    rw [answer_unguarded_succ hstep] at h
    have hstopped {o : Except ResolveError NominalType}
        (ho : Progress.after (frameAnswer step c frame.node) = .stopped o) :
        ∃ nodes last, nodes.length < count + 1 ∧ Leads (frameAnswer step c) frame nodes last ∧
          Progress.after (frameAnswer step c last.node) = .stopped o :=
      ⟨[], frame, Nat.succ_pos count, .refl frame, ho⟩
    cases hanswer : frameAnswer step c frame.node with
    | error e =>
      rw [hanswer] at h hstopped
      exact hstopped h
    | ok s =>
      cases s with
      | done t =>
        rw [hanswer] at h hstopped
        exact hstopped h
      | next next =>
        rw [hanswer] at h
        obtain ⟨nodes, last, hlength, hleads, hlast⟩ := ih h
        exact ⟨frame.node :: nodes, last, Nat.succ_lt_succ hlength, .next hanswer hleads, hlast⟩

end Unguarded

/-! ### With the guard -/

section Guarded

variable {env : Env} {step : Link → ResolveM Step} {c : Cache} {frame last : Frame}
  {nodes seen : List Link} {outcome : Except ResolveError NominalType} {guard guard' : Guard Link}
  {limit : Nat}

theorem run_of_isLimit (h : (guard.enter frame.node).1.isLimit = true) :
    run step guard frame = return ⟨[frame], .error (.frameLimit guard.maxDepth)⟩ := by
  rw [run]
  split
  · rename_i henter
    rw [henter] at h
    cases h
  · rename_i henter
    rw [henter] at h
    cases h
  · rfl
  · rfl

theorem run_of_cycle (h : (guard.enter frame.node).1 = .cycle) :
    run step guard frame = return ⟨[frame], .error (.cycle frame.node)⟩ := by
  rw [run]
  split
  · rename_i henter
    rw [henter] at h
    cases h
  · rfl
  · rename_i henter
    rw [henter] at h
    cases h
  · rename_i henter
    rw [henter] at h
    cases h

theorem run_of_entered (h : guard.enter frame.node = (.entered, guard')) :
    run step guard frame = do
      match ← (step frame.node).run with
      | .ok (.done t) => return ⟨[frame], .ok t⟩
      | .ok (.next next) =>
        let rest ← run step guard' next
        return { rest with frames := frame :: rest.frames }
      | .error e => return ⟨[frame], .error e⟩ := by
  rw [run]
  split
  · rename_i henter
    rw [h] at henter
    cases henter
    rfl
  all_goals
    rename_i henter
    rw [h] at henter
    cases henter

theorem outcome_run_of_entered (hstep : ∀ node, env.Transparent (step node).run)
    (h : guard.enter frame.node = (.entered, guard')) :
    (c.answer (run step guard frame)).outcome =
      match Progress.after (frameAnswer step c frame.node) with
      | .running next => (c.answer (run step guard' next)).outcome
      | .stopped outcome => outcome := by
  have hguard (next : Frame) : env.Transparent (run step guard' next >>= fun rest =>
      pure { rest with frames := frame :: rest.frames }) :=
    (transparent_run hstep guard' next).bind fun rest => .pure _
  rw [run_of_entered h, answer_bind (hstep frame.node), frameAnswer]
  · rcases c.answer (step frame.node).run with e | next | t
    · rfl
    · dsimp only [Progress.after]
      rw [answer_bind (transparent_run hstep guard' next) fun rest => .pure _]
      rfl
    · rfl
  · intro r
    rcases r with e | next | t
    · exact .pure _
    · exact hguard next
    · exact .pure _

/-- The guard lets through the distinct nodes of a way, as far as its limit goes. -/
theorem outcome_run_of_leads (hstep : ∀ node, env.Transparent (step node).run)
    (h : Leads (frameAnswer step c) frame nodes last) (hnodup : (nodes.reverse ++ seen).Nodup)
    (hlimit : (nodes.reverse ++ seen).length ≤ limit) :
    (c.answer (run step (.holding limit seen) frame)).outcome =
      (c.answer (run step (.holding limit (nodes.reverse ++ seen)) last)).outcome := by
  induction h generalizing seen with
  | refl => rfl
  | @next frame next last nodes hnext _ ih =>
    rw [List.reverse_cons, List.append_assoc, List.singleton_append] at hnodup hlimit ⊢
    have hseen : (frame.node :: seen).Nodup := (List.nodup_append.mp hnodup).2.1
    have hroom : seen.length < limit := by
      simp only [List.length_append, List.length_cons] at hlimit
      omega
    rcases Guard.enter_holding hroom frame.node with ⟨hmem, _⟩ | ⟨_, henter⟩
    · exact absurd hmem (List.nodup_cons.mp hseen).1
    · rw [outcome_run_of_entered hstep henter, hnext]
      exact ih hnodup hlimit

section Outcome

variable (hstep : ∀ node, env.Transparent (step node).run)
  (h : Leads (frameAnswer step c) frame nodes last)
include hstep h

/-- The guarded loop takes a way of distinct nodes within its limit, and then holds them. -/
theorem outcome_run_of_nodup (hnodup : nodes.Nodup) (hlimit : nodes.length ≤ limit) :
    (c.answer (run step (.holding limit []) frame)).outcome =
      (c.answer (run step (.holding limit nodes.reverse) last)).outcome := by
  rw [← List.append_nil nodes.reverse]
  exact outcome_run_of_leads hstep h (by simpa using hnodup) (by simpa using hlimit)

/-- A way of as many distinct nodes as the limit ends there. -/
theorem outcome_run_of_limit (hnodup : nodes.Nodup) (hlimit : limit ≤ nodes.length) :
    (c.answer (run step (.holding limit []) frame)).outcome = .error (.frameLimit limit) := by
  rw [← List.take_append_drop limit nodes] at h hnodup
  obtain ⟨mid, hfirst, _⟩ := h.exists_of_append
  have hlength : (nodes.take limit).length = limit := by simp [hlimit]
  rw [outcome_run_of_nodup hstep hfirst (List.nodup_append.mp hnodup).1 hlength.le]
  rw [run_of_isLimit]
  · rfl
  · apply Guard.isLimit_enter
    simp only [Guard.holding, List.length_reverse, hlength, le_refl]

/-- A node that comes back within the limit is named. -/
theorem outcome_run_of_repeat (hnodup : nodes.Nodup) (hlast : last.node ∈ nodes) :
    (c.answer (run step (.holding limit []) frame)).outcome =
      .error (if nodes.length < limit then .cycle last.node else .frameLimit limit) := by
  split
  · rename_i hlimit
    rw [outcome_run_of_nodup hstep h hnodup hlimit.le]
    have hroom : nodes.reverse.length < limit := by rwa [List.length_reverse]
    rcases Guard.enter_holding hroom last.node with ⟨_, henter⟩ | ⟨hfree, _⟩
    · rw [run_of_cycle henter]
      rfl
    · exact absurd (List.mem_reverse.mpr hlast) hfree
  · rename_i hlimit
    exact outcome_run_of_limit hstep h hnodup (Nat.not_lt.mp hlimit)

theorem outcome_run_of_stopped
    (hlast : Progress.after (frameAnswer step c last.node) = .stopped outcome) :
    (c.answer (run step (.holding limit []) frame)).outcome =
      if nodes.length < limit then outcome else .error (.frameLimit limit) := by
  obtain ⟨hnodup, _, hdisjoint⟩ := List.nodup_append.mp (h.nodup_of_stopped hlast)
  split
  · rename_i hlimit
    rw [outcome_run_of_nodup hstep h hnodup hlimit.le]
    have hroom : nodes.reverse.length < limit := by rwa [List.length_reverse]
    rcases Guard.enter_holding hroom last.node with ⟨hmem, _⟩ | ⟨_, henter⟩
    · exact absurd rfl (hdisjoint last.node (List.mem_reverse.mp hmem) last.node (by simp))
    · rw [outcome_run_of_entered hstep henter, hlast]
  · rename_i hlimit
    exact outcome_run_of_limit hstep h hnodup (Nat.not_lt.mp hlimit)

end Outcome

end Guarded

/-! ### Frames of an arena -/

section Frames

variable {env : Env} {deeper : Deeper} {req : Request} {c : Cache} {frame last : Frame}
  {nodes : List Link}

theorem lt_size_of_next {node : Link} {next : Frame}
    (h : frameAnswer (env.step deeper req) c node = .ok (.next next)) :
    ∃ n, node = some n ∧ n < env.arena.size := by
  cases hkind : env.arena.kind? node with
  | none =>
    simp only [frameAnswer, step, hkind] at h
    cases h
  | some kind =>
    cases node with
    | none => cases hkind
    | some n => exact ⟨n, rfl, Arena.lt_size_of_kind? hkind⟩

theorem length_le_size_of_nodup (hnodup : nodes.Nodup)
    (hnodes : ∀ node ∈ nodes, ∃ n, node = some n ∧ n < env.arena.size) :
    nodes.length ≤ env.arena.size := by
  have hsub : nodes.toFinset ⊆ (Finset.range env.arena.size).image some := by
    intro node hnode
    obtain ⟨n, rfl, hn⟩ := hnodes node (List.mem_toFinset.mp hnode)
    exact Finset.mem_image_of_mem some (Finset.mem_range.mpr hn)
  calc nodes.length = nodes.toFinset.card := (List.toFinset_card_of_nodup hnodup).symm
    _ ≤ ((Finset.range env.arena.size).image some).card := Finset.card_le_card hsub
    _ ≤ (Finset.range env.arena.size).card := Finset.card_image_le
    _ = env.arena.size := Finset.card_range _

theorem Leads.length_le_size (h : Leads (frameAnswer (env.step deeper req) c) frame nodes last)
    (hnodup : nodes.Nodup) : nodes.length ≤ env.arena.size := by
  refine length_le_size_of_nodup hnodup fun node hnode => ?_
  obtain ⟨next, hnext⟩ := h.exists_next hnode
  exact lt_size_of_next hnext

theorem exists_stopped_or_repeat (hdeeper : deeper.IsTransparent env) (req : Request) (c : Cache)
    (frame : Frame) :
    (∃ nodes last outcome, Leads (frameAnswer (env.step deeper req) c) frame nodes last ∧
      Progress.after (frameAnswer (env.step deeper req) c last.node) = .stopped outcome) ∨
    ∃ nodes last, Leads (frameAnswer (env.step deeper req) c) frame nodes last ∧ nodes.Nodup ∧
      last.node ∈ nodes := by
  have hstep := transparent_step hdeeper req
  cases hprogress : c.answer (unguarded (env.step deeper req) (env.arena.size + 1) frame) with
  | stopped outcome =>
    obtain ⟨nodes, last, _, hleads, hlast⟩ := exists_leads_of_stopped hstep hprogress
    exact .inl ⟨nodes, last, outcome, hleads, hlast⟩
  | running last =>
    obtain ⟨nodes, hlength, hleads⟩ := exists_leads_of_running hstep hprogress
    right
    refine hleads.exists_repeat fun hnodup => ?_
    have hle := hleads.length_le_size hnodup
    omega

end Frames

/-! ### Resolutions -/

theorem isTransparent_deeper (env : Env) (room : Nat) :
    Deeper.IsTransparent env ⟨env.resolveIn room, env.memberIn room⟩ :=
  ⟨(transparent_resolveIn_memberIn env room).1, (transparent_resolveIn_memberIn env room).2⟩

theorem answer_resolveIn_succ (env : Env) (room : Nat) (req : Request) (c : Cache) :
    c.answer (env.resolveIn (room + 1) req).run =
      (c.answer (run (env.step ⟨env.resolveIn room, env.memberIn room⟩ req)
        (.holding env.options.maxFrames []) { node := req.node })).outcome := by
  rw [resolveIn, Guard.holding_nil]
  rfl

end Env

end PonyLens
