import Mathlib.Data.List.DropRight
import PonyLens.Proofs.GuardHistory

/-!
# The state of a guard

A guard keeps a list of keys, a depth, a count and a mark, and changes them in different places. All
of them can be read off the history of its calls since the last reset, and so can the answer to the
next attempt to enter a key. A key that is left without being visited is a call like any other here:
it is complained about, and the guard is used on.
-/

namespace PonyLens.Guard

/-- The calls of a guard in order, each attempt to enter a key with its answer. -/
abbrev History (κ : Type) := List (Call κ × Option Answer)

variable {κ : Type} [DecidableEq κ]

def answer? (g : Guard κ) : Call κ → Option Answer
  | .enter key => some (g.enter key).1
  | .leave _ | .reset => none

def history (g : Guard κ) : List (Call κ) → History κ
  | [] => []
  | call :: calls => (call, g.answer? call) :: (g.perform call).history calls

/-- Leaving a key in the order of its steps: the key is removed, then a complaint is made unless it
was there, and after that the depth goes down. After a complaint nothing more is done. -/
def leave (g : Guard κ) (key : κ) : Except String Unit × Guard κ :=
  let removed := { g with visiting := g.visiting.erase key }
  if key ∈ g.visiting then (.ok (), { removed with depth := removed.depth - 1 })
  else (.error leaveMessage, removed)

namespace History

/-- The part of a history behind its last reset. -/
def sinceReset (h : History κ) : History κ := h.rtakeWhile fun event => event.1 != .reset

def attempts (h : History κ) : Nat := h.countP fun event => event.2.isSome

/-- Whether a key has been entered and not been left since then. -/
def Holds (h : History κ) (key : κ) : Prop :=
  ∃ before later, h = before ++ (.enter key, some .entered) :: later ∧ (.leave key, none) ∉ later

def Exceeded (h : History κ) : Prop :=
  ∃ key, (.enter key, some .tooDeep) ∈ h ∨ (.enter key, some .tooMany) ∈ h

end History

variable {g : Guard κ} {h : History κ} {key other : κ} {answer : Answer}

/-! ### One more call -/

theorem history_concat (g : Guard κ) (calls : List (Call κ)) (call : Call κ) :
    g.history (calls ++ [call]) = g.history calls ++ [(call, (g.after calls).answer? call)] := by
  induction calls generalizing g with
  | nil => rfl
  | cons first calls ih => simp [history, ih]

/-- After a reset nothing has happened, and any other call is the last that has happened. -/
theorem sinceReset_history_concat (g : Guard κ) (calls : List (Call κ)) (call : Call κ) :
    (g.history (calls ++ [call])).sinceReset =
      if call = .reset then []
      else (g.history calls).sinceReset ++ [(call, (g.after calls).answer? call)] := by
  rw [history_concat, History.sinceReset, List.rtakeWhile_concat, History.sinceReset]
  by_cases hcall : call = .reset <;> simp [hcall]

namespace History

omit [DecidableEq κ] in
theorem attempts_concat (h : History κ) (call : Call κ) (answer : Option Answer) :
    attempts (h ++ [(call, answer)]) = h.attempts + if answer.isSome then 1 else 0 := by
  simp [attempts, List.countP_append, List.countP_singleton]

omit [DecidableEq κ] in
theorem not_holds_nil (key : κ) : ¬ Holds ([] : History κ) key := by
  rintro ⟨before, later, hsplit, _⟩
  simp at hsplit

omit [DecidableEq κ] in
/-- A key is held after an event if the event enters it, or if it was held before and the event does
not leave it. -/
theorem holds_concat (h : History κ) (event : Call κ × Option Answer) (key : κ) :
    Holds (h ++ [event]) key ↔
      event = (.enter key, some .entered) ∨ h.Holds key ∧ event ≠ (.leave key, none) := by
  constructor
  · rintro ⟨before, later, hsplit, hlater⟩
    rcases List.eq_nil_or_concat' later with rfl | ⟨later, last, rfl⟩
    · exact .inl (List.append_inj_right' hsplit rfl |> List.singleton_inj.mp)
    · rw [← List.cons_append, ← List.append_assoc] at hsplit
      obtain ⟨rfl, hlast⟩ := List.append_inj' hsplit rfl
      obtain rfl := List.singleton_inj.mp hlast
      rw [List.mem_append, List.mem_singleton, not_or] at hlater
      exact .inr ⟨⟨before, later, rfl, hlater.1⟩, Ne.symm hlater.2⟩
  · rintro (rfl | ⟨⟨before, later, rfl, hlater⟩, hne⟩)
    · exact ⟨h, [], rfl, List.not_mem_nil⟩
    · refine ⟨before, later ++ [event], by simp, ?_⟩
      rw [List.mem_append, List.mem_singleton, not_or]
      exact ⟨hlater, hne.symm⟩

omit [DecidableEq κ] in
theorem exceeded_concat (h : History κ) (event : Call κ × Option Answer) :
    Exceeded (h ++ [event]) ↔ h.Exceeded ∨
      ∃ key, event = (.enter key, some .tooDeep) ∨ event = (.enter key, some .tooMany) := by
  simp only [Exceeded, List.mem_append, List.mem_singleton, ← exists_or]
  refine exists_congr fun key => ?_
  rw [eq_comm (b := event), eq_comm (b := event)]
  tauto

end History

/-! ### What the history says of the guard -/

/-- Whether the guard keeps what the history since its last reset says. -/
structure Reflects (g : Guard κ) (since : History κ) : Prop where
  mem_visiting_iff (key : κ) : key ∈ g.visiting ↔ since.Holds key
  visits_eq : g.visits = min since.attempts Word.max
  exceeded_iff : g.exceeded = true ↔ since.Exceeded

omit [DecidableEq κ] in
theorem reflects_nil (maxDepth maxVisits : Nat) :
    Reflects ({ maxDepth, maxVisits } : Guard κ) [] where
  mem_visiting_iff key := by simp [History.not_holds_nil]
  visits_eq := rfl
  exceeded_iff := by simp [History.Exceeded]

variable {since : History κ}

theorem Reflects.enter (h : g.Reflects since) (key : κ) :
    (g.enter key).2.Reflects (since ++ [(.enter key, some (g.enter key).1)]) := by
  have hvisits (answer : Answer) : min (g.visits + 1) Word.max =
      min (History.attempts (since ++ [(.enter key, some answer)])) Word.max := by
    rw [History.attempts_concat, h.visits_eq]
    simp only [Option.isSome_some, if_true]
    omega
  rcases enter_cases g key with ⟨_, heq⟩ | ⟨_, ⟨_, heq⟩ | ⟨_, ⟨_, heq⟩ | ⟨_, heq⟩⟩⟩
  all_goals
    rw [heq]
    refine ⟨fun other => ?_, hvisits _, ?_⟩
  all_goals simp [History.holds_concat, History.exceeded_concat, h.mem_visiting_iff, h.exceeded_iff,
    eq_comm]

/-- A key that is left is no longer held; nothing else changes, and nothing at all if it was not
held. -/
theorem Reflects.leave (h : g.Reflects since) (hg : g.Valid) (key : κ) :
    (g.perform (.leave key)).Reflects (since ++ [(.leave key, none)]) := by
  have hvisits : History.attempts (since ++ [(.leave key, none)]) = since.attempts := by
    simp [History.attempts_concat]
  have hexceeded : g.exceeded = true ↔ History.Exceeded (since ++ [(.leave key, none)]) := by
    simpa [History.exceeded_concat] using h.exceeded_iff
  rw [perform, leave?]
  split
  · refine ⟨fun other => ?_, by rw [hvisits]; exact h.visits_eq, hexceeded⟩
    simp [History.holds_concat, hg.nodup.mem_erase_iff, h.mem_visiting_iff, and_comm, eq_comm]
  · rename_i hfree
    refine ⟨fun other => ?_, by rw [hvisits]; exact h.visits_eq, hexceeded⟩
    rw [History.holds_concat, ← h.mem_visiting_iff]
    constructor
    · intro hheld
      refine .inr ⟨hheld, fun heq => ?_⟩
      cases heq
      exact hfree hheld
    · rintro (heq | ⟨hheld, _⟩)
      · cases heq
      · exact hheld

/-- By induction on the calls, the last one first. -/
theorem reflects_after (maxDepth maxVisits : Nat) (calls : List (Call κ)) :
    (Guard.after { maxDepth, maxVisits } calls).Reflects
      (History.sinceReset (history { maxDepth, maxVisits } calls)) := by
  induction calls using List.reverseRecOn with
  | nil => exact reflects_nil maxDepth maxVisits
  | append_singleton calls call ih =>
    have hvalid : (Guard.after ({ maxDepth, maxVisits } : Guard κ) calls).Valid :=
      Valid.after ⟨List.nodup_nil, rfl, Nat.zero_le _⟩ calls
    rw [after_append, sinceReset_history_concat]
    cases call with
    | enter key => exact ih.enter key
    | leave key => exact ih.leave hvalid key
    | reset => exact reflects_nil _ _

/-! ### Refusals -/

/-- Leaving step by step comes to the same as leaving at once, if there is anything to leave. -/
theorem snd_leave (g : Guard κ) (key : κ) : (g.leave key).2 = g.perform (.leave key) := by
  rw [leave, perform, leave?]
  split
  · rfl
  · rename_i hfree
    simp [List.erase_of_not_mem hfree]

/-- The complaint about a key that is not visited comes before anything has changed. -/
theorem leave_of_not_mem (h : key ∉ g.visiting) : g.leave key = (.error leaveMessage, g) := by
  rw [leave, if_neg h, List.erase_of_not_mem h]

/-- As long as the count of attempts has not stopped, it decides first, and then the depth. -/
theorem answer_enter (h : g.Reflects since) (hg : g.Valid) (hcount : since.attempts < Word.max)
    (key : κ) :
    (g.enter key).1 =
      if g.maxVisits < since.attempts + 1 then .tooMany
      else if g.depth = g.maxDepth then .tooDeep
      else if key ∈ g.visiting then .cycle
      else .entered := by
  have hvisits : min (g.visits + 1) Word.max = since.attempts + 1 := by
    rw [h.visits_eq]
    omega
  have hdepth := hg.depth_le
  rcases enter_cases g key with
    ⟨hmany, heq⟩ | ⟨hfew, ⟨hdeep, heq⟩ | ⟨hflat, ⟨hkey, heq⟩ | ⟨hkey, heq⟩⟩⟩
  all_goals rw [heq]
  · rw [if_pos (hvisits ▸ hmany)]
  · rw [if_neg (hvisits ▸ Nat.not_lt.mpr hfew), if_pos (Nat.le_antisymm hdepth hdeep)]
  · rw [if_neg (hvisits ▸ Nat.not_lt.mpr hfew), if_neg (Nat.ne_of_lt hflat), if_pos hkey]
  · rw [if_neg (hvisits ▸ Nat.not_lt.mpr hfew), if_neg (Nat.ne_of_lt hflat), if_neg hkey]

/-- Whatever the calls, the guard is what the history since its last reset says. It holds the keys
that have been entered and not left, each once; the depth is their number and within its limit; the
count is that of the attempts, up to the largest word; and the mark is set exactly if a limit has
refused an attempt. A refusal is counted and at most noted, and a complaint changes nothing. The
next answer comes from the number of attempts, the depth and the keys, in this order. -/
theorem state_of_history (maxDepth maxVisits : Nat) (calls : List (Call κ)) :
    let fresh : Guard κ := { maxDepth, maxVisits }
    let g := fresh.after calls
    let since := (fresh.history calls).sinceReset
    (∀ key, key ∈ g.visiting ↔ since.Holds key) ∧
    (g.visiting.Nodup ∧ g.depth = g.visiting.length ∧ g.depth ≤ maxDepth) ∧
    g.visits = min since.attempts Word.max ∧
    (g.exceeded = true ↔ since.Exceeded) ∧
    (∀ key, (g.enter key).1 ≠ .entered →
      ∃ visits exceeded, g.perform (.enter key) = { g with visits, exceeded }) ∧
    (∀ key, (g.leave key).2 = g.perform (.leave key) ∧
      (key ∉ g.visiting → g.leave key = (.error leaveMessage, g))) ∧
    ∀ key, since.attempts + 1 ≤ Word.max →
      (g.enter key).1 =
        if maxVisits < since.attempts + 1 then .tooMany
        else if g.depth = maxDepth then .tooDeep
        else if key ∈ g.visiting then .cycle
        else .entered := by
  intro fresh g since
  have hreflects : g.Reflects since := reflects_after maxDepth maxVisits calls
  have hvalid : g.Valid := Valid.after ⟨List.nodup_nil, rfl, Nat.zero_le _⟩ calls
  obtain ⟨hmaxDepth, hmaxVisits⟩ : g.maxDepth = maxDepth ∧ g.maxVisits = maxVisits :=
    limits_after fresh calls
  refine ⟨hreflects.mem_visiting_iff, ⟨hvalid.nodup, hvalid.depth_eq, hmaxDepth ▸ hvalid.depth_le⟩,
    hreflects.visits_eq, hreflects.exceeded_iff, fun key hrefused => ?_,
    fun key => ⟨snd_leave g key, leave_of_not_mem⟩, fun key hcount => ?_⟩
  · have henter : g.enter key = ((g.enter key).1, g.perform (.enter key)) := rfl
    obtain ⟨exceeded, heq⟩ := eq_of_enter_refused henter hrefused
    exact ⟨_, exceeded, heq⟩
  · have hanswer := answer_enter hreflects hvalid hcount key
    rwa [hmaxDepth, hmaxVisits] at hanswer

end PonyLens.Guard
