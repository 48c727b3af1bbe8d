import PonyLens.Proofs.Guard

/-!
# The calls of a guard

A walk uses its guard through calls, one after the other. Whatever they are, a guard holds no key
twice and no more keys than its limit says. Calls that leave what they have entered, and nothing
else, give the keys back that were held before them.
-/

namespace PonyLens.Guard

inductive Call (κ : Type) where
  | enter (key : κ)
  | leave (key : κ)
  | reset
deriving DecidableEq, Repr

variable {κ : Type} [DecidableEq κ]

/-- The guard after a call. A key that is left without being visited changes nothing. -/
def perform (g : Guard κ) : Call κ → Guard κ
  | .enter key => (g.enter key).2
  | .leave key => (g.leave? key).getD g
  | .reset => g.reset

def after (g : Guard κ) (calls : List (Call κ)) : Guard κ := calls.foldl perform g

def answers (g : Guard κ) : List (Call κ) → List Answer
  | [] => []
  | .enter key :: calls => (g.enter key).1 :: (g.perform (.enter key)).answers calls
  | call :: calls => (g.perform call).answers calls

/-- Whether each key that is left is being visited at that time. -/
def LeavesVisited (g : Guard κ) : List (Call κ) → Prop
  | [] => True
  | .leave key :: calls => key ∈ g.visiting ∧ (g.perform (.leave key)).LeavesVisited calls
  | call :: calls => (g.perform call).LeavesVisited calls

variable {g g' g'' : Guard κ} {key : κ} {answer : Answer} {calls calls' : List (Call κ)}

@[simp] theorem after_nil (g : Guard κ) : g.after [] = g := rfl

@[simp] theorem after_cons (g : Guard κ) (call : Call κ) (calls : List (Call κ)) :
    g.after (call :: calls) = (g.perform call).after calls := rfl

@[simp] theorem after_append (g : Guard κ) (calls calls' : List (Call κ)) :
    g.after (calls ++ calls') = (g.after calls).after calls' := List.foldl_append

theorem leavesVisited_append (g : Guard κ) (calls calls' : List (Call κ)) :
    g.LeavesVisited (calls ++ calls') ↔
      g.LeavesVisited calls ∧ (g.after calls).LeavesVisited calls' := by
  induction calls generalizing g with
  | nil => simp [LeavesVisited]
  | cons call calls ih => cases call <;> simp [LeavesVisited, ih, and_assoc]

def room (g : Guard κ) : Nat := g.maxDepth - g.depth

theorem room_of_entered (h : g.enter key = (.entered, g')) : g.room = g'.room + 1 := by
  obtain ⟨hlt, hdepth, hlimit⟩ := depth_of_enter_eq_entered h
  rw [room, room, hdepth, hlimit]
  omega

theorem enter_of_room_eq_zero (h : g.room = 0) (key : κ) : (g.enter key).1 ≠ .entered := by
  have hlimit := isLimit_enter (Nat.le_of_sub_eq_zero h) key
  intro hentered
  rw [hentered] at hlimit
  cases hlimit

/-! ### What every call keeps -/

theorem limits_perform (g : Guard κ) (call : Call κ) :
    (g.perform call).maxDepth = g.maxDepth ∧ (g.perform call).maxVisits = g.maxVisits := by
  cases call with
  | enter key =>
    rcases enter_cases g key with ⟨_, heq⟩ | ⟨_, ⟨_, heq⟩ | ⟨_, ⟨_, heq⟩ | ⟨_, heq⟩⟩⟩
    all_goals simp [perform, heq]
  | leave key =>
    simp only [perform, leave?]
    split <;> simp
  | reset => simp [perform, reset]

theorem limits_after (g : Guard κ) (calls : List (Call κ)) :
    (g.after calls).maxDepth = g.maxDepth ∧ (g.after calls).maxVisits = g.maxVisits := by
  induction calls generalizing g with
  | nil => simp
  | cons call calls ih =>
    obtain ⟨hdepth, hvisits⟩ := limits_perform g call
    simp [ih, hdepth, hvisits]

/-- No key is held twice, the depth is the number of keys, and it is within the limit. -/
structure Valid (g : Guard κ) : Prop where
  nodup : g.visiting.Nodup
  depth_eq : g.depth = g.visiting.length
  depth_le : g.depth ≤ g.maxDepth

theorem Valid.perform (h : g.Valid) (call : Call κ) : (g.perform call).Valid := by
  cases call with
  | enter key =>
    rcases enter_cases g key with ⟨_, heq⟩ | ⟨_, ⟨_, heq⟩ | ⟨hdepth, ⟨_, heq⟩ | ⟨hfree, heq⟩⟩⟩
    all_goals rw [Guard.perform, heq]
    · exact ⟨h.nodup, h.depth_eq, h.depth_le⟩
    · exact ⟨h.nodup, h.depth_eq, h.depth_le⟩
    · exact ⟨h.nodup, h.depth_eq, h.depth_le⟩
    · exact ⟨List.nodup_cons.mpr ⟨hfree, h.nodup⟩, by simp [h.depth_eq], hdepth⟩
  | leave key =>
    rw [Guard.perform, leave?]
    split
    · rename_i hmem
      have hlength := List.length_erase_of_mem hmem
      have hle := h.depth_le
      exact ⟨h.nodup.erase key, by simp [hlength, h.depth_eq], by simp; omega⟩
    · exact h
  | reset => exact ⟨List.nodup_nil, rfl, Nat.zero_le _⟩

theorem Valid.after (h : g.Valid) (calls : List (Call κ)) : (g.after calls).Valid := by
  induction calls generalizing g with
  | nil => exact h
  | cons call calls ih => exact ih (h.perform call)

/-- However the calls go, no more keys are held than the limit says. -/
theorem Valid.length_visiting_le (h : g.Valid) (calls : List (Call κ)) :
    (g.after calls).visiting.length ≤ g.maxDepth := by
  have hafter := h.after calls
  calc (g.after calls).visiting.length = (g.after calls).depth := hafter.depth_eq.symm
    _ ≤ (g.after calls).maxDepth := hafter.depth_le
    _ = g.maxDepth := (limits_after g calls).1

/-- Each entry uses up one visit. -/
theorem count_entered_le (h : .reset ∉ calls) (hlimit : g.maxVisits < Word.max) :
    (g.answers calls).count .entered ≤ g.maxVisits - g.visits := by
  induction calls generalizing g with
  | nil => simp [answers]
  | cons call calls ih =>
    have hrest := ih (List.not_mem_of_not_mem_cons h) (g := g.perform call)
      ((limits_perform g call).2 ▸ hlimit)
    cases call with
    | enter key =>
      simp only [answers, List.count_cons]
      rcases enter_cases g key with ⟨_, heq⟩ | ⟨hvisits, ⟨_, heq⟩ | ⟨_, ⟨_, heq⟩ | ⟨_, heq⟩⟩⟩
      all_goals simp only [perform, heq] at hrest ⊢
      · simp
        omega
      · simp
        omega
      · simp
        omega
      · simp at hvisits ⊢
        omega
    | leave key =>
      have hvisits : (g.perform (.leave key)).visits = g.visits := by
        simp only [perform, leave?]
        split <;> rfl
      rw [hvisits, (limits_perform g _).2] at hrest
      exact hrest
    | reset => exact absurd rfl (List.ne_of_not_mem_cons h)

/-! ### Calls that leave what they have entered -/

/-- The calls lead from `g` to `g'`. They leave only what is being visited, and in the end the same
keys are visited as before. -/
structure Balanced (g : Guard κ) (calls : List (Call κ)) (g' : Guard κ) : Prop where
  after_eq : g.after calls = g'
  leavesVisited : g.LeavesVisited calls
  visiting_eq : g'.visiting = g.visiting
  depth_eq : g'.depth = g.depth
  reset_not_mem : .reset ∉ calls

protected theorem Balanced.nil (g : Guard κ) : g.Balanced [] g where
  after_eq := rfl
  leavesVisited := trivial
  visiting_eq := rfl
  depth_eq := rfl
  reset_not_mem := List.not_mem_nil

protected theorem Balanced.append (h : g.Balanced calls g') (h' : g'.Balanced calls' g'') :
    g.Balanced (calls ++ calls') g'' where
  after_eq := by rw [after_append, h.after_eq, h'.after_eq]
  leavesVisited := by
    rw [leavesVisited_append, h.after_eq]
    exact ⟨h.leavesVisited, h'.leavesVisited⟩
  visiting_eq := h'.visiting_eq.trans h.visiting_eq
  depth_eq := h'.depth_eq.trans h.depth_eq
  reset_not_mem := by simp [h.reset_not_mem, h'.reset_not_mem]

theorem Balanced.room_eq (h : g.Balanced calls g') : g'.room = g.room := by
  have hlimit := (limits_after g calls).1
  rw [h.after_eq] at hlimit
  rw [room, room, hlimit, h.depth_eq]

theorem balanced_of_refused (h : g.enter key = (answer, g')) (hanswer : answer ≠ .entered) :
    g.Balanced [.enter key] g' := by
  obtain ⟨exceeded, rfl⟩ := eq_of_enter_refused h hanswer
  exact ⟨by simp [perform, h], trivial, rfl, rfl, by simp⟩

/-- Balanced calls between the entry of a key and its being left. -/
theorem Balanced.enclose (hinner : g'.Balanced calls g'') (h : g.enter key = (.entered, g')) :
    g.Balanced (.enter key :: calls ++ [.leave key]) ((g''.leave? key).getD g'') := by
  obtain ⟨_, hvisiting, _⟩ := enter_eq_entered h
  obtain ⟨_, hdepth, _⟩ := depth_of_enter_eq_entered h
  have hkeys : g''.visiting = key :: g.visiting := hinner.visiting_eq.trans hvisiting
  have hafter : g.after (.enter key :: calls) = g'' := by
    rw [after_cons, perform, h, hinner.after_eq]
  refine ⟨?_, ?_, ?_, ?_, ?_⟩
  · rw [after_append, hafter]
    rfl
  · rw [leavesVisited_append, hafter]
    refine ⟨?_, by simp [hkeys], trivial⟩
    rw [LeavesVisited, perform, h]
    · exact hinner.leavesVisited
    · simp
  · rw [leave?_of_cons hkeys]
    rfl
  · rw [leave?_of_cons hkeys]
    simp [hinner.depth_eq, hdepth]
  · simp [hinner.reset_not_mem]

end PonyLens.Guard
