import PonyLens.Word

/-!
# Visit guards

A `Guard` bounds a traversal of a graph: it remembers the keys being visited, so that a key is not
entered twice, and refuses to go deeper than `maxDepth` or to answer more than `maxVisits` entries.
A traversal that never leaves a key uses the same guard as the set of keys it has seen.
-/

namespace PonyLens

inductive Guard.Answer where
  | entered
  /-- The key is being visited already. -/
  | cycle
  | tooDeep
  | tooMany
deriving DecidableEq, Repr

/-- Whether a limit, and not the key, is the reason of the refusal. -/
def Guard.Answer.isLimit : Guard.Answer → Bool
  | .tooDeep | .tooMany => true
  | .entered | .cycle => false

structure Guard (κ : Type) where
  maxDepth : Nat
  maxVisits : Nat
  /-- The keys entered and not left. -/
  visiting : List κ := []
  /-- The number of keys entered and not left. -/
  depth : Nat := 0
  /-- The number of attempts to enter; the count stops at the largest word. -/
  visits : Nat := 0
  /-- Whether a limit has refused an entry. -/
  exceeded : Bool := false
deriving DecidableEq, Repr

namespace Guard

variable {κ : Type} [DecidableEq κ]

/-- Tries to enter a key. The visit count is checked first, then the depth, then the key. -/
def enter (g : Guard κ) (key : κ) : Answer × Guard κ :=
  let g := { g with visits := min (g.visits + 1) Word.max }
  if g.maxVisits < g.visits then (.tooMany, { g with exceeded := true })
  else if g.maxDepth ≤ g.depth then (.tooDeep, { g with exceeded := true })
  else if key ∈ g.visiting then (.cycle, g)
  else (.entered, { g with visiting := key :: g.visiting, depth := g.depth + 1 })

/-- Enters `key`, `key + 1` and so on, `times` entries in all, and gives the last answer. -/
def enterMany (g : Guard Nat) (key times : Nat) : Answer × Guard Nat :=
  (List.range (times - 1)).foldl (fun (_, g) i => g.enter (key + i + 1)) (g.enter key)

/-- Leaves a key. There is no state after leaving a key that is not being visited. -/
def leave? (g : Guard κ) (key : κ) : Option (Guard κ) :=
  if key ∈ g.visiting then
    some { g with visiting := g.visiting.erase key, depth := g.depth - 1 }
  else none

def leaveMessage : String :=
  "RecursionGuard::leave() called with a key that is not in the visiting set"

/-- Forgets the history and keeps the limits. -/
def reset (g : Guard κ) : Guard κ := { maxDepth := g.maxDepth, maxVisits := g.maxVisits }

theorem depth_of_enter_eq_entered {g g' : Guard κ} {key : κ} (h : g.enter key = (.entered, g')) :
    g.depth < g.maxDepth ∧ g'.depth = g.depth + 1 ∧ g'.maxDepth = g.maxDepth := by
  simp only [enter] at h
  split at h
  · simp at h
  · split at h
    · simp at h
    · split at h
      · simp at h
      · simp only [Prod.mk.injEq, true_and] at h
        subst h
        exact ⟨by omega, rfl, rfl⟩

end Guard

end PonyLens
