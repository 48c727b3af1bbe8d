import PonyLens.Guard

/-!
# Entering and leaving a guard

What each answer of a guard says about the guard before and after, so that no later proof has to
look into `enter`.
-/

namespace PonyLens.Guard

variable {κ : Type} [DecidableEq κ] {g g' : Guard κ} {key : κ} {answer : Answer}

/-- What comes of an attempt to enter a key: the limits come first, and then the keys that are being
visited. -/
theorem enter_cases (g : Guard κ) (key : κ) :
    let counted := { g with visits := min (g.visits + 1) Word.max }
    (g.maxVisits < counted.visits ∧ g.enter key = (.tooMany, { counted with exceeded := true })) ∨
    counted.visits ≤ g.maxVisits ∧
      ((g.maxDepth ≤ g.depth ∧ g.enter key = (.tooDeep, { counted with exceeded := true })) ∨
      g.depth < g.maxDepth ∧
        ((key ∈ g.visiting ∧ g.enter key = (.cycle, counted)) ∨
        key ∉ g.visiting ∧ g.enter key =
          (.entered, { counted with visiting := key :: g.visiting, depth := g.depth + 1 }))) := by
  intro counted
  by_cases hvisits : g.maxVisits < counted.visits
  · exact .inl ⟨hvisits, by simp only [enter, if_pos hvisits, counted]⟩
  refine .inr ⟨Nat.not_lt.mp hvisits, ?_⟩
  by_cases hdepth : g.maxDepth ≤ g.depth
  · exact .inl ⟨hdepth, by simp only [enter, if_neg hvisits, if_pos hdepth, counted]⟩
  refine .inr ⟨Nat.not_le.mp hdepth, ?_⟩
  by_cases hkey : key ∈ g.visiting
  · exact .inl ⟨hkey, by simp only [enter, if_neg hvisits, if_neg hdepth, if_pos hkey, counted]⟩
  · exact .inr ⟨hkey, by simp only [enter, if_neg hvisits, if_neg hdepth, if_neg hkey, counted]⟩

/-- A refusal is counted, and else at most noted. -/
theorem eq_of_enter_refused (h : g.enter key = (answer, g')) (hanswer : answer ≠ .entered) :
    ∃ exceeded, g' = { g with visits := min (g.visits + 1) Word.max, exceeded } := by
  rcases enter_cases g key with ⟨_, heq⟩ | ⟨_, ⟨_, heq⟩ | ⟨_, ⟨_, heq⟩ | ⟨_, heq⟩⟩⟩
  all_goals
    rw [heq] at h
    cases h
  · exact ⟨_, rfl⟩
  · exact ⟨_, rfl⟩
  · exact ⟨_, rfl⟩
  · exact absurd rfl hanswer

theorem enter_eq_entered (h : g.enter key = (.entered, g')) :
    key ∉ g.visiting ∧ g'.visiting = key :: g.visiting ∧ g'.exceeded = g.exceeded := by
  rcases enter_cases g key with ⟨_, heq⟩ | ⟨_, ⟨_, heq⟩ | ⟨_, ⟨_, heq⟩ | ⟨hfree, heq⟩⟩⟩
  all_goals
    rw [heq] at h
    cases h
  exact ⟨hfree, rfl, rfl⟩

/-- The key was being visited; only the count of visits changes. -/
theorem enter_eq_cycle (h : g.enter key = (.cycle, g')) :
    key ∈ g.visiting ∧ ∃ visits, g' = { g with visits } := by
  rcases enter_cases g key with ⟨_, heq⟩ | ⟨_, ⟨_, heq⟩ | ⟨_, ⟨hmem, heq⟩ | ⟨_, heq⟩⟩⟩
  all_goals
    rw [heq] at h
    cases h
  exact ⟨hmem, _, rfl⟩

theorem exceeded_of_isLimit (h : g.enter key = (answer, g')) (hlimit : answer.isLimit = true) :
    g'.exceeded = true := by
  rcases enter_cases g key with ⟨_, heq⟩ | ⟨_, ⟨_, heq⟩ | ⟨_, ⟨_, heq⟩ | ⟨_, heq⟩⟩⟩
  all_goals
    rw [heq] at h
    cases h
  · rfl
  · rfl
  · cases hlimit
  · cases hlimit

theorem exceeded_enter (h : g.exceeded = true) (key : κ) : (g.enter key).2.exceeded = true := by
  rcases enter_cases g key with ⟨_, heq⟩ | ⟨_, ⟨_, heq⟩ | ⟨_, ⟨_, heq⟩ | ⟨_, heq⟩⟩⟩
  all_goals rw [heq]
  · exact h
  · exact h

theorem isLimit_enter (h : g.maxDepth ≤ g.depth) (key : κ) : (g.enter key).1.isLimit = true := by
  simp only [enter, if_pos h]
  split <;> rfl

theorem leave?_of_cons {visiting : List κ} (h : g.visiting = key :: visiting) :
    g.leave? key = some { g with visiting, depth := g.depth - 1 } := by
  simp [leave?, h]

/-- A guard with one limit for everything that has entered these keys and left none. -/
def holding (limit : Nat) (keys : List κ) : Guard κ where
  maxDepth := limit
  maxVisits := limit
  visiting := keys
  depth := keys.length
  visits := min keys.length Word.max

omit [DecidableEq κ] in
theorem holding_nil (limit : Nat) :
    holding limit ([] : List κ) = { maxDepth := limit, maxVisits := limit } := by
  simp [holding]

/-- Below the limit, a key is entered unless it is held. -/
theorem enter_holding {limit : Nat} {keys : List κ} (h : keys.length < limit) (key : κ) :
    (key ∈ keys ∧ ((holding limit keys).enter key).1 = .cycle) ∨
      (key ∉ keys ∧ (holding limit keys).enter key = (.entered, holding limit (key :: keys))) := by
  have hvisits : min (min keys.length Word.max + 1) Word.max =
      min (keys.length + 1) Word.max := by omega
  rcases enter_cases (holding limit keys) key with
    ⟨hcount, _⟩ | ⟨_, ⟨hdepth, _⟩ | ⟨_, ⟨hmem, heq⟩ | ⟨hfree, heq⟩⟩⟩
  · simp only [holding] at hcount
    omega
  · simp only [holding] at hdepth
    omega
  · exact .inl ⟨hmem, by rw [heq]⟩
  · exact .inr ⟨hfree, by rw [heq]; simp [holding, hvisits]⟩

/-- As long as the count of visits has not stopped, it is what refuses an entry. -/
theorem le_of_enter_holding_eq_tooDeep {limit : Nat} {keys : List κ}
    (h : ((holding limit keys).enter key).1 = .tooDeep) :
    Word.max ≤ limit ∧ Word.max ≤ keys.length := by
  rcases enter_cases (holding limit keys) key with
    ⟨_, heq⟩ | ⟨hvisits, ⟨hdepth, _⟩ | ⟨_, ⟨_, heq⟩ | ⟨_, heq⟩⟩⟩
  · rw [heq] at h
    cases h
  · simp only [holding] at hvisits hdepth
    omega
  · rw [heq] at h
    cases h
  · rw [heq] at h
    cases h

theorem exceeded_leave? (g : Guard κ) (key : κ) :
    ((g.leave? key).getD g).exceeded = g.exceeded := by
  rw [leave?]
  split <;> rfl

end PonyLens.Guard
