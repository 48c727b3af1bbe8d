import Mathlib.Data.List.TakeWhile
import PonyLens.Dump.Token
import PonyLens.Dump.Word

/-!
# Words

What the scanner takes as one word, what a word loses with the place at its end, and the words that
stand for kinds: none of them carries a place or writes a number, and each is read as its kind.
-/

namespace PonyLens

namespace Dump

/-- Whether a text is one word for the scanner. -/
def IsWord (s : String) : Prop := s ≠ "" ∧ ∀ c ∈ s.toList, Scanner.endsWord c = false

instance (s : String) : Decidable (IsWord s) :=
  have := List.decidableBAll (fun c => Scanner.endsWord c = false) s.toList
  inferInstanceAs (Decidable (s ≠ "" ∧ ∀ c ∈ s.toList, Scanner.endsWord c = false))

def unplaced (word : String) : String := (splitLocation word .unknown).1

/-- The place that is assumed for a word without one does not matter for the word. -/
theorem splitLocation_fst (word : String) (fallback : Location) :
    (splitLocation word fallback).1 = unplaced word := by
  simp only [unplaced, splitLocation]
  split
  · split <;> rfl
  · rfl

/-- A place takes up at least one character. -/
theorem unplaced_eq_or (word : String) :
    unplaced word = word ∨
      unplaced word ≠ "" ∧ ∃ place ≠ [], word.toList = (unplaced word).toList ++ place := by
  simp only [unplaced, splitLocation]
  split
  · rename_i c base hdrop
    split
    · right
      have happend := List.takeWhile_append_dropWhile
        (p := fun d => d != '@') (l := word.toList.reverse)
      rw [hdrop] at happend
      refine ⟨by simp, '@' :: (word.toList.reverse.takeWhile (· != '@')).reverse, by simp, ?_⟩
      have hrev := congrArg List.reverse happend
      rw [List.reverse_reverse, List.reverse_append, List.reverse_cons] at hrev
      rw [List.append_assoc, List.singleton_append] at hrev
      rw [String.toList_ofList]
      exact hrev.symm
    · exact .inl rfl
  · exact .inl rfl

theorem IsWord.unplaced {word : String} (h : IsWord word) : IsWord (unplaced word) := by
  rcases unplaced_eq_or word with heq | ⟨hne, place, _, happend⟩
  · rwa [heq]
  · exact ⟨hne, fun c hc => h.2 c (happend ▸ List.mem_append_left place hc)⟩

theorem unplaced_of_not_mem {word : String} (h : '@' ∉ word.toList) : unplaced word = word := by
  have hdrop : word.toList.reverse.dropWhile (· != '@') = [] := by
    refine List.dropWhile_eq_nil_iff.mpr fun c hc => bne_iff_ne.mpr ?_
    intro heq
    exact h (heq ▸ List.mem_reverse.mp hc)
  simp only [unplaced, splitLocation, hdrop]

theorem numberKind?_eq_some {w : String} {kind : Kind} (h : numberKind? w = some kind) :
    kind = .intLit ∨ kind = .floatLit := by
  simp only [numberKind?] at h
  split at h
  · cases h
  · grind

end Dump

namespace Kind

open Dump

theorem mem_all (kind : Kind) : kind ∈ all := by
  cases kind <;> decide

theorem token_reads (kind : Kind) :
    IsWord kind.token ∧ unplaced kind.token = kind.token ∧ numberKind? kind.token = none ∧
      ofWord? kind.token = some kind := by
  have hall : ∀ k ∈ all, IsWord k.token ∧ unplaced k.token = k.token ∧
      numberKind? k.token = none ∧ ofWord? k.token = some k := by
    decide +kernel
  exact hall kind kind.mem_all

theorem isWord_token (kind : Kind) : IsWord kind.token := kind.token_reads.1

@[simp] theorem unplaced_token (kind : Kind) : unplaced kind.token = kind.token :=
  kind.token_reads.2.1

@[simp] theorem numberKind?_token (kind : Kind) : numberKind? kind.token = none :=
  kind.token_reads.2.2.1

@[simp] theorem ofWord?_token (kind : Kind) : ofWord? kind.token = some kind :=
  kind.token_reads.2.2.2

theorem ofWord?_empty : ofWord? "" = none := by
  decide +kernel

end Kind

end PonyLens
