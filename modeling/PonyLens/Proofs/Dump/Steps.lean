import PonyLens.Proofs.Dump.Grammar

/-!
# What the reader does with a token

For each function of the reader, all that it can do if it does not refuse. A token that does not
start a node of several tokens leaves the reader between two nodes.
-/

namespace PonyLens.Dump

open Outline (kindOf)

namespace Reader

/-- Whether every node that has been started has been created as well. -/
def Expecting.isBetween : Expecting → Bool
  | .root | .child | .nothing _ => true
  | .kind _ | .name .. | .text .. => false

variable {r r' : Reader} {x : Lexeme} {n : NodeId} {w text : String} {kind : Kind}
  {opening place location : Location}

theorem complete_cases (h : r.complete n = .ok r') :
    r.openNodes = [] ∧ r' = { r with expecting := .nothing n } ∨
    ∃ top rest arena, r.openNodes = top :: rest ∧
      r.arena.appendChild (some top.node) (some n) = .ok arena ∧
      r' = { r with arena, expecting := .child } := by
  unfold complete at h
  split at h
  · rename_i hnil
    exact .inl ⟨hnil, (Except.ok.inj h).symm⟩
  · rename_i hopen
    split at h
    · rename_i happend
      exact .inr ⟨_, _, _, hopen, happend, (Except.ok.inj h).symm⟩
    · cases h

theorem isBetween_complete (h : r.complete n = .ok r') : r'.expecting.isBetween = true := by
  rcases complete_cases h with ⟨_, rfl⟩ | ⟨_, _, _, _, _, rfl⟩ <;> rfl

theorem isBetween_leaf (h : r.leaf kind text location = .ok r') : r'.expecting.isBetween = true :=
  isBetween_complete h

/-- A bare word that is not refused writes a leaf, at the place in the word or else at the word. -/
theorem bareWord_cases (h : r.bareWord w place = .ok r') :
    ∃ kind text, WritesLeaf w (.node kind text []) ∧
      r.leaf kind text (splitLocation w place).2 = .ok r' := by
  have hword := splitLocation_fst w place
  rcases hsplit : splitLocation w place with ⟨base, location⟩
  rw [hsplit] at hword
  subst hword
  simp only [bareWord, hsplit] at h
  split at h
  · rename_i hnumber
    exact ⟨_, _, .number hnumber, h⟩
  · rename_i hnumber
    split at h
    · rename_i hkind
      split at h
      · cases h
      · rename_i hname
        simp only [Bool.or_eq_true, beq_iff_eq, not_or, Bool.not_eq_true] at hname
        exact ⟨_, _, .kind hnumber hkind hname.1 hname.2, h⟩
    · rename_i hkind
      exact ⟨_, _, .unknown hnumber hkind, h⟩

theorem start_cases (h : r.start x = .ok r') :
    x.token = .opening ∧ r' = { r with expecting := .kind x.location } ∨
    (∃ s, x.token = .quoted s ∧ r.leaf .stringLit s x.location = .ok r') ∨
    ∃ w kind text, x.token = .word w ∧ WritesLeaf w (.node kind text []) ∧
      r.leaf kind text (splitLocation w x.location).2 = .ok r' := by
  unfold start at h
  split at h
  · cases h
  · split at h
    · rename_i hx
      exact .inl ⟨hx, (Except.ok.inj h).symm⟩
    · cases h
    · rename_i hx
      obtain ⟨kind, text, hleaf, hr'⟩ := bareWord_cases h
      exact .inr (.inr ⟨_, kind, text, hx, hleaf, hr'⟩)
    · rename_i hx
      exact .inr (.inl ⟨_, hx, h⟩)

theorem close_cases (h : r.close place = .ok r') :
    ∃ top rest, r.openNodes = top :: rest ∧
      ({ r with openNodes := rest } : Reader).complete top.node = .ok r' := by
  unfold close at h
  split at h
  · cases h
  · rename_i hopen
    split at h
    · cases h
    · exact ⟨_, _, hopen, h⟩

theorem kindWord_eq (r : Reader) (opening : Location) (w : String) (place : Location) :
    r.kindWord opening w place =
      if kindOf w = .ident then
        { r with expecting := .name opening place (splitLocation w opening).2 }
      else if kindOf w = .other then
        r.beginNode opening .other (unplaced w) (splitLocation w opening).2
      else if mayHaveText (kindOf w) then
        { r with expecting := .text (kindOf w) opening (splitLocation w opening).2 }
      else r.beginNode opening (kindOf w) "" (splitLocation w opening).2 := by
  have hword := splitLocation_fst w opening
  rcases hsplit : splitLocation w opening with ⟨base, location⟩
  rw [hsplit] at hword
  subst hword
  unfold kindWord
  rw [hsplit]
  dsimp only
  have hkind : (Kind.ofWord? (unplaced w)).getD .other = kindOf w := rfl
  rw [hkind]
  generalize kindOf w = kind
  cases kind <;> rfl

theorem childOrClose_cases (h : r.childOrClose x = .ok r') :
    x.token = .closing ∧ r.close x.location = .ok r' ∨
    x.token ≠ .closing ∧ r.start x = .ok r' := by
  unfold childOrClose at h
  split at h
  · rename_i hx
    exact .inl ⟨hx, h⟩
  · rename_i hx
    exact .inr ⟨hx, h⟩

theorem feed_between (hr : r.expecting.isBetween = true) (h : r.feed x = .ok r') :
    x.token = .closing ∧ r.close x.location = .ok r' ∨ r.start x = .ok r' := by
  unfold feed at h
  split at h
  · exact .inr h
  · exact (childOrClose_cases h).imp_right And.right
  · cases h
  all_goals
    rename_i hexpecting
    rw [hexpecting] at hr
    cases hr

/-! ### Runs -/

theorem run_cons {xs : List Lexeme} (h : (x :: xs).foldlM feed r = .ok r') :
    ∃ q, r.feed x = .ok q ∧ xs.foldlM feed q = .ok r' := by
  rw [List.foldlM_cons] at h
  cases hq : r.feed x with
  | error refusal =>
    rw [hq] at h
    cases h
  | ok q =>
    rw [hq] at h
    exact ⟨q, rfl, h⟩

theorem run_concat {xs : List Lexeme} (h : (xs ++ [x]).foldlM feed r = .ok r') :
    ∃ q, xs.foldlM feed r = .ok q ∧ q.feed x = .ok r' := by
  induction xs generalizing r with
  | nil =>
    obtain ⟨q, hfeed, hq⟩ := run_cons h
    cases hq
    exact ⟨r, rfl, hfeed⟩
  | cons y xs ih =>
    obtain ⟨q, hfeed, hrest⟩ := run_cons h
    obtain ⟨q', hq', hlast⟩ := ih hrest
    refine ⟨q', ?_, hlast⟩
    rw [List.foldlM_cons, hfeed]
    exact hq'

theorem finish_eq_ok {b : Arena} (h : r.finish (.complete place) = .ok (n, b)) :
    r.expecting = .nothing n ∧ r.arena = b := by
  cases hr : r.expecting with
  | nothing root =>
    simp only [finish, hr] at h
    cases h
    exact ⟨rfl, rfl⟩
  | root | child | kind | name | text =>
    simp only [finish, hr] at h
    cases h

end Reader

theorem exists_treeOf? {a b : Arena} {n : NodeId} {source : String}
    (h : read a source = (.ok n, b)) : ∃ t, treeOf? source = some t ∧ b.tree? (some n) = some t := by
  rcases read_cases a source with ⟨t, m, c, htree, hread, hholds⟩ | ⟨error, c, _, hread⟩
  · rw [hread] at h
    cases h
    exact ⟨t, htree, hholds.tree?_eq⟩
  · rw [hread] at h
    cases h

/-- A text is read in one run that ends with the finished root. -/
theorem exists_run {a b : Arena} {n : NodeId} {source : String} {xs : List Lexeme}
    {place : Location} (h : read a source = (.ok n, b))
    (hscan : scan source = (xs, .complete place)) :
    ∃ r, xs.foldlM Reader.feed { arena := a } = .ok r ∧ r.expecting = .nothing n ∧ r.arena = b := by
  rw [read, hscan] at h
  dsimp only at h
  cases hrun : xs.foldlM Reader.feed { arena := a } with
  | error refusal =>
    rw [hrun] at h
    cases h
  | ok r =>
    rw [hrun] at h
    cases hfinish : r.finish (.complete place) with
    | error refusal =>
      simp [bind, Except.bind, hfinish] at h
    | ok answer =>
      obtain ⟨m, c⟩ := answer
      simp only [bind, Except.bind, hfinish] at h
      cases h
      exact ⟨r, rfl, Reader.finish_eq_ok hfinish⟩

end PonyLens.Dump
