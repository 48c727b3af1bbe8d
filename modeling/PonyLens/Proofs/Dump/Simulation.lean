import PonyLens.Proofs.Dump.Outline
import PonyLens.Proofs.Dump.Storage

/-!
# The reader fills an arena with what it reads

The reader and its outline take each token in step: both accept it or both refuse it, and after it
every open node holds its frame. So reading succeeds exactly when the outline gives a tree, and then
the root holds this tree. None of it depends on the arena that is read into.
-/

namespace PonyLens

open Dump

def Dump.Frame.tree (f : Frame) : Tree := .node f.kind f.text f.children

namespace Dump.Reader

/-- Whether the open nodes hold the frames. The inner ones have been created later. -/
inductive Stack (a : Arena) : List OpenNode → List Frame → Prop
  | nil : Stack a [] []
  | cons {x : OpenNode} {f : Frame} {xs : List OpenNode} {fs : List Frame}
    (top : a.Holds x.node none f.tree) (ordered : ∀ y ∈ xs, y.node < x.node)
    (rest : Stack a xs fs) : Stack a (x :: xs) (f :: fs)

inductive Expecting.Matches (a : Arena) : Expecting → Outline.Expecting → Prop
  | root : Matches a .root .root
  | kind (opening : Location) : Matches a (.kind opening) .kind
  | name (opening word location : Location) : Matches a (.name opening word location) .name
  | text (kind : Kind) (opening location : Location) :
    Matches a (.text kind opening location) (.text kind)
  | child : Matches a .child .child
  | nothing {n : NodeId} {t : Tree} (h : a.Holds n none t) : Matches a (.nothing n) (.nothing t)

structure Follows (r : Reader) (o : Outline) : Prop where
  stack : Stack r.arena r.openNodes o.frames
  expecting : r.expecting.Matches r.arena o.expecting

/-- Whether both accept and stand at the same place, or both refuse. -/
inductive Agrees : Except Refusal Reader → Option Outline → Prop
  | accept {r : Reader} {o : Outline} (h : r.Follows o) : Agrees (.ok r) (some o)
  | refuse (refusal : Refusal) : Agrees (.error refusal) none

variable {a a' : Arena} {xs : List OpenNode} {fs : List Frame} {r : Reader} {o : Outline}
  {n : NodeId} {t : Tree}

theorem Stack.length_eq (h : Stack a xs fs) : xs.length = fs.length := by
  induction h with
  | nil => rfl
  | cons _ _ _ ih => simp [ih]

theorem Stack.lt_size (h : Stack a xs fs) : ∀ x ∈ xs, x.node < a.size := by
  induction h with
  | nil => simp
  | cons top _ _ ih => simpa using ⟨top.lt_size, ih⟩

theorem Stack.imp (h : Stack a xs fs)
    (himp : ∀ x ∈ xs, ∀ t, a.Holds x.node none t → a'.Holds x.node none t) : Stack a' xs fs := by
  induction h with
  | nil => exact .nil
  | @cons x f xs fs top ordered _ ih =>
    exact .cons (himp x List.mem_cons_self f.tree top) ordered
      (ih fun y hy => himp y (List.mem_cons_of_mem x hy))

theorem Stack.addNode (h : Stack a xs fs) (kind : Kind) (text : String) (location : Location) :
    Stack (a.addNode kind text location).2 xs fs :=
  h.imp fun _ _ _ hx => hx.addNode kind text location

/-- A finished node becomes a child of the innermost open one, which has been created before. -/
theorem agrees_complete (h : Stack r.arena r.openNodes o.frames) (hn : r.arena.Holds n none t)
    (hlt : ∀ x ∈ r.openNodes, x.node < n) : Agrees (r.complete n) (some (o.complete t)) := by
  obtain ⟨a, openNodes, expecting⟩ := r
  obtain ⟨frames, expected⟩ := o
  dsimp only at h hlt hn
  cases h with
  | nil => exact .accept ⟨.nil, .nothing hn⟩
  | @cons x f xs fs top ordered rest =>
    have hx : x.node < n := hlt x List.mem_cons_self
    have hrest : Stack (a.join x.node n) xs fs := rest.imp fun y hy u hu =>
      Arena.holds_join_other top hn hu (Nat.ne_of_lt (ordered y hy))
        (Nat.ne_of_lt (hlt y (List.mem_cons_of_mem x hy)))
    simp only [complete, hn.appendChild_eq]
    exact .accept ⟨.cons (Arena.holds_join top hn hx) ordered hrest, .child⟩

theorem agrees_leaf (h : Stack r.arena r.openNodes o.frames) (kind : Kind) (text : String)
    (location : Location) : Agrees (r.leaf kind text location) (some (o.leaf kind text)) :=
  agrees_complete (r := { r with arena := (r.arena.addNode kind text location).2 })
    (h.addNode kind text location) (r.arena.holds_addNode kind text location) h.lt_size

theorem follows_beginNode (h : Stack r.arena r.openNodes o.frames) (opening : Location)
    (kind : Kind) (text : String) (location : Location) :
    (r.beginNode opening kind text location).Follows (o.beginNode kind text) :=
  ⟨.cons (r.arena.holds_addNode kind text location) h.lt_size (h.addNode kind text location),
    .child⟩

theorem agrees_close (h : Stack r.arena r.openNodes o.frames) (location : Location) :
    Agrees (r.close location) o.close := by
  obtain ⟨a, openNodes, expecting⟩ := r
  obtain ⟨frames, expected⟩ := o
  dsimp only at h
  cases h with
  | nil => exact .refuse _
  | @cons x f xs fs top ordered rest =>
    have hkind : a.isA (some x.node) Kind.isTypeDefinition = f.kind.isTypeDefinition :=
      top.isA_eq Kind.isTypeDefinition
    have hchild : a.is (a.child (some x.node) 0) .ident = f.children.head?.any (·.kind == .ident) :=
      top.is_child_zero .ident
    simp only [close, Outline.close, hkind, hchild]
    split
    · exact .refuse _
    · exact agrees_complete (r := ⟨a, xs, expecting⟩) (o := ⟨fs, expected⟩) rest top ordered

theorem agrees_bareWord (h : Stack r.arena r.openNodes o.frames) (word : String)
    (place : Location) : Agrees (r.bareWord word place) (o.bareWord word) := by
  have hword := splitLocation_fst word place
  rcases hsplit : splitLocation word place with ⟨base, location⟩
  rw [hsplit] at hword
  subst hword
  simp only [bareWord, hsplit, Outline.bareWord]
  cases numberKind? (unplaced word) with
  | some kind => exact agrees_leaf h kind _ location
  | none => cases Kind.ofWord? (unplaced word) with
    | some kind =>
      dsimp only
      split
      · exact .refuse _
      · exact agrees_leaf h kind "" location
    | none => exact agrees_leaf h .other _ location

theorem agrees_start (h : Stack r.arena r.openNodes o.frames) (x : Lexeme) :
    Agrees (r.start x) (o.start x.token) := by
  obtain ⟨token, location⟩ := x
  simp only [start, Outline.start, h.length_eq]
  split
  · exact .refuse _
  · cases token with
    | opening => exact .accept ⟨h, .kind location⟩
    | closing => exact .refuse _
    | word w => exact agrees_bareWord h w location
    | quoted s => exact agrees_leaf h .stringLit s location

theorem agrees_childOrClose (h : Stack r.arena r.openNodes o.frames) (x : Lexeme) :
    Agrees (r.childOrClose x) (o.childOrClose x.token) := by
  obtain ⟨token, location⟩ := x
  cases token with
  | closing => exact agrees_close h location
  | opening => exact agrees_start h ⟨.opening, location⟩
  | word w => exact agrees_start h ⟨.word w, location⟩
  | quoted s => exact agrees_start h ⟨.quoted s, location⟩

theorem follows_kindWord (h : Stack r.arena r.openNodes o.frames) (opening : Location)
    (word : String) (place : Location) :
    (r.kindWord opening word place).Follows (o.kindWord word) := by
  have hword := splitLocation_fst word opening
  rcases hsplit : splitLocation word opening with ⟨base, location⟩
  rw [hsplit] at hword
  subst hword
  have hkind : (Kind.ofWord? (unplaced word)).getD .other = Outline.kindOf word := rfl
  unfold kindWord
  rw [hsplit]
  dsimp only
  rw [hkind, Outline.kindWord]
  generalize Outline.kindOf word = kind
  have hname : Follows { r with expecting := .name opening place location }
      { o with expecting := .name } := ⟨h, .name opening place location⟩
  have htext (kind : Kind) : Follows { r with expecting := .text kind opening location }
      { o with expecting := .text kind } := ⟨h, .text kind opening location⟩
  cases kind
  case ident => exact hname
  case other => exact follows_beginNode h opening .other _ location
  case package => exact htext .package
  case sourceModule => exact htext .sourceModule
  case stringLit => exact htext .stringLit
  case intLit => exact htext .intLit
  case floatLit => exact htext .floatLit
  all_goals exact follows_beginNode h opening _ "" location

theorem Follows.agrees_feed (h : r.Follows o) (x : Lexeme) :
    Agrees (r.feed x) (o.feed x.token) := by
  obtain ⟨a, openNodes, expecting⟩ := r
  obtain ⟨frames, expected⟩ := o
  obtain ⟨token, location⟩ := x
  obtain ⟨hstack, hexpecting⟩ := h
  cases hexpecting with
  | root => exact agrees_start hstack ⟨token, location⟩
  | child => exact agrees_childOrClose hstack ⟨token, location⟩
  | nothing _ => exact .refuse _
  | kind opening => cases token with
    | word w => exact .accept (follows_kindWord hstack opening w location)
    | opening => exact .refuse _
    | closing => exact .refuse _
    | quoted s => exact .refuse _
  | name opening word place => cases token with
    | word s => exact .accept (follows_beginNode hstack opening .ident s place)
    | quoted s => exact .accept (follows_beginNode hstack opening .ident s place)
    | opening => exact .refuse _
    | closing => exact .refuse _
  | text kind opening place =>
    simp only [feed, Outline.feed]
    cases textOf? kind token with
    | some s => exact .accept (follows_beginNode hstack opening kind s place)
    | none =>
      exact agrees_childOrClose (follows_beginNode hstack opening kind "" place).stack
        ⟨token, location⟩

theorem Follows.agrees_feedAll (h : r.Follows o) (lexemes : List Lexeme) :
    Agrees (lexemes.foldlM Reader.feed r) (o.feedAll (lexemes.map Lexeme.token)) := by
  induction lexemes generalizing r o with
  | nil => exact .accept h
  | cons x lexemes ih =>
    rw [List.foldlM_cons, List.map_cons, Outline.feedAll, List.foldlM_cons]
    generalize hfeed : r.feed x = outcome, houtline : o.feed x.token = next
    cases hfeed ▸ houtline ▸ h.agrees_feed x with
    | accept hnext => exact ih hnext
    | refuse refusal => exact .refuse refusal

theorem Follows.finish_cases (h : r.Follows o) (place : Location) :
    (∃ t n, o.tree? = some t ∧ r.finish (.complete place) = .ok (n, r.arena) ∧
      r.arena.Holds n none t) ∨
    ∃ refusal, o.tree? = none ∧ r.finish (.complete place) = .error refusal := by
  obtain ⟨a, openNodes, expecting⟩ := r
  obtain ⟨frames, expected⟩ := o
  obtain ⟨_, hexpecting⟩ := h
  cases hexpecting with
  | nothing hn => exact .inl ⟨_, _, rfl, rfl, hn⟩
  | root => exact .inr ⟨_, rfl, rfl⟩
  | kind opening => exact .inr ⟨_, rfl, rfl⟩
  | name opening word location => exact .inr ⟨_, rfl, rfl⟩
  | text kind opening location => exact .inr ⟨_, rfl, rfl⟩
  | child => exact .inr ⟨_, rfl, rfl⟩

end Reader

/-- Reading gives a node that holds the tree of the dump. A text without a tree is refused. -/
theorem read_cases (a : Arena) (source : String) :
    (∃ t n a', treeOf? source = some t ∧ read a source = (.ok n, a') ∧ a'.Holds n none t) ∨
    ∃ error a', treeOf? source = none ∧ read a source = (.error error, a') := by
  have hstart : Reader.Follows { arena := a } {} := ⟨.nil, .root⟩
  have hagrees := hstart.agrees_feedAll (scan source).1
  simp only [treeOf?, outline?, read]
  generalize List.foldlM Reader.feed { arena := a } (scan source).1 = outcome at hagrees ⊢
  generalize Outline.feedAll {} ((scan source).1.map Lexeme.token) = next at hagrees ⊢
  cases (scan source).2 with
  | complete place =>
    cases hagrees with
    | refuse refusal => exact .inr ⟨refusal.error, refusal.arena, rfl, rfl⟩
    | @accept r o hfollows =>
      rcases hfollows.finish_cases place with ⟨t, n, htree, hok, hn⟩ | ⟨refusal, htree, herror⟩
      · exact .inl ⟨t, n, r.arena, htree, by simp [bind, Except.bind, hok], hn⟩
      · exact .inr ⟨refusal.error, refusal.arena, htree, by simp [bind, Except.bind, herror]⟩
  | unterminated start =>
    cases outcome with
    | error refusal => exact .inr ⟨refusal.error, refusal.arena, rfl, rfl⟩
    | ok r => exact .inr ⟨.unterminatedText start, r.arena, rfl, rfl⟩

end Dump

end PonyLens
