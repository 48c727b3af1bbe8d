import PonyLens.Dump.Reader
import PonyLens.Proofs.Arena.Growth
import PonyLens.Proofs.Arena.PreOrder

/-!
# Reading into an arena that has nodes

The same tokens are read twice, into an arena and into an empty one. Both readers make the same
nodes in the same order and stop at the same token for the same reason. The open nodes and the
finished trees below them stand in pre-order behind the nodes that the arena had before. So a text
is read in the same way wherever it is read into, and what the arena had before stays as it was.
-/

namespace PonyLens.Dump

def OpenNode.shift (k : Nat) (x : OpenNode) : OpenNode := { x with node := k + x.node }

namespace Reader

/-- Whether the nodes from `first` up to `hi` are the open nodes, the innermost of them last, and
between them the finished trees below them, in pre-order. -/
inductive Row (a : Arena) (first : Nat) : List OpenNode → Nat → Prop
  | nil : Row a first [] first
  | cons {x : OpenNode} {xs : List OpenNode} {node : Node} {hi : Nat}
    (hnode : a.nodes[x.node]? = some node) (hparent : node.parent = none)
    (below : a.Block node.children (x.node + 1) hi) (outer : Row a first xs x.node) :
    Row a first (x :: xs) hi

/-- Whether two readers made `b` and `b'`, one from the arena `a` and one from the empty one, and
have nodes open with the numbers that those in `xs` have in `b'`. -/
structure Beside (a b b' : Arena) (xs : List OpenNode) : Prop where
  grows : a.Grows b
  holdsFrom : b.HoldsFrom a.size b'
  row : Row b a.size (xs.map (.shift a.size)) b.size

inductive Parallel (a : Arena) : Reader → Reader → Prop
  | reading {b b' : Arena} {xs : List OpenNode} {expecting : Expecting} (h : Beside a b b' xs)
    (hmore : ∀ n, expecting ≠ .nothing n) :
    Parallel a ⟨b, xs.map (.shift a.size), expecting⟩ ⟨b', xs, expecting⟩
  | finished {b b' : Arena} {opening : Location} (h : Beside a b b' [⟨0, opening⟩]) :
    Parallel a ⟨b, [], .nothing a.size⟩ ⟨b', [], .nothing 0⟩

/-- Whether two readers go on in parallel or both stop for the same reason, which is never that a
node cannot become a child. -/
inductive Alike (a : Arena) : Except Refusal Reader → Except Refusal Reader → Prop
  | accept {r r' : Reader} (h : Parallel a r r') : Alike a (.ok r) (.ok r')
  | refuse {b b' : Arena} {xs : List OpenNode} {error : ReadError} (h : Beside a b b' xs)
    (hne : ∀ e, error ≠ .attach e) : Alike a (.error ⟨error, b⟩) (.error ⟨error, b'⟩)

variable {a b b' : Arena} {x y : OpenNode} {xs : List OpenNode} {first hi n : Nat}

/-! ### Rows -/

theorem Row.eq_first (h : Row a first [] hi) : hi = first := by
  cases h
  rfl

theorem Row.congr (h : Row a first xs hi) (heq : ∀ i < hi, b.nodes[i]? = a.nodes[i]?) :
    Row b first xs hi := by
  induction h with
  | nil => exact .nil
  | @cons x xs node hi hnode hparent below outer ih =>
    have hx : x.node < hi := below.le
    refine .cons ((heq x.node hx).trans hnode) hparent ?_ (ih ?_)
    · exact below.congr fun i _ hi => by rw [heq i hi]
    · exact fun i hi' => heq i (Nat.lt_trans hi' hx)

theorem Row.addNode (h : Row a first xs a.size) (opening : Location) (kind : Kind) (text : String)
    (location : Location) :
    Row (a.addNode kind text location).2 first (⟨a.size, opening⟩ :: xs)
      (a.addNode kind text location).2.size := by
  rw [Arena.size_addNode]
  have hnode := Arena.getElem?_addNode a kind text location a.size
  rw [if_pos rfl] at hnode
  refine .cons hnode rfl (.nil _) (h.congr fun i hi => ?_)
  rw [Arena.getElem?_addNode, if_neg (Nat.ne_of_lt hi)]

theorem Row.lt (h : Row a first (x :: y :: xs) hi) : y.node < x.node := by
  cases h with
  | cons _ _ _ outer => cases outer with
    | cons _ _ below _ => exact below.le

theorem Row.join (h : Row a first (x :: y :: xs) hi) :
    Row (a.join y.node x.node) first (y :: xs) hi := by
  have hlt := h.lt
  obtain _ | @⟨_, _, nodex, _, hnodex, hparentx, belowx, outer⟩ := h
  obtain _ | @⟨_, _, nodey, _, hnodey, hparenty, belowy, outer⟩ := outer
  have hchildren (i : Nat) (hi : y.node < i) :
      (a.join y.node x.node).nodes[i]?.map Node.children = a.nodes[i]?.map Node.children := by
    simp [Arena.getElem?_join, Nat.ne_of_gt hi, Function.comp_def]
  have hjoined : (a.join y.node x.node).nodes[y.node]? =
      some { nodey with children := nodey.children ++ [x.node] } := by
    simp [Arena.getElem?_join, hnodey, Nat.ne_of_lt hlt]
  have hlast : (a.join y.node x.node).Block [x.node] x.node hi := by
    refine .cons ((hchildren x.node hlt).trans (congrArg _ hnodex)) ?_ (.nil hi)
    exact belowx.congr fun i hi _ => hchildren i (Nat.lt_trans hlt hi)
  refine .cons hjoined hparenty (.append ?_ hlast) (outer.congr fun i hi => ?_)
  · exact belowy.congr fun i hi _ => hchildren i hi
  · simp [Arena.getElem?_join, Nat.ne_of_lt hi, Nat.ne_of_lt (Nat.lt_trans hi hlt)]

/-! ### Two arenas -/

theorem beside_empty (a : Arena) : Beside a a .empty [] := ⟨.refl, a.holdsFrom_empty, .nil⟩

theorem Beside.is_child (h : Beside a b b' xs) (n i : Nat) (kind : Kind) :
    b.is (b.child (some (a.size + n)) i) kind = b'.is (b'.child (some n) i) kind := by
  have hchild := h.holdsFrom.child_eq (some n) i
  rw [Option.map_some] at hchild
  rw [hchild, Arena.is, Arena.is, h.holdsFrom.kind?_eq]

theorem Beside.isA (h : Beside a b b' xs) (n : Nat) (p : Kind → Bool) :
    b.isA (some (a.size + n)) p = b'.isA (some n) p := by
  have hkind := h.holdsFrom.kind?_eq (some n)
  rw [Option.map_some] at hkind
  rw [Arena.isA, Arena.isA, hkind]

theorem Beside.addNode (h : Beside a b b' xs) (opening : Location) (kind : Kind) (text : String)
    (location : Location) :
    Beside a (b.addNode kind text location).2 (b'.addNode kind text location).2
      (⟨b'.size, opening⟩ :: xs) := by
  have hrow := h.row.addNode opening kind text location
  rw [h.holdsFrom.size_eq] at hrow
  exact ⟨h.grows.addNode kind text location, h.holdsFrom.addNode kind text location, hrow⟩

/-- The innermost open node can become a child in both, and is no longer open then. -/
theorem Beside.join (h : Beside a b b' (x :: y :: xs)) :
    b.appendChild (some (a.size + y.node)) (some (a.size + x.node)) =
        .ok (b.join (a.size + y.node) (a.size + x.node)) ∧
      b'.appendChild (some y.node) (some x.node) = .ok (b'.join y.node x.node) ∧
      Beside a (b.join (a.size + y.node) (a.size + x.node)) (b'.join y.node x.node)
        (y :: xs) := by
  obtain ⟨hgrows, hholds, hrow⟩ := h
  have hlt : a.size + y.node < a.size + x.node := hrow.lt
  have hjoin : Row (b.join (a.size + y.node) (a.size + x.node)) a.size
    ((y :: xs).map (.shift a.size)) b.size := hrow.join
  rw [← Arena.size_join b (a.size + y.node) (a.size + x.node)] at hjoin
  obtain _ | @⟨_, _, node, _, hnode, hparent, -, -⟩ := hrow
  obtain ⟨node', hnode', hshifted⟩ := hholds.exists_node hnode
  have hparent' : node'.parent = none :=
    Option.map_eq_none_iff.mp (hshifted.parent.symm.trans hparent)
  exact ⟨Arena.appendChild_eq_join _ hnode hparent, Arena.appendChild_eq_join _ hnode' hparent',
    hgrows.join (Nat.le_add_right a.size y.node) hlt hnode hparent, hholds.join y.node x.node, hjoin⟩

/-! ### One token -/

theorem alike_complete (h : Beside a b b' (x :: xs)) (expecting : Expecting) :
    Alike a (complete ⟨b, xs.map (.shift a.size), expecting⟩ (a.size + x.node))
      (complete ⟨b', xs, expecting⟩ x.node) := by
  obtain ⟨n, opening⟩ := x
  cases xs with
  | nil =>
    have hroot : a.size + n = a.size := by
      cases h.row with
      | cons _ _ _ outer => exact outer.eq_first
    obtain rfl : n = 0 := Nat.add_eq_left.mp hroot
    exact .accept (.finished h)
  | cons y ys =>
    obtain ⟨happend, happend', hbeside⟩ := h.join
    simp only [complete, List.map_cons, OpenNode.shift, happend, happend']
    exact .accept (.reading hbeside (by simp))

section Token

variable (h : Beside a b b' xs) (expecting : Expecting)
include h

theorem alike_leaf (kind : Kind) (text : String) (location : Location) :
    Alike a (leaf ⟨b, xs.map (.shift a.size), expecting⟩ kind text location)
      (leaf ⟨b', xs, expecting⟩ kind text location) := by
  have hcomplete := alike_complete (h.addNode .unknown kind text location) expecting
  rwa [← h.holdsFrom.size_eq] at hcomplete

theorem parallel_beginNode (opening : Location) (kind : Kind) (text : String)
    (location : Location) :
    Parallel a (beginNode ⟨b, xs.map (.shift a.size), expecting⟩ opening kind text location)
      (beginNode ⟨b', xs, expecting⟩ opening kind text location) := by
  have hreading : Parallel a ⟨_, _, .child⟩ ⟨_, _, .child⟩ :=
    .reading (h.addNode opening kind text location) (by simp)
  rwa [List.map_cons, OpenNode.shift, ← h.holdsFrom.size_eq] at hreading

theorem alike_close (location : Location) :
    Alike a (close ⟨b, xs.map (.shift a.size), expecting⟩ location)
      (close ⟨b', xs, expecting⟩ location) := by
  cases xs with
  | nil => exact .refuse h (by simp)
  | cons x xs =>
    simp only [close, List.map_cons, OpenNode.shift, h.isA, h.is_child]
    split
    · exact .refuse h (by simp)
    · exact alike_complete h expecting

theorem alike_bareWord (word : String) (place : Location) :
    Alike a (bareWord ⟨b, xs.map (.shift a.size), expecting⟩ word place)
      (bareWord ⟨b', xs, expecting⟩ word place) := by
  rcases hsplit : splitLocation word place with ⟨base, location⟩
  simp only [bareWord, hsplit]
  cases numberKind? base with
  | some kind => exact alike_leaf h expecting kind base location
  | none => cases Kind.ofWord? base with
    | some kind =>
      dsimp only
      split
      · exact .refuse h (by simp)
      · exact alike_leaf h expecting kind "" location
    | none => exact alike_leaf h expecting .other base location

theorem alike_start (x : Lexeme) :
    Alike a (start ⟨b, xs.map (.shift a.size), expecting⟩ x) (start ⟨b', xs, expecting⟩ x) := by
  obtain ⟨token, location⟩ := x
  simp only [start, List.length_map]
  split
  · exact .refuse h (by simp)
  · cases token with
    | opening => exact .accept (.reading h (by simp))
    | closing => exact .refuse h (by simp)
    | word w => exact alike_bareWord h expecting w location
    | quoted s => exact alike_leaf h expecting .stringLit s location

theorem alike_childOrClose (x : Lexeme) :
    Alike a (childOrClose ⟨b, xs.map (.shift a.size), expecting⟩ x)
      (childOrClose ⟨b', xs, expecting⟩ x) := by
  obtain ⟨token, location⟩ := x
  cases token with
  | closing => exact alike_close h expecting location
  | opening => exact alike_start h expecting ⟨.opening, location⟩
  | word w => exact alike_start h expecting ⟨.word w, location⟩
  | quoted s => exact alike_start h expecting ⟨.quoted s, location⟩

theorem parallel_kindWord (opening : Location) (word : String) (place : Location) :
    Parallel a (kindWord ⟨b, xs.map (.shift a.size), expecting⟩ opening word place)
      (kindWord ⟨b', xs, expecting⟩ opening word place) := by
  rcases hsplit : splitLocation word opening with ⟨base, location⟩
  unfold kindWord
  rw [hsplit]
  dsimp only
  generalize (Kind.ofWord? base).getD .other = kind
  have hbegin (kind : Kind) (text : String) :=
    parallel_beginNode h expecting opening kind text location
  have htext (kind : Kind) : Parallel a
      ⟨b, xs.map (.shift a.size), .text kind opening location⟩
      ⟨b', xs, .text kind opening location⟩ := .reading h (by simp)
  cases kind
  case ident => exact .reading h (by simp)
  case other => exact hbegin .other base
  case package => exact htext .package
  case sourceModule => exact htext .sourceModule
  case stringLit => exact htext .stringLit
  case intLit => exact htext .intLit
  case floatLit => exact htext .floatLit
  all_goals exact hbegin _ ""

end Token

variable {r r' : Reader}

theorem Parallel.alike_feed (h : Parallel a r r') (x : Lexeme) :
    Alike a (r.feed x) (r'.feed x) := by
  obtain ⟨token, location⟩ := x
  cases h with
  | finished h => exact .refuse h (by simp)
  | @reading b b' xs expecting h hmore => cases expecting with
    | root => exact alike_start h .root ⟨token, location⟩
    | child => exact alike_childOrClose h .child ⟨token, location⟩
    | nothing n => exact absurd rfl (hmore n)
    | kind opening => cases token with
      | word w => exact .accept (parallel_kindWord h _ opening w location)
      | opening => exact .refuse h (by simp)
      | closing => exact .refuse h (by simp)
      | quoted s => exact .refuse h (by simp)
    | name opening word place => cases token with
      | word s => exact .accept (parallel_beginNode h _ opening .ident s place)
      | quoted s => exact .accept (parallel_beginNode h _ opening .ident s place)
      | opening => exact .refuse h (by simp)
      | closing => exact .refuse h (by simp)
    | text kind opening place =>
      simp only [feed]
      cases textOf? kind token with
      | some s => exact .accept (parallel_beginNode h _ opening kind s place)
      | none =>
        have hchild := alike_childOrClose (h.addNode opening kind "" place) .child
          ⟨token, location⟩
        rwa [List.map_cons, OpenNode.shift, ← h.holdsFrom.size_eq] at hchild

theorem Parallel.alike_feedAll (h : Parallel a r r') (lexemes : List Lexeme) :
    Alike a (lexemes.foldlM Reader.feed r) (lexemes.foldlM Reader.feed r') := by
  induction lexemes generalizing r r' with
  | nil => exact .accept h
  | cons x lexemes ih =>
    rw [List.foldlM_cons, List.foldlM_cons]
    generalize hfeed : r.feed x = outcome, hfeed' : r'.feed x = outcome'
    cases hfeed ▸ hfeed' ▸ h.alike_feed x with
    | accept hnext => exact ih hnext
    | refuse hbeside hne => exact .refuse hbeside hne

/-- Both readers end alike: both give their root, or both stop for the same reason. -/
theorem Parallel.finish_cases (h : Parallel a r r') (ending : Ending) :
    (∃ b b' opening, Beside a b b' [⟨0, opening⟩] ∧
      r.finish ending = .ok (a.size, b) ∧ r'.finish ending = .ok (0, b')) ∨
    ∃ b b' xs error, Beside a b b' xs ∧ (∀ e, error ≠ ReadError.attach e) ∧
      r.finish ending = .error ⟨error, b⟩ ∧ r'.finish ending = .error ⟨error, b'⟩ := by
  cases ending with
  | unterminated start => cases h with
    | reading h _ => exact .inr ⟨_, _, _, _, h, by simp, rfl, rfl⟩
    | finished h => exact .inr ⟨_, _, _, _, h, by simp, rfl, rfl⟩
  | complete place => cases h with
    | finished h => exact .inl ⟨_, _, _, h, rfl, rfl⟩
    | @reading b b' xs expecting h hmore => cases expecting with
      | root => exact .inr ⟨_, _, _, _, h, by simp, rfl, rfl⟩
      | kind opening => exact .inr ⟨_, _, _, _, h, by simp, rfl, rfl⟩
      | name opening word location => exact .inr ⟨_, _, _, _, h, by simp, rfl, rfl⟩
      | text kind opening location =>
        exact .inr ⟨_, _, _, _, h.addNode opening kind "" location, by simp, rfl, rfl⟩
      | child => exact .inr ⟨_, _, _, _, h, by simp, rfl, rfl⟩
      | nothing n => exact absurd rfl (hmore n)

end Reader

/-- The two outcomes of a reading, into an arena and into the empty one. -/
theorem read_parallel (a : Arena) (source : String) :
    (∃ b b' opening, Reader.Beside a b b' [⟨0, opening⟩] ∧
      read a source = (.ok a.size, b) ∧ read .empty source = (.ok 0, b')) ∨
    ∃ b b' xs error, Reader.Beside a b b' xs ∧ (∀ e, error ≠ ReadError.attach e) ∧
      read a source = (.error error, b) ∧ read .empty source = (.error error, b') := by
  have hstart : Reader.Parallel a { arena := a } { arena := .empty } :=
    .reading (Reader.beside_empty a) (by simp)
  have halike := hstart.alike_feedAll (scan source).1
  simp only [read]
  generalize List.foldlM Reader.feed { arena := a } (scan source).1 = outcome,
    List.foldlM Reader.feed { arena := .empty } (scan source).1 = outcome' at halike ⊢
  cases halike with
  | @refuse b b' xs error h hne => exact .inr ⟨b, b', xs, error, h, hne, rfl, rfl⟩
  | @accept r r' h =>
    rcases h.finish_cases (scan source).2 with
      ⟨b, b', opening, hbeside, hok, hok'⟩ | ⟨b, b', xs, error, hbeside, hne, herror, herror'⟩
    · exact .inl ⟨b, b', opening, hbeside, by simp [bind, Except.bind, hok],
        by simp [bind, Except.bind, hok']⟩
    · exact .inr ⟨b, b', xs, error, hbeside, hne, by simp [bind, Except.bind, herror],
        by simp [bind, Except.bind, herror']⟩

/-- Reading only adds nodes and joins nodes that it has added. -/
theorem grows_read (a : Arena) (source : String) : a.Grows (read a source).2 := by
  rcases read_parallel a source with ⟨b, _, _, hbeside, hread, _⟩ | ⟨b, _, _, _, hbeside, _, hread, _⟩
  · rw [hread]
    exact hbeside.grows
  · rw [hread]
    exact hbeside.grows

/-- Reading leaves the nodes of an arena, their texts and their bindings alone, and never tries to
attach a node that cannot be attached. It makes the nodes that it makes in an empty arena, behind
those that are there, and ends as it does there. The nodes of a tree that was read are numbered in
pre-order. -/
theorem read_isolated (a : Arena) (source : String) :
    (∀ n < a.size, (read a source).2.get? (some n) = a.get? (some n) ∧
      ∀ (c : Cache) (target : Link),
        c.bind (read a source).2 (some n) target = c.bind a (some n) target) ∧
    (∀ atom text, a.names.Has atom text → (read a source).2.names.Has atom text) ∧
    (read a source).2.HoldsFrom a.size (read .empty source).2 ∧
    (∀ e, (read a source).1 ≠ .error (.attach e)) ∧
    ((∃ error, (read a source).1 = .error error ∧ (read .empty source).1 = .error error) ∨
      (read a source).1 = .ok a.size ∧ (read .empty source).1 = .ok 0 ∧
        a.size < (read a source).2.size ∧ (read a source).2.parent (some a.size) = none ∧
        (read a source).2.descendants (some a.size) =
          List.range' a.size ((read a source).2.size - a.size)) := by
  have hgrows := grows_read a source
  refine ⟨fun n hn => ⟨hgrows.getElem?_eq hn, hgrows.bind_eq hn⟩, fun _ _ => hgrows.has, ?_⟩
  rcases read_parallel a source with
    ⟨b, b', opening, hbeside, hread, hread'⟩ | ⟨b, b', xs, error, hbeside, hne, hread, hread'⟩
  · rw [hread, hread']
    refine ⟨hbeside.holdsFrom, by simp, .inr ⟨rfl, rfl, ?_⟩⟩
    obtain _ | @⟨_, _, root, _, hroot, hparent, hbelow, houter⟩ := hbeside.row
    have hroot : b.nodes[a.size]? = some root := hroot
    have hblock : b.Block [a.size] a.size b.size :=
      .cons (congrArg (Option.map Node.children) hroot) hbelow (.nil b.size)
    refine ⟨hbelow.le, ?_, hblock.descendants_eq⟩
    simp [Arena.parent, Arena.get?, hroot, hparent]
  · rw [hread, hread']
    exact ⟨hbeside.holdsFrom, by simpa using hne, .inl ⟨error, rfl, rfl⟩⟩

end PonyLens.Dump
