import PonyLens.Proofs.Dump.Lexing
import PonyLens.Proofs.Dump.RoundTrip

/-!
# The grammar of dumps

Which tokens write which tree, said without a reader. What the reader makes of a text is decided by
the tokens that the text consists of, and it accepts the ones that write a tree and gives that tree.
One direction is an induction over derivations. For the other one, a run that ends with a finished
tree is cut into the tokens of a first node and what is left, by induction on what is left.
-/

namespace PonyLens.Dump

open Outline (kindOf)

inductive TakesText : Kind → Token → String → Prop
  | quoted {kind : Kind} {s : String}
    (hkind : kind = .package ∨ kind = .sourceModule ∨ kind = .stringLit) :
    TakesText kind (.quoted s) s
  | number {kind : Kind} {w : String} (hkind : kind = .intLit ∨ kind = .floatLit)
    (hw : (numberKind? w).isSome = true) : TakesText kind (.word w) w

/-- The tokens that stand for the text of a node after its word, and the text, if `next` is the
token after them. A word of no known kind is kept as the text. The word `other`, which names the
kind that all of these have, is one of them. -/
inductive InlineText (w : String) : List Token → String → Token → Prop
  | name {x next : Token} {s : String} (h : kindOf w = .ident) (hx : x = .word s ∨ x = .quoted s) :
    InlineText w [x] s next
  | taken {x next : Token} {s : String} (h : TakesText (kindOf w) x s) : InlineText w [x] s next
  | unknown {next : Token} (h : kindOf w = .other) : InlineText w [] (unplaced w) next
  | empty {next : Token} (hname : kindOf w ≠ .ident) (hother : kindOf w ≠ .other)
    (h : ∀ s, ¬ TakesText (kindOf w) next s) : InlineText w [] "" next

inductive WritesLeaf (w : String) : Tree → Prop
  | number {kind : Kind} (h : numberKind? (unplaced w) = some kind) :
    WritesLeaf w (.node kind (unplaced w) [])
  | kind {kind : Kind} (hnumber : numberKind? (unplaced w) = none)
    (h : Kind.ofWord? (unplaced w) = some kind) (hname : kind ≠ .ident)
    (hdef : kind.isTypeDefinition = false) : WritesLeaf w (.node kind "" [])
  | unknown (hnumber : numberKind? (unplaced w) = none)
    (h : Kind.ofWord? (unplaced w) = none) : WritesLeaf w (.node .other (unplaced w) [])

/-- The tokens write the tree as a node below `depth` others. -/
inductive Derives : Nat → List Token → Tree → Prop
  | string {depth : Nat} (hroom : depth < Limits.dumpDepth) (s : String) :
    Derives depth [.quoted s] (.node .stringLit s [])
  | leaf {depth : Nat} {w : String} {t : Tree} (hroom : depth < Limits.dumpDepth)
    (h : WritesLeaf w t) : Derives depth [.word w] t
  | compound {depth : Nat} {w text : String} {taken : List Token}
    {parts : List (List Token × Tree)} (hroom : depth < Limits.dumpDepth)
    (htext : InlineText w taken text ((parts.flatMap Prod.fst).headD .closing))
    (hparts : ∀ p ∈ parts, Derives (depth + 1) p.1 p.2)
    (hname : (kindOf w).isTypeDefinition = true →
      ∃ child ∈ (parts.map Prod.snd).head?, child.kind = .ident) :
    Derives depth (.opening :: .word w :: taken ++ parts.flatMap Prod.fst ++ [.closing])
      (.node (kindOf w) text (parts.map Prod.snd))

theorem takesText_iff {kind : Kind} {x : Token} {s : String} :
    TakesText kind x s ↔ Reader.textOf? kind x = some s := by
  constructor
  · rintro (⟨rfl | rfl | rfl⟩ | ⟨rfl | rfl, hw⟩)
    all_goals simp [Reader.textOf?, *]
  · intro h
    unfold Reader.textOf? at h
    split at h
    · split at h
      · cases h
        exact .number (.inl rfl) ‹_›
      · cases h
    · split at h
      · cases h
        exact .number (.inr rfl) ‹_›
      · cases h
    · cases h
      exact .quoted (.inl rfl)
    · cases h
      exact .quoted (.inr (.inl rfl))
    · cases h
      exact .quoted (.inr (.inr rfl))
    · cases h

namespace Outline

variable {o e : Outline} {fs : List Frame} {kind : Kind} {text w : String} {x next : Token}
  {xs ys taken : List Token} {t : Tree} {depth : Nat}

theorem mayHaveText_of_takesText {s : String} (h : TakesText kind x s) :
    Reader.mayHaveText kind = true := by
  cases h with
  | quoted hkind => rcases hkind with rfl | rfl | rfl <;> rfl
  | number hkind _ => rcases hkind with rfl | rfl <;> rfl

theorem feedAll_inlineText (h : InlineText w taken text next) (fs : List Frame)
    (ys : List Token) :
    ((⟨fs, .kind⟩ : Outline).kindWord w).feedAll (taken ++ next :: ys) =
      (⟨{ kind := kindOf w, text } :: fs, .child⟩ : Outline).feedAll (next :: ys) := by
  cases h with
  | name hkind hx =>
    rw [kindWord_name hkind, hkind, List.singleton_append, feedAll_cons]
    rcases hx with rfl | rfl <;> rfl
  | taken htext =>
    rw [kindWord_text (mayHaveText_of_takesText htext), List.singleton_append, feedAll_cons]
    simp only [feed, takesText_iff.mp htext, beginNode, Option.bind_some]
  | unknown hkind => rw [kindWord_other hkind, hkind, List.nil_append]
  | empty hname hother hnone =>
    rw [List.nil_append]
    by_cases hmay : Reader.mayHaveText (kindOf w) = true
    · rw [kindWord_text hmay, feedAll_of_textOf?_eq_none]
      exact Option.eq_none_iff_forall_ne_some.mpr fun s hs => hnone s (takesText_iff.mpr hs)
    · rw [kindWord_plain hname hother (Bool.eq_false_iff.mpr hmay)]

theorem bareWord_of_writesLeaf (h : WritesLeaf w t) (o : Outline) :
    o.bareWord w = some (o.complete t) := by
  cases h with
  | number hnumber => simp only [bareWord, hnumber, leaf]
  | kind hnumber hkind hname hdef => simp [bareWord, hnumber, hkind, hname, hdef, leaf]
  | unknown hnumber hkind => simp only [bareWord, hnumber, hkind, leaf]

theorem exists_writesLeaf {o' : Outline} (h : o.bareWord w = some o') :
    ∃ t, WritesLeaf w t ∧ o' = o.complete t := by
  rw [bareWord] at h
  split at h
  · rename_i kind hnumber
    exact ⟨_, .number hnumber, (Option.some.inj h).symm⟩
  · rename_i hnumber
    split at h
    · rename_i kind hkind
      split at h
      · cases h
      · rename_i hname
        simp only [Bool.or_eq_true, beq_iff_eq, not_or, Bool.not_eq_true] at hname
        exact ⟨_, .kind hnumber hkind hname.1 hname.2, (Option.some.inj h).symm⟩
    · rename_i hkind
      exact ⟨_, .unknown hnumber hkind, (Option.some.inj h).symm⟩

/-- The token after a node's text is the first one of its children or closes it. -/
theorem exists_append_closing (xs rest : List Token) :
    ∃ ys, xs ++ .closing :: rest = xs.headD .closing :: ys := by
  cases xs with
  | nil => exact ⟨rest, rfl⟩
  | cons x xs => exact ⟨xs ++ .closing :: rest, rfl⟩

/-- The children of an open node and the parenthesis after them finish it. -/
theorem feedAll_parts_closing {f : Frame} {parts : List (List Token × Tree)}
    (h : ∀ p ∈ parts, ∀ o : Outline, o.Awaits → o.frames.length = fs.length + 1 →
      o.feedAll p.1 = some (o.complete p.2))
    (hname : f.kind.isTypeDefinition = true →
      ∃ child ∈ (f.children ++ parts.map Prod.snd).head?, child.kind = .ident) :
    (⟨f :: fs, .child⟩ : Outline).feedAll (parts.flatMap Prod.fst ++ [.closing]) =
      some ((⟨fs, .child⟩ : Outline).complete
        (.node f.kind f.text (f.children ++ parts.map Prod.snd))) := by
  have hfirst : f.kind.isTypeDefinition = true →
      (f.children ++ parts.map Prod.snd).head?.any (·.kind == .ident) = true := fun hdef => by
    simpa only [Option.any_eq_true, Option.mem_def, beq_iff_eq] using hname hdef
  rw [feedAll_append, feedAll_parts h, Option.bind_some, feedAll_singleton,
    feed_closing (f := { f with children := f.children ++ parts.map Prod.snd }) hfirst]

theorem feedAll_of_derives (h : Derives depth xs t) (ho : o.Awaits)
    (hdepth : o.frames.length = depth) : o.feedAll xs = some (o.complete t) := by
  induction h generalizing o with
  | string hroom s =>
    rw [feedAll_singleton, ho.feed_eq (by simp), start_quoted (hdepth ▸ hroom), leaf]
  | leaf hroom h =>
    rw [feedAll_singleton, ho.feed_eq (by simp), start_word (hdepth ▸ hroom),
      bareWord_of_writesLeaf h]
  | @compound depth w text taken parts hroom htext _ hname ih =>
    have hopening : o.feed .opening = some ⟨o.frames, .kind⟩ := by
      rw [ho.feed_eq (by simp), start_opening (hdepth ▸ hroom)]
    have hinner := feedAll_parts_closing (f := { kind := kindOf w, text })
      (fun p hp o' ho' hlength => ih p hp ho' (hlength.trans (congrArg (· + 1) hdepth)))
      (by simpa using hname)
    dsimp only [List.nil_append] at hinner
    obtain ⟨ys, hys⟩ := exists_append_closing (parts.flatMap Prod.fst) []
    have htexts := feedAll_inlineText htext o.frames ys
    rw [← hys] at htexts
    have hparens : .opening :: .word w :: taken ++ parts.flatMap Prod.fst ++ [.closing] =
        .opening :: .word w :: (taken ++ (parts.flatMap Prod.fst ++ [.closing])) := by
      simp only [List.cons_append, List.append_assoc]
    rw [hparens, feedAll_cons, hopening, Option.bind_some, feedAll_cons, feed_kind,
      Option.bind_some, htexts, hinner, complete_eq]

/-! ### The other direction -/

theorem exists_inlineText (he : e.expecting = .nothing t)
    (h : ((⟨fs, .kind⟩ : Outline).kindWord w).feedAll ys = some e) :
    ∃ taken text rest, ys = taken ++ rest ∧ (∀ next ∈ rest.head?, InlineText w taken text next) ∧
      (⟨{ kind := kindOf w, text } :: fs, .child⟩ : Outline).feedAll rest = some e := by
  by_cases hname : kindOf w = .ident
  · rw [kindWord_name hname] at h
    cases ys with
    | nil =>
      cases h
      cases he
    | cons x rest =>
      rw [feedAll_cons] at h
      rw [hname]
      cases x with
      | word s => exact ⟨[.word s], s, rest, rfl, fun next _ => .name hname (.inl rfl), h⟩
      | quoted s => exact ⟨[.quoted s], s, rest, rfl, fun next _ => .name hname (.inr rfl), h⟩
      | opening => cases h
      | closing => cases h
  by_cases hother : kindOf w = .other
  · rw [kindWord_other hother] at h
    exact ⟨[], unplaced w, ys, rfl, fun next _ => .unknown hother, hother ▸ h⟩
  by_cases hmay : Reader.mayHaveText (kindOf w) = true
  · rw [kindWord_text hmay] at h
    cases ys with
    | nil =>
      cases h
      cases he
    | cons x rest =>
      cases htext : Reader.textOf? (kindOf w) x with
      | some s =>
        rw [feedAll_cons] at h
        simp only [feed, htext, Option.bind_some] at h
        exact ⟨[x], s, rest, rfl, fun next _ => .taken (takesText_iff.mpr htext), h⟩
      | none =>
        rw [feedAll_of_textOf?_eq_none htext] at h
        refine ⟨[], "", x :: rest, rfl, fun next hnext => .empty hname hother fun s hs => ?_, h⟩
        cases hnext
        rw [takesText_iff.mp hs] at htext
        cases htext
  · rw [kindWord_plain hname hother (Bool.eq_false_iff.mpr hmay)] at h
    exact ⟨[], "", ys, rfl, fun next _ => .empty hname hother fun s hs =>
      hmay (mayHaveText_of_takesText hs), h⟩

/-- Whether a run that goes on with an open node closes it, after more children. -/
def Closes (e : Outline) (ys : List Token) : Prop :=
  ∀ ⦃f : Frame⦄ ⦃fs : List Frame⦄, (⟨f :: fs, .child⟩ : Outline).feedAll ys = some e →
    ∃ (parts : List (List Token × Tree)) (rest : List Token),
      ys = parts.flatMap Prod.fst ++ .closing :: rest ∧
      (∀ p ∈ parts, Derives (fs.length + 1) p.1 p.2) ∧
      (f.kind.isTypeDefinition = true →
        ∃ child ∈ (f.children ++ parts.map Prod.snd).head?, child.kind = .ident) ∧
      ((⟨fs, .child⟩ : Outline).complete
        (.node f.kind f.text (f.children ++ parts.map Prod.snd))).feedAll rest = some e

/-- A node in parentheses is read up to its closing one. -/
theorem exists_derives_compound (he : e.expecting = .nothing t)
    (ih : ∀ zs : List Token, zs.length ≤ ys.length → Closes e zs)
    (hroom : o.frames.length < Limits.dumpDepth)
    (h : ((⟨o.frames, .kind⟩ : Outline).kindWord w).feedAll ys = some e) :
    ∃ xs u rest, .opening :: .word w :: ys = xs ++ rest ∧ xs ≠ [] ∧
      Derives o.frames.length xs u ∧ (o.complete u).feedAll rest = some e := by
  obtain ⟨taken, text, rest, rfl, htext, hrest⟩ := exists_inlineText he h
  have hshort : rest.length ≤ (taken ++ rest).length := by
    rw [List.length_append]
    omega
  obtain ⟨parts, rest', rfl, hparts, hname, hdone⟩ := ih rest hshort hrest
  rw [complete_eq] at hdone
  dsimp only [List.nil_append] at hname hdone
  obtain ⟨zs, hzs⟩ := exists_append_closing (parts.flatMap Prod.fst) rest'
  have hnext := htext ((parts.flatMap Prod.fst).headD .closing) (by rw [hzs]; rfl)
  have hnode := Derives.compound hroom hnext hparts hname
  exact ⟨_, _, rest', by simp, by simp, hnode, hdone⟩

theorem exists_derives {o' : Outline} (he : e.expecting = .nothing t)
    (ih : ∀ zs : List Token, zs.length ≤ ys.length → Closes e zs) (hstart : o.start x = some o')
    (h : o'.feedAll ys = some e) :
    ∃ xs u rest, x :: ys = xs ++ rest ∧ xs ≠ [] ∧ Derives o.frames.length xs u ∧
      (o.complete u).feedAll rest = some e := by
  have hroom : o.frames.length < Limits.dumpDepth := by
    by_contra hfull
    unfold start at hstart
    rw [if_pos (Nat.not_lt.mp hfull)] at hstart
    cases hstart
  cases x with
  | closing =>
    rw [start, if_neg (Nat.not_le.mpr hroom)] at hstart
    cases hstart
  | quoted s =>
    rw [start_quoted hroom] at hstart
    cases hstart
    exact ⟨[.quoted s], _, ys, rfl, by simp, .string hroom s, h⟩
  | word w =>
    rw [start_word hroom] at hstart
    obtain ⟨u, hu, rfl⟩ := exists_writesLeaf hstart
    exact ⟨[.word w], u, ys, rfl, by simp, .leaf hroom hu, h⟩
  | opening =>
    rw [start_opening hroom] at hstart
    cases hstart
    rcases ys with - | ⟨x, ys⟩
    · cases h
      cases he
    · have hshort : ys.length ≤ (x :: ys).length := Nat.le_succ _
      rw [feedAll_cons] at h
      cases x with
      | word w =>
        exact exists_derives_compound he (fun zs hzs => ih zs (hzs.trans hshort)) hroom h
      | opening => cases h
      | closing => cases h
      | quoted s => cases h

/-- A node that is closed has the name that it needs, and becomes a child or the root. -/
theorem feed_closing_eq_some {f : Frame} {o' : Outline}
    (h : (⟨f :: fs, .child⟩ : Outline).feed .closing = some o') :
    (f.kind.isTypeDefinition = true → ∃ child ∈ f.children.head?, child.kind = .ident) ∧
      o' = (⟨fs, .child⟩ : Outline).complete (.node f.kind f.text f.children) := by
  simp only [feed, childOrClose, close] at h
  split at h
  · cases h
  · rename_i hname
    refine ⟨fun hdef => ?_, (Option.some.inj h).symm⟩
    simpa [hdef, Option.any_eq_true] using hname

/-- A run that ends with a finished tree closes every open node. -/
theorem closes (he : e.expecting = .nothing t) (ys : List Token) : Closes e ys := by
  induction hlength : ys.length using Nat.strong_induction_on generalizing ys with
  | h n ih =>
    intro f fs h
    rcases ys with - | ⟨x, ys⟩
    · cases h
      cases he
    rw [List.length_cons] at hlength
    have hshort (zs : List Token) (hzs : zs.length ≤ ys.length) : Closes e zs :=
      ih zs.length (by omega) zs rfl
    by_cases hx : x = .closing
    · subst hx
      rw [feedAll_cons] at h
      obtain ⟨o', hclose, hrest⟩ := Option.bind_eq_some_iff.mp h
      obtain ⟨hname, rfl⟩ := feed_closing_eq_some hclose
      exact ⟨[], ys, rfl, by simp, by simpa using hname, by simpa using hrest⟩
    · rw [feedAll_cons, Awaits.feed_eq (.inr rfl) hx] at h
      obtain ⟨o', hstart, hrest⟩ := Option.bind_eq_some_iff.mp h
      obtain ⟨xs, u, rest, heq, hne, hu, hdone⟩ := exists_derives he hshort hstart hrest
      have hless : rest.length ≤ ys.length := by
        have hpos := List.length_pos_of_ne_nil hne
        have hsum := congrArg List.length heq
        rw [List.length_cons, List.length_append] at hsum
        omega
      obtain ⟨parts, rest', rfl, hparts, hname, hdone⟩ := hshort rest hless hdone
      refine ⟨(xs, u) :: parts, rest', ?_, ?_, ?_, ?_⟩
      · rw [heq, List.flatMap_cons, List.append_assoc]
      · exact List.forall_mem_cons.mpr ⟨hu, hparts⟩
      · simpa using hname
      · simpa using hdone

end Outline

open Outline

variable {xs : List Token} {t : Tree}

theorem derives_iff : Derives 0 xs t ↔ outline? xs = some t := by
  constructor
  · intro h
    have hfeed := feedAll_of_derives (o := {}) h (.inl rfl) rfl
    rw [outline?, hfeed]
    rfl
  · intro h
    obtain ⟨e, hfeed, htree⟩ := Option.bind_eq_some_iff.mp h
    have he : e.expecting = .nothing t := by
      rw [tree?] at htree
      split at htree
      · rwa [← Option.some.inj htree]
      · cases htree
    rcases xs with - | ⟨x, ys⟩
    · cases hfeed
      cases he
    rw [feedAll_cons] at hfeed
    obtain ⟨o', hstart, hrest⟩ := Option.bind_eq_some_iff.mp hfeed
    obtain ⟨zs, u, rest, heq, _, hu, hdone⟩ :=
      exists_derives he (fun zs _ => closes he zs) hstart hrest
    cases rest with
    | nil =>
      cases hdone
      cases he
      rw [heq, List.append_nil]
      exact hu
    | cons y rest => cases hdone

theorem Derives.unique {u : Tree} (h : Derives 0 xs t) (h' : Derives 0 xs u) : t = u := by
  rw [derives_iff] at h h'
  exact Option.some.inj (h.symm.trans h')

def Writes (source : String) (t : Tree) : Prop :=
  ∃ xs, Lexes source.toList xs ∧ Derives 0 xs t

theorem writes_iff {source : String} : Writes source t ↔ treeOf? source = some t := by
  constructor
  · rintro ⟨xs, hlexes, hderives⟩
    obtain ⟨⟨place, hending⟩, rfl⟩ := lexes_iff.mp hlexes
    rw [treeOf?, hending]
    exact derives_iff.mp hderives
  · intro h
    rw [treeOf?] at h
    split at h
    · rename_i place hending
      exact ⟨_, lexes_iff.mpr ⟨⟨place, hending⟩, rfl⟩, derives_iff.mpr h⟩
    · cases h

def Reads (a : Arena) (source : String) (t : Tree) : Prop :=
  ∃ n b, read a source = (.ok n, b) ∧ b.tree? (some n) = some t

theorem reads_iff {a : Arena} {source : String} : Reads a source t ↔ Writes source t := by
  rw [Reads, exists_read_iff, writes_iff]

theorem writes_congr {source source' : String} (h : Lexes source.toList xs)
    (h' : Lexes source'.toList xs) : Writes source t ↔ Writes source' t := by
  constructor
  · rintro ⟨ys, hys, hderives⟩
    exact ⟨ys, h.unique hys ▸ h', hderives⟩
  · rintro ⟨ys, hys, hderives⟩
    exact ⟨ys, h'.unique hys ▸ h, hderives⟩

/-- Every text is answered: one whose tokens write a tree with that tree, and any other one with an
error. Neither what stands between the tokens nor what is in the arena matters for the tree. -/
theorem read_exact (a : Arena) (source : String) :
    (∀ t, Reads a source t ↔ Writes source t) ∧
    ((∃ n b, read a source = (.ok n, b)) ↔ ∃ t, Writes source t) ∧
    ((∃ error b, read a source = (.error error, b)) ↔ ¬ ∃ t, Writes source t) ∧
    ∀ b source' xs, Lexes source.toList xs → Lexes source'.toList xs →
      ∀ t, Reads a source t ↔ Reads b source' t := by
  have hsame : ∀ b source' xs, Lexes source.toList xs → Lexes source'.toList xs →
      ∀ t, Reads a source t ↔ Reads b source' t := by
    intro b source' xs h h' t
    rw [reads_iff, reads_iff, writes_congr h h']
  refine ⟨fun t => reads_iff, ?_, ?_, hsame⟩
  all_goals
    simp only [writes_iff]
    rcases read_cases a source with ⟨t, n, b, htree, hread, _⟩ | ⟨error, b, htree, hread⟩
    all_goals simp [htree, hread]

/-- A dump on two lines, with a comment, and the same one in one line. -/
theorem read_exact_comment :
    Lexes "(seq ; unnamed\n  x)".toList [.opening, .word "seq", .word "x", .closing] ∧
    Lexes "(seq x)".toList [.opening, .word "seq", .word "x", .closing] ∧
    ∀ a b t, Reads a "(seq ; unnamed\n  x)" t ↔ Reads b "(seq x)" t := by
  have hlong : Lexes "(seq ; unnamed\n  x)".toList
      [.opening, .word "seq", .word "x", .closing] :=
    lexes_iff.mpr ⟨⟨⟨2, 5⟩, by decide +kernel⟩, by decide +kernel⟩
  have hshort : Lexes "(seq x)".toList [.opening, .word "seq", .word "x", .closing] :=
    lexes_iff.mpr ⟨⟨⟨1, 8⟩, by decide +kernel⟩, by decide +kernel⟩
  exact ⟨hlong, hshort, fun a b => (read_exact a _).2.2.2 b _ _ hlong hshort⟩

end PonyLens.Dump
