import PonyLens.Proofs.Dump.Outline
import PonyLens.Proofs.Dump.Spelling

/-!
# What the reader makes of the tokens of a tree

The tokens of a legible tree are never refused. They give a tree again, though perhaps another one:
a leaf may become the text of the node around it, and a leaf of an unknown token may become a number
or lose its word. Where neither happens the tree is read back as it is.
-/

namespace PonyLens

open Dump

namespace Tree

def rereadOther (text : String) : Tree :=
  match numberKind? text with
  | some kind => .node kind text []
  | none => .node .other (if (Kind.ofWord? text).isSome then "" else text) []

mutual

/-- What is read for the tokens of a legible tree. -/
def reread : Tree → Tree
  | .node kind text [] => if kind = .other then rereadOther text else .node kind text []
  | .node kind text (child :: children) =>
    match taken? kind text child with
    | some s => .node kind s (rereadAll children)
    | none => .node kind text (reread child :: rereadAll children)

def rereadAll : List Tree → List Tree
  | [] => []
  | t :: ts => reread t :: rereadAll ts

end

theorem rereadAll_eq_map (children : List Tree) : rereadAll children = children.map reread := by
  induction children with
  | nil => rfl
  | cons t children ih => rw [rereadAll, ih, List.map_cons]

theorem spellAll_eq_flatMap (children : List Tree) :
    spellAll children = children.flatMap spell := by
  induction children with
  | nil => rfl
  | cons t children ih => rw [spellAll, ih, List.flatMap_cons]

end Tree

namespace Dump

def Frame.ofTree (t : Tree) : Frame := ⟨t.kind, t.text, t.children⟩

namespace Outline

variable {o : Outline} {fs : List Frame} {kind : Kind} {text w : String} {x : Token}
  {xs ys : List Token} {t : Tree} {children : List Tree}

theorem feedAll_append (o : Outline) (xs ys : List Token) :
    o.feedAll (xs ++ ys) = (o.feedAll xs).bind fun o' => o'.feedAll ys :=
  List.foldlM_append

theorem feedAll_cons (o : Outline) (x : Token) (xs : List Token) :
    o.feedAll (x :: xs) = (o.feed x).bind fun o' => o'.feedAll xs := rfl

@[simp] theorem feedAll_nil (o : Outline) : o.feedAll [] = some o := rfl

theorem feedAll_singleton (o : Outline) (x : Token) : o.feedAll [x] = o.feed x := by
  rw [feedAll_cons]
  cases o.feed x <;> rfl

def Awaits (o : Outline) : Prop := o.expecting = .root ∨ o.expecting = .child

theorem Awaits.feed_eq (h : o.Awaits) (hx : x ≠ .closing) : o.feed x = o.start x := by
  rcases h with hroot | hchild
  · simp only [feed, hroot]
  · cases x with
    | closing => exact absurd rfl hx
    | opening => simp only [feed, hchild, childOrClose]
    | word w => simp only [feed, hchild, childOrClose]
    | quoted s => simp only [feed, hchild, childOrClose]

theorem start_opening (h : o.frames.length < Limits.dumpDepth) :
    o.start .opening = some ⟨o.frames, .kind⟩ := by
  simp only [start, Nat.not_le.mpr h, if_false]

theorem start_word (h : o.frames.length < Limits.dumpDepth) (w : String) :
    o.start (.word w) = o.bareWord w := by
  simp only [start, Nat.not_le.mpr h, if_false]

theorem start_quoted (h : o.frames.length < Limits.dumpDepth) (s : String) :
    o.start (.quoted s) = some (o.leaf .stringLit s) := by
  simp only [start, Nat.not_le.mpr h, if_false]

/-! ### Leaves -/

theorem bareWord_number {w : String} (hw : unplaced w = w) (hkind : numberKind? w = some kind) :
    o.bareWord w = some (o.complete (.node kind w [])) := by
  simp only [bareWord, hw, hkind, leaf]

theorem bareWord_token (hname : kind ≠ .ident) (hdef : kind.isTypeDefinition = false) :
    o.bareWord kind.token = some (o.complete (.node kind "" [])) := by
  simp [bareWord, leaf, hname, hdef]

theorem bareWord_other (hw : unplaced text = text)
    (hkind : (Kind.ofWord? text).getD .other = .other) :
    o.bareWord text = some (o.complete (Tree.rereadOther text)) := by
  simp only [bareWord, hw, Tree.rereadOther]
  cases numberKind? text with
  | some kind => rfl
  | none =>
    cases hofWord : Kind.ofWord? text with
    | none => rfl
    | some kind =>
      rw [hofWord, Option.getD_some] at hkind
      subst hkind
      rfl

/-! ### Nodes in parentheses -/

def opened (fs : List Frame) (kind : Kind) (text : String) : Outline :=
  if Reader.mayHaveText kind && text.isEmpty then ⟨fs, .text kind⟩
  else ⟨{ kind, text } :: fs, .child⟩

theorem complete_eq (o : Outline) (e : Expecting) (t : Tree) :
    (⟨o.frames, e⟩ : Outline).complete t = o.complete t := by
  obtain ⟨frames, expecting⟩ := o
  cases frames <;> rfl

theorem feed_closing {f : Frame}
    (h : f.kind.isTypeDefinition = true → f.children.head?.any (·.kind == .ident) = true) :
    (⟨f :: fs, .child⟩ : Outline).feed .closing =
      some ((⟨fs, .child⟩ : Outline).complete (.node f.kind f.text f.children)) := by
  have hcheck : (f.kind.isTypeDefinition && !f.children.head?.any (·.kind == .ident)) = false := by
    cases hdef : f.kind.isTypeDefinition with
    | false => rfl
    | true => simp [h hdef]
  simp only [feed, childOrClose, close, hcheck]
  rfl

theorem feed_closing_ofTree
    (h : t.kind.isTypeDefinition = true → t.children.head?.any (·.kind == .ident) = true) :
    (⟨.ofTree t :: fs, .child⟩ : Outline).feed .closing =
      some ((⟨fs, .child⟩ : Outline).complete t) := by
  rw [feed_closing h, Frame.ofTree, Tree.node_eta]

/-- A token that is no text belongs to what follows the node's kind. -/
theorem feedAll_of_textOf?_eq_none (h : Reader.textOf? kind x = none) :
    (⟨fs, .text kind⟩ : Outline).feedAll (x :: xs) =
      (⟨{ kind, text := "" } :: fs, .child⟩ : Outline).feedAll (x :: xs) := by
  rw [feedAll_cons, feedAll_cons]
  simp only [feed, h, beginNode]

theorem feed_kind (fs : List Frame) (w : String) :
    (⟨fs, .kind⟩ : Outline).feed (.word w) = some ((⟨fs, .kind⟩ : Outline).kindWord w) := rfl

@[simp] theorem kindOf_token (kind : Kind) : kindOf kind.token = kind := by
  rw [kindOf, Kind.unplaced_token, Kind.ofWord?_token, Option.getD_some]

theorem kindWord_name (h : kindOf w = .ident) (fs : List Frame) :
    (⟨fs, .kind⟩ : Outline).kindWord w = ⟨fs, .name⟩ := by
  rw [kindWord, if_pos h]

theorem kindWord_other (h : kindOf w = .other) (fs : List Frame) :
    (⟨fs, .kind⟩ : Outline).kindWord w =
      ⟨{ kind := .other, text := unplaced w } :: fs, .child⟩ := by
  simp [kindWord, h, beginNode]

theorem kindWord_text (h : Reader.mayHaveText (kindOf w) = true) (fs : List Frame) :
    (⟨fs, .kind⟩ : Outline).kindWord w = ⟨fs, .text (kindOf w)⟩ := by
  have hname : kindOf w ≠ .ident := fun hname => by rw [hname] at h; cases h
  have hother : kindOf w ≠ .other := fun hother => by rw [hother] at h; cases h
  simp only [kindWord, hname, hother, h, if_false, if_true]

theorem kindWord_plain (hname : kindOf w ≠ .ident) (hother : kindOf w ≠ .other)
    (h : Reader.mayHaveText (kindOf w) = false) (fs : List Frame) :
    (⟨fs, .kind⟩ : Outline).kindWord w =
      ⟨{ kind := kindOf w, text := "" } :: fs, .child⟩ := by
  simp [kindWord, hname, hother, h, beginNode]

theorem opened_empty (h : Reader.mayHaveText kind = true) (fs : List Frame) :
    opened fs kind "" = ⟨fs, .text kind⟩ := by
  simp [opened, h]

theorem opened_of_mayHaveText_eq_false (h : Reader.mayHaveText kind = false) (fs : List Frame) :
    opened fs kind text = ⟨{ kind, text } :: fs, .child⟩ := by
  simp [opened, h]

/-- The word of a kind that may have a text leaves that open. -/
theorem feedAll_token (h : Reader.mayHaveText kind = true) (fs : List Frame) :
    (⟨fs, .kind⟩ : Outline).feedAll [.word kind.token] = some ⟨fs, .text kind⟩ := by
  rw [← kindOf_token kind] at h
  rw [feedAll_singleton, feed_kind, kindWord_text h, kindOf_token]

theorem feedAll_headTokens (h : Tree.Legible (.node kind text children))
    (hparens : children = [] →
      Tree.leafTokens kind text = .opening :: Tree.headTokens kind text ++ [.closing]) :
    (⟨fs, .kind⟩ : Outline).feedAll (Tree.headTokens kind text) = some (opened fs kind text) := by
  cases kind.form with
  | name =>
    rw [Tree.headTokens, feedAll_cons, feed_kind, kindWord_name (kindOf_token .ident)]
    rfl
  | string =>
    have htext : text = "" := h.resolve_left fun hnil => by cases hparens hnil
    rw [htext, opened_empty rfl, ← feedAll_token rfl]
    rfl
  | number hkind =>
    have hmay := Tree.mayHaveText_number hkind
    have htext : text = "" := by
      by_cases hnil : children = []
      · have hleaf := hparens hnil
        rw [Tree.leafTokens_number hkind] at hleaf
        cases hleaf
      · simpa [Tree.legible_number hkind, hnil] using h
    rw [Tree.headTokens_number hkind, htext, opened_empty hmay, feedAll_token hmay]
  | file hkind =>
    have hmay := Tree.mayHaveText_file hkind
    by_cases htext : text = ""
    · rw [Tree.headTokens_file hkind, if_pos htext, htext, opened_empty hmay, feedAll_token hmay]
    · rw [Tree.headTokens_file hkind, if_neg htext, ← List.singleton_append, feedAll_append,
        feedAll_token hmay]
      rcases hkind with rfl | rfl <;> simp [feedAll_singleton, feed, Reader.textOf?, beginNode,
        opened, htext]
  | other =>
    rcases h with ⟨hnil, _⟩ | ⟨hword, hw, hkind⟩
    · cases hparens hnil
    · have hkindOf : kindOf text = .other := by rw [kindOf, hw, hkind]
      rw [Tree.headTokens, if_neg hword.1, feedAll_singleton, feed_kind, kindWord_other hkindOf,
        hw, opened_of_mayHaveText_eq_false rfl]
  | plain hplain =>
    obtain ⟨htext, _⟩ := (Tree.legible_plain hplain).mp h
    have hname : kind ≠ .ident := by rintro rfl; cases hplain
    have hother : kind ≠ .other := by rintro rfl; cases hplain
    have hmay := Tree.mayHaveText_plain hplain
    have hword : (⟨fs, .kind⟩ : Outline).kindWord kind.token =
        ⟨{ kind := kindOf kind.token, text := "" } :: fs, .child⟩ := by
      apply kindWord_plain <;> rwa [kindOf_token]
    rw [Tree.headTokens_plain hplain, htext, feedAll_singleton, feed_kind, hword, kindOf_token,
      opened_of_mayHaveText_eq_false hmay]

theorem feed_opened_closing (hdef : kind.isTypeDefinition = false) :
    (opened fs kind text).feed .closing =
      some ((⟨fs, .child⟩ : Outline).complete (.node kind text [])) := by
  have hclose (text : String) : (⟨{ kind, text } :: fs, .child⟩ : Outline).feed .closing =
      some ((⟨fs, .child⟩ : Outline).complete (.node kind text [])) :=
    feed_closing (f := { kind, text }) fun h => by rw [hdef] at h; cases h
  rw [opened]
  split
  · rename_i htext
    rw [Bool.and_eq_true, String.isEmpty_iff] at htext
    have hnone : Reader.textOf? kind .closing = none := by cases kind <;> rfl
    rw [htext.2, ← hclose "", ← feedAll_singleton, ← feedAll_singleton,
      feedAll_of_textOf?_eq_none hnone]
  · exact hclose text

theorem feedAll_leafTokens (h : Tree.Legible (.node kind text [])) (ho : o.Awaits)
    (hroom : o.frames.length < Limits.dumpDepth) :
    o.feedAll (Tree.leafTokens kind text) =
      some (o.complete (Tree.reread (.node kind text []))) := by
  have hparens (hdef : kind.isTypeDefinition = false) (hleaf : Tree.leafTokens kind text =
      .opening :: Tree.headTokens kind text ++ [.closing]) :
      o.feedAll (Tree.leafTokens kind text) = some (o.complete (.node kind text [])) := by
    rw [hleaf, List.cons_append, feedAll_cons, ho.feed_eq (by simp), start_opening hroom,
      Option.bind_some, feedAll_append, feedAll_headTokens h fun _ => hleaf, Option.bind_some,
      feedAll_singleton, feed_opened_closing hdef, complete_eq]
  cases kind.form with
  | name => exact hparens rfl rfl
  | string =>
    rw [Tree.leafTokens, feedAll_singleton, ho.feed_eq (by simp), start_quoted hroom]
    rfl
  | number hkind =>
    have hnumber : IsWord text ∧ unplaced text = text ∧ numberKind? text = some kind :=
      (Tree.legible_number hkind).mp h
    have hreread : Tree.reread (.node kind text []) = .node kind text [] := by
      rcases hkind with rfl | rfl <;> rfl
    rw [Tree.leafTokens_number hkind, hreread, feedAll_singleton, ho.feed_eq (by simp),
      start_word hroom, bareWord_number hnumber.2.1 hnumber.2.2]
  | file hkind => rcases hkind with rfl | rfl <;> exact hparens rfl rfl
  | other =>
    have hreread : Tree.reread (.node .other text []) = Tree.rereadOther text := rfl
    rw [hreread, Tree.leafTokens, Tree.headTokens, feedAll_singleton, ho.feed_eq (by simp),
      start_word hroom]
    rcases h with ⟨_, rfl⟩ | ⟨hword, hw, hkind⟩
    · have hempty : Tree.rereadOther "" = .node .other "" [] := by
        simp [Tree.rereadOther, show numberKind? "" = none from rfl]
      rw [if_pos rfl, bareWord_token (by simp) rfl, hempty]
    · rw [if_neg hword.1, bareWord_other hw hkind]
  | plain hplain =>
    obtain ⟨htext, hfirst⟩ := (Tree.legible_plain hplain).mp h
    have hdef : kind.isTypeDefinition = false := by
      by_contra hdef
      simpa using hfirst (by simpa using hdef)
    have hreread : Tree.reread (.node kind text []) = .node kind text [] := by
      cases kind <;> first | rfl | cases hplain
    have hname : kind ≠ .ident := by
      rintro rfl
      cases hplain
    rw [hreread]
    by_cases hbare : kind.isBare = true
    · rw [Tree.leafTokens_plain hplain, if_pos hbare, feedAll_singleton, ho.feed_eq (by simp),
        start_word hroom, bareWord_token hname hdef, htext]
    · exact hparens hdef (by rw [Tree.leafTokens_plain hplain, if_neg hbare])

/-! ### Trees -/

theorem feedAll_parts {f : Frame} {parts : List (List Token × Tree)}
    (h : ∀ p ∈ parts, ∀ o : Outline, o.Awaits → o.frames.length = fs.length + 1 →
      o.feedAll p.1 = some (o.complete p.2)) :
    (⟨f :: fs, .child⟩ : Outline).feedAll (parts.flatMap Prod.fst) =
      some ⟨{ f with children := f.children ++ parts.map Prod.snd } :: fs, .child⟩ := by
  induction parts generalizing f with
  | nil => simp
  | cons p parts ih =>
    rw [List.flatMap_cons, feedAll_append, h p List.mem_cons_self _ (.inr rfl) rfl,
      Option.bind_some, complete]
    dsimp only
    rw [ih fun q hq => h q (List.mem_cons_of_mem p hq), List.map_cons, List.append_assoc,
      List.singleton_append]

theorem feedAll_spellAll {f : Frame}
    (h : ∀ t ∈ children, ∀ o : Outline, o.Awaits → o.frames.length = fs.length + 1 →
      o.feedAll t.spell = some (o.complete t.reread)) :
    (⟨f :: fs, .child⟩ : Outline).feedAll (Tree.spellAll children) =
      some ⟨{ f with children := f.children ++ Tree.rereadAll children } :: fs, .child⟩ := by
  have hparts : ∀ p ∈ children.map fun t => (t.spell, t.reread), ∀ o : Outline, o.Awaits →
      o.frames.length = fs.length + 1 → o.feedAll p.1 = some (o.complete p.2) := by
    simpa using h
  have hfeed := feedAll_parts (f := f) hparts
  rw [List.flatMap_map, List.map_map] at hfeed
  rw [Tree.spellAll_eq_flatMap, Tree.rereadAll_eq_map]
  exact hfeed

/-- A tree of more than one token starts with a parenthesis. -/
theorem exists_spell_eq (t : Tree) :
    ∃ x xs, t.spell = x :: xs ∧ (xs ≠ [] → x = .opening) := by
  obtain ⟨kind, text, children⟩ := t
  cases children with
  | cons child children => exact ⟨_, _, rfl, fun _ => rfl⟩
  | nil =>
    have hbare (hleaf : Tree.leafTokens kind text =
        if kind.isBare then [.word kind.token]
        else .opening :: Tree.headTokens kind text ++ [.closing]) :
        ∃ x xs, Tree.leafTokens kind text = x :: xs ∧ (xs ≠ [] → x = .opening) := by
      by_cases hbare : kind.isBare = true
      · exact ⟨_, [], by rw [hleaf, if_pos hbare], by simp⟩
      · exact ⟨.opening, _, by rw [hleaf, if_neg hbare]; rfl, by simp⟩
    rw [Tree.spell]
    cases kind.form with
    | name => exact ⟨.opening, _, rfl, by simp⟩
    | string => exact ⟨_, [], rfl, by simp⟩
    | number hkind => rcases hkind with rfl | rfl <;> exact ⟨_, [], rfl, by simp⟩
    | file hkind => rcases hkind with rfl | rfl <;> exact hbare rfl
    | other => exact ⟨_, [], rfl, by simp⟩
    | plain hplain => exact hbare (Tree.leafTokens_plain hplain)

theorem taken?_eq_some {child : Tree} {s : String} (h : Tree.taken? kind text child = some s) :
    Reader.mayHaveText kind = true ∧ text = "" ∧
      ∃ x, child.spell = [x] ∧ Reader.textOf? kind x = some s := by
  rw [Tree.taken?] at h
  split at h
  · rename_i hmay
    rw [Bool.and_eq_true, String.isEmpty_iff] at hmay
    split at h
    · exact ⟨hmay.1, hmay.2, _, ‹_›, h⟩
    · cases h
  · cases h

/-- Where the first child is not taken for the text of a node, the node is complete before it. -/
theorem feedAll_opened {child : Tree} (h : Tree.taken? kind text child = none) (xs : List Token) :
    (opened fs kind text).feedAll (child.spell ++ xs) =
      (⟨{ kind, text } :: fs, .child⟩ : Outline).feedAll (child.spell ++ xs) := by
  rw [opened]
  split
  · rename_i hmay
    rw [Tree.taken?, if_pos hmay] at h
    rw [Bool.and_eq_true, String.isEmpty_iff] at hmay
    obtain ⟨x, ys, hspell, hopening⟩ := exists_spell_eq child
    have hnone : Reader.textOf? kind x = none := by
      cases ys with
      | nil => simpa [hspell] using h
      | cons y ys =>
        rw [hopening (by simp)]
        cases kind <;> rfl
    rw [hspell, List.cons_append, feedAll_of_textOf?_eq_none hnone, hmay.2]
  · rfl

theorem kind_reread_of_ident (h : t.kind = .ident) : t.reread.kind = .ident := by
  obtain ⟨kind, text, children⟩ := t
  obtain rfl : kind = .ident := h
  cases children with
  | nil => rfl
  | cons child children =>
    rw [Tree.reread]
    split <;> rfl

theorem feedAll_children {child : Tree}
    (h : ∀ t ∈ child :: children, ∀ o : Outline, o.Awaits → o.frames.length = fs.length + 1 →
      o.feedAll t.spell = some (o.complete t.reread)) :
    (opened fs kind text).feedAll (Tree.spellAll (child :: children)) =
      some ⟨.ofTree (Tree.node kind text (child :: children)).reread :: fs, .child⟩ := by
  cases htaken : Tree.taken? kind text child with
  | some s =>
    obtain ⟨hmay, rfl, x, hspell, htext⟩ := taken?_eq_some htaken
    have hfeed : (⟨fs, .text kind⟩ : Outline).feed x =
        some ⟨{ kind, text := s } :: fs, .child⟩ := by
      simp only [feed, htext, beginNode]
    have hrest := feedAll_spellAll (f := { kind, text := s })
      fun t ht => h t (List.mem_cons_of_mem child ht)
    rw [opened_empty hmay, Tree.spellAll, hspell, List.singleton_append, feedAll_cons, hfeed,
      Option.bind_some, hrest, Tree.reread, htaken]
    rfl
  | none =>
    rw [Tree.spellAll, feedAll_opened htaken, ← Tree.spellAll, feedAll_spellAll h, Tree.reread,
      htaken]
    rfl

theorem reread_closes {child : Tree} (h : Tree.Legible (.node kind text (child :: children)))
    (ht : (Tree.node kind text (child :: children)).reread = t)
    (hdef : t.kind.isTypeDefinition = true) :
    t.children.head?.any (·.kind == .ident) = true := by
  subst ht
  have hkind : (Tree.node kind text (child :: children)).reread.kind = kind := by
    rw [Tree.reread]
    split <;> rfl
  rw [hkind] at hdef
  have hplain : kind.carriesText = false := by cases kind <;> first | rfl | cases hdef
  have hchild : child.kind = .ident := by
    simpa using ((Tree.legible_plain hplain).mp h).2 hdef
  have htaken : Tree.taken? kind text child = none := by
    simp [Tree.taken?, Tree.mayHaveText_plain hplain]
  simp [Tree.reread, htaken, Tree.children, kind_reread_of_ident hchild]

/-- The tokens of a legible tree give the tree that is read for them. -/
theorem feedAll_spell (h : t.Everywhere Tree.Legible) (ho : o.Awaits)
    (hroom : o.frames.length + t.height ≤ Limits.dumpDepth) :
    o.feedAll t.spell = some (o.complete t.reread) := by
  induction t using Tree.induct generalizing o with
  | node kind text children ih =>
    rw [Tree.everywhere_node] at h
    have hlt : o.frames.length < Limits.dumpDepth := by
      rw [Tree.height] at hroom
      omega
    cases children with
    | nil => exact feedAll_leafTokens h.1 ho hlt
    | cons child children =>
      have hall : ∀ t ∈ child :: children, ∀ o' : Outline, o'.Awaits →
          o'.frames.length = o.frames.length + 1 →
          o'.feedAll t.spell = some (o'.complete t.reread) := by
        intro t ht o' ho' hlength
        have hheight : t.height < (Tree.node kind text (child :: children)).height :=
          Tree.height_lt_of_mem ht
        exact ih t ht (h.2 t ht) ho' (by omega)
      have hhead : (⟨o.frames, .kind⟩ : Outline).feedAll (Tree.headTokens kind text) =
          some (opened o.frames kind text) := feedAll_headTokens h.1 (by simp)
      rw [Tree.spell, List.cons_append, List.cons_append, feedAll_cons, ho.feed_eq (by simp),
        start_opening hlt, Option.bind_some, List.append_assoc, feedAll_append, hhead,
        Option.bind_some, feedAll_append, feedAll_children hall, Option.bind_some,
        feedAll_singleton, feed_closing_ofTree (reread_closes h.1 rfl), complete_eq]

theorem outline?_spell (h : t.Everywhere Tree.Legible) (hheight : t.height ≤ Limits.dumpDepth) :
    outline? t.spell = some t.reread := by
  have hfeed := feedAll_spell (o := {}) h (.inl rfl) (by simpa using hheight)
  rw [outline?, hfeed]
  rfl

end Outline

end Dump

namespace Tree

variable {text : String} {t : Tree}

theorem rereadOther_eq_iff :
    rereadOther text = .node .other text [] ↔
      numberKind? text = none ∧ Kind.ofWord? text = none := by
  rw [rereadOther]
  cases hnumber : numberKind? text with
  | some kind =>
    rcases numberKind?_eq_some hnumber with rfl | rfl <;> simp
  | none =>
    cases hword : Kind.ofWord? text with
    | none => simp
    | some kind =>
      have hne : "" ≠ text := by
        rintro rfl
        rw [Kind.ofWord?_empty] at hword
        cases hword
      simp [hne]

/-- The trees that are read back are the legible ones in which nothing is taken or mistaken. -/
theorem reread_eq_iff (h : t.Everywhere Legible) : t.reread = t ↔ t.Everywhere ReadsBack := by
  induction t using Tree.induct with
  | node kind text children ih =>
    rw [everywhere_node] at h ⊢
    obtain ⟨hlegible, hchildren⟩ := h
    cases children with
    | nil =>
      have hback : ReadsBack (.node kind text []) ↔
          (kind = .other → numberKind? text = none ∧ Kind.ofWord? text = none) :=
        ⟨fun h hkind => h.not_mistaken hkind rfl, fun h => ⟨hlegible, by simp [Tree.children],
          fun hkind _ => h hkind⟩⟩
      rw [hback, reread]
      by_cases hkind : kind = .other
      · subst hkind
        simp [rereadOther_eq_iff]
      · simp [hkind]
    | cons child children =>
      have hall : (child :: children).map reread = child :: children ↔
          ∀ t ∈ child :: children, t.Everywhere ReadsBack := by
        have hmap : (child :: children).map reread = (child :: children).map id ↔
            ∀ t ∈ child :: children, t.reread = id t := List.map_inj_left
        rw [List.map_id] at hmap
        exact hmap.trans (forall₂_congr fun t ht => ih t ht (hchildren t ht))
      cases htaken : taken? kind text child with
      | some s =>
        have hlength : (children.map reread) ≠ child :: children := fun heq => by
          simpa using congrArg List.length heq
        have hback : ¬ ReadsBack (.node kind text (child :: children)) := fun h => by
          have hnone := h.not_taken child rfl
          rw [Tree.kind, Tree.text, htaken] at hnone
          cases hnone
        simp [reread, htaken, rereadAll_eq_map, hlength, hback]
      | none =>
        have hback : ReadsBack (.node kind text (child :: children)) :=
          ⟨hlegible, by simpa [Tree.children, Tree.kind, Tree.text] using htaken,
            fun _ hnil => by cases hnil⟩
        rw [← hall]
        simp [reread, htaken, rereadAll_eq_map, hback]

end Tree

end PonyLens
