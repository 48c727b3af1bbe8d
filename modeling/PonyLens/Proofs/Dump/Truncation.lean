import PonyLens.Proofs.Dump.Spans
import PonyLens.Proofs.Dump.Steps

/-!
# Dumps that are cut off

A dump that ends between two of its tokens is no dump. What has been read of it is what would have
been read of all of it, so the reader is content until the end comes. It then misses more of the
text, unless it waits for the name of an identifier: the name is missing where its kind is written.
-/

namespace PonyLens.Dump

open Outline (kindOf)

/-- Whether a text is cut off after the tokens in `front` and before the token `next`. -/
structure CutBetween (cut : List Char) (front : List Span) (next : Span) : Prop where
  after : ∀ s ∈ front, s.upTo <+: cut
  before : cut <+: next.before

/-- Whether the tokens end in the word of an identifier, which follows its parenthesis. -/
def EndsInIdent (front : List Span) (s : Span) : Prop :=
  ∃ init o w, front = init ++ [o, s] ∧ o.token = .opening ∧ s.token = .word w ∧ kindOf w = .ident

variable {a b dest : Arena} {n : NodeId} {source : String} {before cs cut piece rest : List Char}
  {front back ss : List Span} {next s : Span} {xs : List Token} {r r' : Reader} {x : Lexeme}

/-! ### The tokens of the cut text -/

theorem Piece.imp {c c' : Option Char} (h : Piece piece xs c) (hnext : ∀ d ∈ c', d ∈ c) :
    Piece piece xs c' := by
  cases h with
  | blank hc => exact .blank hc
  | comment hbody hline => exact .comment hbody fun d hd => hline d (hnext d hd)
  | opening => exact .opening
  | closing => exact .closing
  | word hw hends => exact .word hw fun d hd => hends d (hnext d hd)
  | quoted hquotes => exact .quoted hquotes

theorem Piece.of_prefix (h : Piece piece xs rest.head?) (hcut : cut <+: rest) :
    Piece piece xs cut.head? := by
  refine h.imp fun d hd => ?_
  obtain ⟨more, rfl⟩ := hcut
  exact List.mem_head?_append_of_mem_head? hd

/-- What is left of a blank or a comment has no tokens. -/
theorem Piece.spans_of_prefix {c : Option Char} (h : Piece piece [] c) (hcut : cut <+: piece) :
    Spans before cut [] := by
  have hgap (hpiece : Piece cut [] none) : Spans before cut [] := by
    have hspans : Spans before (cut ++ []) [] := .gap hpiece .nil
    rwa [List.append_nil] at hspans
  rcases cut with - | ⟨d, cut⟩
  · exact .nil
  cases h with
  | blank hc =>
    obtain ⟨rfl, hnil⟩ := List.cons_prefix_cons.mp hcut
    rw [List.prefix_nil.mp hnil] at hgap ⊢
    exact hgap (.blank hc)
  | comment hbody _ =>
    obtain ⟨rfl, hsub⟩ := List.cons_prefix_cons.mp hcut
    exact hgap (.comment (fun hline => hbody (hsub.subset hline)) (by simp))

/-- A text that is cut off between two tokens has the tokens before the cut, where they were. -/
theorem Spans.of_cut (h : Spans before cs (front ++ next :: back))
    (hcut : CutBetween (before ++ cut) front next) : Spans before cut front := by
  generalize hss : front ++ next :: back = ss at h
  induction h generalizing front cut with
  | nil => simp at hss
  | @gap before piece rest ss hpiece hrest ih =>
    have hnext : next ∈ ss := by simp [← hss]
    have hprefix : before ++ cut <+: before ++ (piece ++ rest) := by
      rw [← List.append_assoc]
      exact hcut.before.trans ((List.prefix_append _ _).trans (hrest.upTo_prefix hnext))
    rw [List.prefix_append_right_inj] at hprefix
    rcases List.prefix_or_prefix_of_prefix hprefix (List.prefix_append piece rest) with hle | hle
    · -- The cut is in the piece, so that no token is before it.
      have hfront : front = [] := by
        refine List.eq_nil_iff_forall_not_mem.mpr fun s hs => ?_
        have hmem : s ∈ ss := by simp [← hss, hs]
        have hafter := (hcut.after s hs).trans ((List.prefix_append_right_inj before).mpr hle)
        have hlength := hafter.length_le.trans (hrest.prefix_before hmem).length_le
        exact absurd (hrest.length_lt hmem) (Nat.not_lt.mpr hlength)
      rw [hfront]
      exact hpiece.spans_of_prefix hle
    · obtain ⟨cut, rfl⟩ := hle
      rw [List.prefix_append_right_inj] at hprefix
      rw [← List.append_assoc] at hcut
      exact .gap (hpiece.of_prefix hprefix) (ih hcut hss)
  | @token before piece rest x ss hpiece hrest ih =>
    rcases front with - | ⟨s, front⟩
    · cases hss
      have hle : before ++ cut <+: before ++ [] := by simpa using hcut.before
      have hnil : cut = [] := List.prefix_nil.mp ((List.prefix_append_right_inj before).mp hle)
      rw [hnil]
      exact .nil
    · rw [List.cons_append, List.cons.injEq] at hss
      obtain ⟨rfl, hss⟩ := hss
      have hnext : next ∈ ss := by simp [← hss]
      have hafter : before ++ piece <+: before ++ cut := hcut.after _ List.mem_cons_self
      rw [List.prefix_append_right_inj] at hafter
      obtain ⟨cut, rfl⟩ := hafter
      rw [← List.append_assoc] at hcut
      have hprefix := hcut.before.trans ((List.prefix_append _ _).trans (hrest.upTo_prefix hnext))
      rw [List.prefix_append_right_inj] at hprefix
      refine .token (hpiece.of_prefix hprefix) (ih ⟨fun t ht => ?_, hcut.before⟩ hss)
      exact hcut.after t (List.mem_cons_of_mem _ ht)

theorem Spans.cutBetween (h : Spans before cs (front ++ s :: next :: back)) :
    CutBetween s.upTo (front ++ [s]) next := by
  have hpairs := List.pairwise_append.mp h.pairwise
  have hnext := List.rel_of_pairwise_cons hpairs.2.1 (List.mem_cons_self (l := back))
  refine ⟨fun t ht => ?_, hnext⟩
  rcases List.mem_append.mp ht with ht | ht
  · exact (hpairs.2.2 t ht s List.mem_cons_self).trans (List.prefix_append _ _)
  · obtain rfl := List.mem_singleton.mp ht
    exact List.prefix_refl _

/-! ### The reader at the cut -/

namespace Reader

/-- After a token between two nodes the word of a kind is to follow, or the reader is between two
nodes again. -/
theorem feed_between_cases (hr : r.expecting.isBetween = true) (h : r.feed x = .ok r') :
    x.token = .opening ∧ r'.expecting = .kind x.location ∨
      x.token ≠ .opening ∧ r'.expecting.isBetween = true := by
  rcases feed_between hr h with ⟨hx, hclose⟩ | hstart
  · obtain ⟨_, _, _, hcomplete⟩ := close_cases hclose
    exact .inr ⟨by simp [hx], isBetween_complete hcomplete⟩
  · rcases start_cases hstart with ⟨hx, rfl⟩ | ⟨s, hx, hleaf⟩ | ⟨w, kind, text, hx, _, hleaf⟩
    · exact .inl ⟨hx, rfl⟩
    · exact .inr ⟨by simp [hx], isBetween_leaf hleaf⟩
    · exact .inr ⟨by simp [hx], isBetween_leaf hleaf⟩

/-- A token leads to what follows a parenthesis, or to what follows the word after one, or it leaves
the reader between two nodes. -/
theorem feed_cases (h : r.feed x = .ok r') :
    x.token = .opening ∧ r'.expecting = .kind x.location ∨
    (∃ opening w, r.expecting = .kind opening ∧ x.token = .word w ∧
      r' = r.kindWord opening w x.location) ∨
    x.token ≠ .opening ∧ (∀ opening, r.expecting ≠ .kind opening) ∧
      r'.expecting.isBetween = true := by
  cases hr : r.expecting with
  | root | child | nothing =>
    have hbetween : r.expecting.isBetween = true := by rw [hr]; rfl
    exact (feed_between_cases hbetween h).imp_right fun hx => .inr ⟨hx.1, by simp, hx.2⟩
  | kind opening =>
    simp only [feed, hr] at h
    split at h
    · rename_i hx
      exact .inr (.inl ⟨_, _, rfl, hx, (Except.ok.inj h).symm⟩)
    · cases h
  | name =>
    simp only [feed, hr] at h
    split at h
    · rename_i hx
      cases h
      exact .inr (.inr ⟨by simp [hx], by simp, rfl⟩)
    · rename_i hx
      cases h
      exact .inr (.inr ⟨by simp [hx], by simp, rfl⟩)
    · cases h
  | text kind opening location =>
    simp only [feed, hr] at h
    split at h
    · rename_i htext
      cases h
      refine .inr (.inr ⟨fun hx => ?_, by simp, rfl⟩)
      rw [hx] at htext
      cases takesText_iff.mpr htext
    · -- The token is taken as if it came after the node was created.
      have hcases := feed_between_cases (r := r.beginNode opening kind "" location) rfl h
      exact hcases.imp_right fun hx => .inr ⟨hx.1, by simp, hx.2⟩

section Run

variable (h : (front.map Span.lexeme).foldlM feed { arena := dest } = .ok r)
include h

/-- The word of a kind is to follow exactly if a parenthesis came last. -/
theorem expecting_kind_iff : (∃ opening, r.expecting = .kind opening) ↔
    ∃ o ∈ front.getLast?, o.token = .opening := by
  rcases front.eq_nil_or_concat' with rfl | ⟨init, s, rfl⟩
  · cases h
    simp
  · rw [List.map_append] at h
    obtain ⟨q, _, hfeed⟩ := run_concat h
    have hlast : (∃ o ∈ (init ++ [s]).getLast?, o.token = .opening) ↔ s.token = .opening := by
      simp
    rw [hlast]
    rcases feed_cases hfeed with ⟨hs, hr⟩ | ⟨_, w, _, hs, rfl⟩ | ⟨hs, _, hr⟩
    · exact iff_of_true ⟨_, hr⟩ hs
    · refine iff_of_false ?_ fun hopening => ?_
      · rw [kindWord_eq]
        split_ifs <;> simp [beginNode]
      · cases hs.symm.trans hopening
    · refine iff_of_false ?_ hs
      rintro ⟨opening, hkind⟩
      rw [hkind] at hr
      cases hr

theorem expecting_name_iff {place : Location} :
    (∃ opening location, r.expecting = .name opening place location) ↔
      ∃ s, EndsInIdent front s ∧ s.place = place := by
  rcases front.eq_nil_or_concat' with rfl | ⟨init, s, rfl⟩
  · cases h
    simp [EndsInIdent]
  · rw [List.map_append] at h
    obtain ⟨q, hinit, hfeed⟩ := run_concat h
    have hlast : (∃ t, EndsInIdent (init ++ [s]) t ∧ t.place = place) ↔
        (∃ opening, q.expecting = .kind opening) ∧
          (∃ w, s.token = .word w ∧ kindOf w = .ident) ∧ s.place = place := by
      rw [expecting_kind_iff hinit]
      constructor
      · rintro ⟨t, ⟨init', o, w, heq, ho, ht, hw⟩, hplace⟩
        have heq : init ++ [s] = (init' ++ [o]) ++ [t] := by simpa using heq
        obtain ⟨rfl, hst⟩ := List.append_inj' heq rfl
        obtain rfl := List.singleton_inj.mp hst
        exact ⟨⟨o, by simp, ho⟩, ⟨w, ht, hw⟩, hplace⟩
      · rintro ⟨⟨o, hlast, ho⟩, ⟨w, hs, hw⟩, hplace⟩
        obtain ⟨init', rfl⟩ := List.getLast?_eq_some_iff.mp hlast
        exact ⟨s, ⟨init', o, w, by simp, ho, hs, hw⟩, hplace⟩
    rw [hlast]
    rcases feed_cases hfeed with ⟨hs, hr⟩ | ⟨_, w, hkind, hs, rfl⟩ | ⟨hs, hkind, hr⟩
    · refine iff_of_false (by simp [hr]) ?_
      rintro ⟨_, ⟨w, hword, _⟩, _⟩
      cases hs.symm.trans hword
    · have hword : s.token = .word w := hs
      rw [kindWord_eq]
      split_ifs with hident hother hmay
      · simp [hkind, hword, hident, Span.lexeme]
      · simp [beginNode, hword, hident]
      · simp [hword, hident]
      · simp [beginNode, hword, hident]
    · refine iff_of_false ?_ (fun hall => absurd hall.1 (by simp [hkind]))
      rintro ⟨_, _, hname⟩
      rw [hname] at hr
      cases hr

end Run

theorem finish_of_name {opening word location : Location}
    (h : r.expecting = .name opening word location) (place : Location) :
    r.finish (.complete place) = .error ⟨.missingName word, r.arena⟩ := by
  simp [finish, h, refuse]

theorem finish_of_more (hname : ∀ opening word location, r.expecting ≠ .name opening word location)
    (hmore : ∀ n, r.expecting ≠ .nothing n) (place : Location) :
    ∃ b, r.finish (.complete place) = .error ⟨.unexpectedEnd place, b⟩ := by
  cases hr : r.expecting with
  | name opening word location => exact absurd hr (hname opening word location)
  | nothing n => exact absurd hr (hmore n)
  | root | kind | text | child =>
    simp only [finish, hr]
    exact ⟨_, rfl⟩

end Reader

/-- What comes before a token of a dump is read, and leaves the root unfinished. -/
theorem exists_run_of_span {t : Tree} (h : treeOf? source = some t)
    (hspans : Spans [] source.toList (front ++ next :: back)) (dest : Arena) :
    ∃ r, (front.map Span.lexeme).foldlM Reader.feed { arena := dest } = .ok r ∧
      ∀ n, r.expecting ≠ .nothing n := by
  rw [treeOf?, hspans.scan_eq, List.map_map] at h
  obtain ⟨e, he, _⟩ := Option.bind_eq_some_iff.mp h
  rw [List.map_append, List.map_cons, Outline.feedAll_append] at he
  obtain ⟨o, ho, he⟩ := Option.bind_eq_some_iff.mp he
  rw [Outline.feedAll_cons] at he
  obtain ⟨o', hnext, _⟩ := Option.bind_eq_some_iff.mp he
  have hstart : Reader.Follows { arena := dest } {} := ⟨.nil, .root⟩
  have hagrees := hstart.agrees_feedAll (front.map Span.lexeme)
  rw [List.map_map, ho] at hagrees
  generalize (front.map Span.lexeme).foldlM Reader.feed { arena := dest } = outcome at hagrees ⊢
  obtain ⟨hfollows⟩ := hagrees
  refine ⟨_, rfl, fun n hn => ?_⟩
  have hexpecting := hfollows.expecting
  rw [hn] at hexpecting
  generalize hnothing : o.expecting = expected at hexpecting
  cases hexpecting
  unfold Outline.feed at hnext
  rw [hnothing] at hnext
  cases hnext

/-- Wherever a text that is read is cut off between two tokens, or before the first one, the cut
text is refused: where the cut follows the word of an identifier, because the name is missing there,
and anywhere else because the text is over too early, at the place just past it. -/
theorem read_cut (h : read a source = (.ok n, b)) :
    (∃ ss, Spans [] source.toList ss) ∧
    ∀ ss, Spans [] source.toList ss → ∀ front next back, ss = front ++ next :: back →
      (∀ init s, front = init ++ [s] → CutBetween s.upTo front next) ∧
      ∀ cut, CutBetween cut front next → ∀ dest,
        (∀ s, EndsInIdent front s →
          ∃ c, read dest (String.ofList cut) = (.error (.missingName s.place), c)) ∧
        ((∀ s, ¬ EndsInIdent front s) →
          ∃ c, read dest (String.ofList cut) = (.error (.unexpectedEnd (.past cut)), c)) := by
  obtain ⟨t, htree, _⟩ := exists_treeOf? h
  refine ⟨exists_spans htree, ?_⟩
  rintro _ hspans front next back rfl
  refine ⟨?_, fun cut hcut dest => ?_⟩
  · rintro init s rfl
    rw [List.append_assoc] at hspans
    exact hspans.cutBetween
  obtain ⟨r, hrun, hmore⟩ := exists_run_of_span htree hspans dest
  have hfront : Spans [] (String.ofList cut).toList front := by
    rw [String.toList_ofList]
    exact hspans.of_cut hcut
  have hscan := hfront.scan_eq
  rw [String.toList_ofList] at hscan
  have hread {refusal : Refusal} (hfinish : r.finish (.complete (.past cut)) = .error refusal) :
      read dest (String.ofList cut) = (.error refusal.error, refusal.arena) := by
    rw [read, hscan]
    dsimp only
    rw [hrun]
    simp [bind, Except.bind, hfinish]
  constructor
  · intro s hs
    obtain ⟨opening, location, hname⟩ := (Reader.expecting_name_iff hrun).mpr ⟨s, hs, rfl⟩
    exact ⟨_, hread (Reader.finish_of_name hname _)⟩
  · intro hnone
    have hname (opening word location : Location) : r.expecting ≠ .name opening word location := by
      intro hname
      obtain ⟨s, hs, _⟩ := (Reader.expecting_name_iff hrun).mp ⟨opening, location, hname⟩
      exact hnone s hs
    obtain ⟨c, hfinish⟩ := Reader.finish_of_more hname hmore (.past cut)
    exact ⟨c, hread hfinish⟩

def identSpans : List Span :=
  [⟨[], ['('], .opening⟩, ⟨['('], ['i', 'd'], .word "id"⟩, ⟨['(', 'i', 'd', ' '], ['a'], .word "a"⟩,
    ⟨['(', 'i', 'd', ' ', 'a'], [')'], .closing⟩]

/-- It is cut off after its parenthesis, and after the word for its kind. -/
theorem read_cut_ident :
    read .empty "(id a)" = (.ok 0, (read .empty "(id a)").2) ∧
      Spans [] "(id a)".toList identSpans ∧
      ∀ dest, (∃ c, read dest "(" = (.error (.unexpectedEnd ⟨1, 2⟩), c)) ∧
        ∃ c, read dest "(id" = (.error (.missingName ⟨1, 2⟩), c) := by
  have hread : read .empty "(id a)" = (.ok 0, (read .empty "(id a)").2) := by
    refine Prod.ext ?_ rfl
    decide +kernel
  have hspans : Spans [] "(id a)".toList identSpans := by
    have hlist : "(id a)".toList = ['('] ++ (['i', 'd'] ++ ([' '] ++ (['a'] ++ ([')'] ++ [])))) := by
      decide +kernel
    have hid : Piece ['i', 'd'] [.word "id"] (some ' ') :=
      Piece.word (w := "id") (by decide) (by rintro _ ⟨⟩; decide)
    have ha : Piece ['a'] [.word "a"] (some ')') :=
      Piece.word (w := "a") (by decide) (by rintro _ ⟨⟩; decide)
    rw [hlist]
    exact .token .opening (.token hid (.gap (.blank (by decide)) (.token ha (.token .closing .nil))))
  have hcuts (front back : List Span) (next : Span) (heq : identSpans = front ++ next :: back) :=
    (read_cut hread).2 _ hspans front next back heq
  refine ⟨hread, hspans, fun dest => ⟨?_, ?_⟩⟩
  · obtain ⟨hlast, hcut⟩ := hcuts [_] _ _ rfl
    have hnone (s : Span) : ¬ EndsInIdent [⟨[], ['('], .opening⟩] s := by
      rintro ⟨init, o, w, heq, _⟩
      simpa using congrArg List.length heq
    exact (hcut _ (hlast [] _ rfl) dest).2 hnone
  · obtain ⟨hlast, hcut⟩ := hcuts [_, _] _ _ rfl
    have hident : EndsInIdent [⟨[], ['('], .opening⟩, ⟨['('], ['i', 'd'], .word "id"⟩]
        ⟨['('], ['i', 'd'], .word "id"⟩ := ⟨[], _, "id", rfl, rfl, rfl, by decide +kernel⟩
    exact (hcut _ (hlast [_] _ rfl) dest).1 _ hident

end PonyLens.Dump
