import PonyLens.Proofs.Dump.Lexing
import PonyLens.Proofs.Dump.Outline
import PonyLens.Proofs.Location

/-!
# Where the tokens of a text stand

A text is cut into pieces, and each token is kept with what is before it in the text and with the
characters that write it. The scanner counts lines and columns on its way, through words, quoted
texts and comments alike; the place that it gives to a token is the place of its first character.
-/

namespace PonyLens.Dump

/-- A token in a text: all that is before it, how it is written, and what it is. -/
structure Span where
  before : List Char
  spelling : List Char
  token : Token
deriving DecidableEq, Repr

namespace Span

def upTo (s : Span) : List Char := s.before ++ s.spelling

def place (s : Span) : Location := .past s.before

def lexeme (s : Span) : Lexeme := ⟨s.token, s.place⟩

end Span

/-- After `before`, a text goes on with pieces, and these are its tokens. -/
inductive Spans : List Char → List Char → List Span → Prop
  | nil {before : List Char} : Spans before [] []
  | gap {before piece rest : List Char} {ss : List Span} (h : Piece piece [] rest.head?)
    (hrest : Spans (before ++ piece) rest ss) : Spans before (piece ++ rest) ss
  | token {before piece rest : List Char} {x : Token} {ss : List Span}
    (h : Piece piece [x] rest.head?) (hrest : Spans (before ++ piece) rest ss) :
    Spans before (piece ++ rest) (⟨before, piece, x⟩ :: ss)

variable {before cs piece : List Char} {ss : List Span} {s : Span} {xs : List Token} {x : Token}
  {next : Option Char} {source : String}

theorem Piece.tokens_cases (h : Piece piece xs next) : xs = [] ∨ ∃ x, xs = [x] := by
  cases h with
  | blank | comment => exact .inl rfl
  | opening | closing | word | quoted => exact .inr ⟨_, rfl⟩

theorem Lexes.exists_spans (h : Lexes cs xs) (before : List Char) :
    ∃ ss, Spans before cs ss ∧ ss.map Span.token = xs := by
  induction h generalizing before with
  | nil => exact ⟨[], .nil, rfl⟩
  | piece hpiece _ ih =>
    obtain ⟨ss, hss, rfl⟩ := ih (before ++ _)
    rcases hpiece.tokens_cases with rfl | ⟨x, rfl⟩
    · exact ⟨ss, .gap hpiece hss, rfl⟩
    · exact ⟨_ :: ss, .token hpiece hss, rfl⟩

theorem Spans.lexes (h : Spans before cs ss) : Lexes cs (ss.map Span.token) := by
  induction h with
  | nil => exact .nil
  | gap hpiece _ ih => exact .piece hpiece ih
  | token hpiece _ ih => exact .piece hpiece ih

/-! ### The places that the scanner gives -/

namespace Scanner

variable {s : Scanner} {ts : List Token} {c : Char}

@[simp] theorem location_begin (s : Scanner) (c : Char) : (s.begin c).location = s.location := by
  unfold begin
  split
  · rfl
  · split <;> rfl

@[simp] theorem location_flush (s : Scanner) : s.flush.location = s.location := by
  rw [flush]
  split <;> rfl

@[simp] theorem location_take (s : Scanner) (c : Char) : (s.take c).location = s.location := by
  unfold take
  split
  · exact location_begin s c
  · split <;> rfl
  · split
    · rw [location_begin, location_flush]
    · rfl
  · split <;> rfl
  · rfl

theorem location_foldl_feed (cs : List Char) (s : Scanner) :
    (cs.foldl feed s).location = cs.foldl Location.after s.location := by
  induction cs generalizing s with
  | nil => rfl
  | cons c cs ih =>
    rw [List.foldl_cons, List.foldl_cons, ih, feed]
    dsimp only
    rw [location_take]

theorem Between.lexemes_piece (h : s.Between ts) (hpiece : Piece piece xs next) :
    (piece.foldl feed s).flush.lexemes.toList =
      s.lexemes.toList ++ xs.map fun x => ⟨x, s.location⟩ := by
  cases hpiece with
  | @blank c next hc =>
    simp [flush, take, h.mode_eq, begin_of_blank hc]
  | @comment body next hbody hnext =>
    have hfirst : (s.feed ';').mode = .comment ∧ (s.feed ';').lexemes = s.lexemes := by
      simp [take, h.mode_eq, begin, show Text.isBlank ';' = false by decide]
    have hrest := foldl_feed_of_comment hfirst.1 hbody
    rw [List.foldl_cons, flush, hrest.1, List.map_nil, List.append_nil]
    exact congrArg Array.toList (hrest.2.trans hfirst.2)
  | opening =>
    simp [flush, take, h.mode_eq, begin, show Text.isBlank '(' = false by decide, emit]
  | closing =>
    simp [flush, take, h.mode_eq, begin, show Text.isBlank ')' = false by decide, emit]
  | @word w next hw hnext =>
    rw [lexemes_flush_of_isWord h.mode_eq hw]
    simp
  | @quoted body text next hquotes =>
    obtain ⟨hmode, hlexemes⟩ := foldl_feed_of_quoted h.mode_eq hquotes
    rw [flush_of_between hmode, hlexemes]
    simp

/-- A piece after others is recorded, and the scanner stands past it. -/
theorem Ready.foldl_feed_piece {rest : List Char} (h : s.Ready ts (piece ++ rest).head?)
    (hlocation : s.location = .past before) (hpiece : Piece piece xs next) :
    (piece.foldl feed s).Ready (ts ++ xs) next ∧
      (piece.foldl feed s).location = .past (before ++ piece) ∧
      (piece.foldl feed s).flush.lexemes.toList =
        s.flush.lexemes.toList ++ xs.map fun x => ⟨x, .past before⟩ := by
  have hsettled : s.settle.location = .past before := (location_flush s).trans hlocation
  have hfold : piece.foldl feed s = piece.foldl feed s.settle := by
    obtain ⟨c, cs, rfl⟩ := List.exists_cons_of_ne_nil hpiece.ne_nil
    rw [List.foldl_cons, h.feed_eq, List.foldl_cons]
  rw [hfold]
  refine ⟨h.between_settle.ready_piece hpiece, ?_, ?_⟩
  · rw [location_foldl_feed, hsettled, Location.foldl_after]
  · rw [h.between_settle.lexemes_piece hpiece, hsettled]
    rfl

theorem Ready.foldl_feed_spans (h : s.Ready ts cs.head?) (hlocation : s.location = .past before)
    (hspans : Spans before cs ss) :
    (cs.foldl feed s).flush.lexemes.toList =
      s.flush.lexemes.toList ++ ss.map Span.lexeme := by
  induction hspans generalizing s ts with
  | nil => simp
  | gap hpiece _ ih =>
    obtain ⟨hready, hpast, hlexemes⟩ := h.foldl_feed_piece hlocation hpiece
    rw [List.foldl_append, ih hready hpast, hlexemes, List.map_nil, List.append_nil]
  | token hpiece _ ih =>
    obtain ⟨hready, hpast, hlexemes⟩ := h.foldl_feed_piece hlocation hpiece
    rw [List.foldl_append, ih hready hpast, hlexemes, List.append_assoc]
    rfl

end Scanner

/-- A text that consists of pieces is scanned as their tokens, each at the place where it starts,
and the scanner ends just past the text. -/
theorem Spans.scan_eq (h : Spans [] source.toList ss) :
    scan source = (ss.map Span.lexeme, .complete (.past source.toList)) := by
  have hstart : ({} : Scanner).Ready [] source.toList.head? := Scanner.Between.ready ⟨rfl, rfl⟩ _
  have hlocation : ({} : Scanner).location = .past [] := rfl
  have hlexemes := hstart.foldl_feed_spans hlocation h
  have hend := (hstart.foldl_feed h.lexes).ending_eq
  rw [Scanner.location_foldl_feed] at hend
  exact Prod.ext hlexemes (hend.trans (congrArg Ending.complete (Location.foldl_after [] _)))

theorem exists_spans {t : Tree} (h : treeOf? source = some t) :
    ∃ ss, Spans [] source.toList ss := by
  rw [treeOf?] at h
  split at h
  · rename_i place hending
    obtain ⟨ss, hss, _⟩ := (lexes_iff.mpr ⟨⟨place, hending⟩, rfl⟩).exists_spans []
    exact ⟨ss, hss⟩
  · cases h

/-! ### The order of the tokens -/

theorem Spans.prefix_before (h : Spans before cs ss) (hs : s ∈ ss) : before <+: s.before := by
  induction h with
  | nil => cases hs
  | gap _ _ ih => exact (List.prefix_append _ _).trans (ih hs)
  | token _ _ ih =>
    rcases List.mem_cons.mp hs with rfl | hs
    · exact List.prefix_refl _
    · exact (List.prefix_append _ _).trans (ih hs)

theorem Spans.upTo_prefix (h : Spans before cs ss) (hs : s ∈ ss) : s.upTo <+: before ++ cs := by
  induction h with
  | nil => cases hs
  | gap _ _ ih =>
    rw [← List.append_assoc]
    exact ih hs
  | token _ _ ih =>
    rw [← List.append_assoc]
    rcases List.mem_cons.mp hs with rfl | hs
    · exact List.prefix_append _ _
    · exact ih hs

theorem Spans.exists_piece (h : Spans before cs ss) (hs : s ∈ ss) :
    ∃ next, Piece s.spelling [s.token] next := by
  induction h with
  | nil => cases hs
  | gap _ _ ih => exact ih hs
  | token hpiece _ ih =>
    rcases List.mem_cons.mp hs with rfl | hs
    · exact ⟨_, hpiece⟩
    · exact ih hs

/-- A token is over before the next ones start. -/
theorem Spans.pairwise (h : Spans before cs ss) :
    ss.Pairwise fun s t => s.upTo <+: t.before := by
  induction h with
  | nil => exact .nil
  | gap _ _ ih => exact ih
  | token _ hrest ih => exact .cons (fun t ht => hrest.prefix_before ht) ih

theorem Spans.length_lt (h : Spans before cs ss) (hs : s ∈ ss) :
    s.before.length < s.upTo.length := by
  obtain ⟨next, hpiece⟩ := h.exists_piece hs
  have hpos := List.length_pos_of_ne_nil hpiece.ne_nil
  rw [Span.upTo, List.length_append]
  omega

theorem Spans.pairwise_isBefore (h : Spans before cs ss) :
    ss.Pairwise fun s t => s.place.isBefore t.place = true := by
  refine h.pairwise.imp_of_mem fun hs _ hst => ?_
  have hlt := h.length_lt hs
  refine Location.isBefore_past_of_prefix ((List.prefix_append _ _).trans hst) ?_
  exact Nat.lt_of_lt_of_le hlt hst.length_le

/-- In a text of fewer characters than a word counts, the places of the tokens are words. -/
theorem Spans.place_le (h : Spans before cs ss) (hs : s ∈ ss)
    (hlength : (before ++ cs).length ≤ Word.max) :
    s.place.line ≤ Word.max ∧ s.place.column ≤ Word.max := by
  have hlt := h.length_lt hs
  have hle := (h.upTo_prefix hs).length_le
  have hline := Location.line_past_le s.before
  have hcolumn := Location.column_past_le s.before
  rw [Span.place]
  omega

end PonyLens.Dump
