import Mathlib.Data.List.Induction
import PonyLens.Proofs.Dump.Scanning

/-!
# What a text consists of

The pieces of a text, said without a scanner: blanks and comments, which count for nothing, and
parentheses, words and quoted texts. A word goes on until a character ends it, a comment until the
end of its line. A text is scanned completely exactly if it consists of such pieces, and then into
their tokens.
-/

namespace PonyLens.Dump

/-- A piece of a text and its tokens, if `next` is the character after it. -/
inductive Piece : List Char → List Token → Option Char → Prop
  | blank {c : Char} {next : Option Char} (hc : Text.isBlank c = true) : Piece [c] [] next
  | comment {body : List Char} {next : Option Char} (hbody : '\n' ∉ body)
    (hnext : ∀ c ∈ next, c = '\n') : Piece (';' :: body) [] next
  | opening {next : Option Char} : Piece ['('] [.opening] next
  | closing {next : Option Char} : Piece [')'] [.closing] next
  | word {w : String} {next : Option Char} (hw : IsWord w)
    (hnext : ∀ c ∈ next, Scanner.endsWord c = true) : Piece w.toList [.word w] next
  | quoted {body text : List Char} {next : Option Char} (h : Quotes body text) :
    Piece ('"' :: body ++ ['"']) [.quoted (String.ofList text)] next

theorem Piece.ne_nil {cs : List Char} {xs : List Token} {next : Option Char}
    (h : Piece cs xs next) : cs ≠ [] := by
  cases h with
  | word hw _ => exact fun hnil => hw.1 (String.toList_eq_nil_iff.mp hnil)
  | _ => simp

inductive Lexes : List Char → List Token → Prop
  | nil : Lexes [] []
  | piece {piece rest : List Char} {xs ys : List Token} (h : Piece piece xs rest.head?)
    (hrest : Lexes rest ys) : Lexes (piece ++ rest) (xs ++ ys)

namespace Scanner

/-- A scanner that is ready for a new piece, where `next` is the character that it meets. -/
structure Ready (s : Scanner) (ts : List Token) (next : Option Char) : Prop where
  mode_eq : s.mode = .between ∨
    (∃ start collected, s.mode = .word start collected ∧ ∀ c ∈ next, endsWord c = true) ∨
    s.mode = .comment ∧ ∀ c ∈ next, c = '\n'
  tokens_eq : s.flush.tokens = ts

variable {s : Scanner} {ts xs : List Token} {c : Char} {cs body : List Char} {next : Option Char}

theorem Between.ready (h : s.Between ts) (next : Option Char) : s.Ready ts next :=
  ⟨.inl h.mode_eq, h.past.tokens_eq⟩

theorem Past.ready (h : s.Past ts) (hnext : ∀ c ∈ next, endsWord c = true) : s.Ready ts next where
  mode_eq := by
    rcases h.mode_eq with hmode | ⟨start, collected, hmode⟩
    · exact .inl hmode
    · exact .inr (.inl ⟨start, collected, hmode, hnext⟩)
  tokens_eq := h.tokens_eq

/-- The scanner without the piece that it is inside of, which is recorded. -/
def settle (s : Scanner) : Scanner := { s.flush with mode := .between }

theorem settle_of_flush (h : s.flush.mode = .between) : s.settle = s.flush := by
  rw [settle, ← h]

theorem Ready.between_settle (h : s.Ready ts next) : s.settle.Between ts := ⟨rfl, h.tokens_eq⟩

/-- The character that a scanner meets ends the piece before, so that it could as well have been
recorded. -/
theorem Ready.feed_eq (h : s.Ready ts (some c)) : s.feed c = s.settle.feed c := by
  rcases h.mode_eq with hmode | ⟨start, collected, hmode, hends⟩ | ⟨hmode, hline⟩
  · have hflush : s.flush = s := flush_of_between hmode
    rw [settle_of_flush (by rw [hflush, hmode]), hflush]
  · have hflush : s.flush.mode = .between := by simp [flush, hmode, emit]
    have hends := hends c rfl
    rw [settle_of_flush hflush]
    simp [feed, take, hmode, hflush, hends]
  · obtain rfl : c = '\n' := hline c rfl
    have hblank : Text.isBlank '\n' = true := by decide
    simp [feed, take, settle, flush, hmode, begin_of_blank hblank]

theorem Ready.ending_eq (h : s.Ready ts next) : s.ending = .complete s.location := by
  rcases h.mode_eq with hmode | ⟨start, collected, hmode, _⟩ | ⟨hmode, _⟩
  all_goals rw [ending, hmode]

theorem foldl_feed_of_comment (hmode : s.mode = .comment) (hbody : '\n' ∉ body) :
    (body.foldl feed s).mode = .comment ∧ (body.foldl feed s).lexemes = s.lexemes := by
  induction body generalizing s with
  | nil => exact ⟨hmode, rfl⟩
  | cons c body ih =>
    rw [List.mem_cons, not_or] at hbody
    have hnext : (s.feed c).mode = .comment ∧ (s.feed c).lexemes = s.lexemes := by
      simp [feed, take, hmode, Ne.symm hbody.1]
    have hrest := ih hnext.1 hbody.2
    exact ⟨hrest.1, hrest.2.trans hnext.2⟩

theorem Between.ready_piece (h : s.Between ts) (hpiece : Piece cs xs next) :
    (cs.foldl feed s).Ready (ts ++ xs) next := by
  cases hpiece with
  | blank hc => simpa using (h.past.feed_blank hc).ready next
  | @comment body _ hbody hnext =>
    have hfirst : (s.feed ';').mode = .comment ∧ (s.feed ';').lexemes = s.lexemes := by
      simp [feed, take, h.mode_eq, begin, show Text.isBlank ';' = false by decide]
    have hrest := foldl_feed_of_comment hfirst.1 hbody
    refine ⟨.inr (.inr ⟨hrest.1, hnext⟩), ?_⟩
    rw [List.foldl_cons, flush, hrest.1, List.append_nil, ← h.tokens_eq]
    simp only [tokens, hrest.2, hfirst.2]
  | opening => exact h.past.feed_opening.ready next
  | closing => exact h.past.feed_closing.ready next
  | word hw hnext => exact (h.feed_word hw).ready hnext
  | quoted hquotes => exact (h.feed_quotes hquotes).ready next

theorem Ready.foldl_feed (h : s.Ready ts cs.head?) (hlexes : Lexes cs xs) :
    (cs.foldl feed s).Ready (ts ++ xs) none := by
  induction hlexes generalizing s ts with
  | nil => simpa using h
  | @piece piece rest xs ys hpiece _ ih =>
    obtain ⟨c, cs, rfl⟩ := List.exists_cons_of_ne_nil hpiece.ne_nil
    have hrest := ih (h.between_settle.ready_piece hpiece)
    rw [List.cons_append, List.foldl_cons, h.feed_eq, ← List.foldl_cons, ← List.cons_append,
      List.foldl_append, ← List.append_assoc]
    exact hrest

/-- What follows a quotation mark goes on after the closing one, or is never closed. -/
theorem exists_quotes_or (cs : List Char) :
    (∃ body text rest, Quotes body text ∧ cs = body ++ '"' :: rest) ∨
    ∀ (s : Scanner) start collected, s.mode = .quoted start collected →
      (cs.foldl feed s).ending = .unterminated start := by
  induction cs using List.twoStepInduction with
  | nil => exact .inr fun s start collected hmode => by rw [List.foldl_nil, ending, hmode]
  | singleton c =>
    by_cases hquote : c = '"'
    · exact .inl ⟨[], [], [], .nil, by rw [hquote]; rfl⟩
    · refine .inr fun s start collected hmode => ?_
      by_cases hslash : c = '\\' <;> simp [feed, take, hmode, hslash, ending]
  | cons_cons c d cs ih ihcons =>
    by_cases hquote : c = '"'
    · exact .inl ⟨[], [], d :: cs, .nil, by rw [hquote]; rfl⟩
    by_cases hslash : c = '\\'
    · subst hslash
      rcases ih with ⟨body, text, rest, hquotes, rfl⟩ | hopen
      · exact .inl ⟨_, _, rest, .escaped hquotes, rfl⟩
      · exact .inr fun s start collected hmode =>
          hopen _ start (Text.Quoted.decodeEscaped d :: collected) (by simp [take, hmode])
    · rcases ihcons d with ⟨body, text, rest, hquotes, heq⟩ | hopen
      · exact .inl ⟨_, _, rest, .plain hquote hslash hquotes, by rw [heq]; rfl⟩
      · exact .inr fun s start collected hmode =>
          hopen _ start (c :: collected) (by simp [take, hmode])

theorem eq_false_of_mem_dropWhile_head? {p : Char → Bool} (h : c ∈ (cs.dropWhile p).head?) :
    p c = false := by
  have hhead := List.head?_dropWhile_not p cs
  rwa [Option.mem_def.mp h] at hhead

/-- A text that is not over goes on with a piece, or with a quotation mark without a counterpart. -/
theorem exists_piece_or (c : Char) (cs : List Char) :
    (∃ piece xs rest, Piece piece xs (List.head? rest) ∧ c :: cs = piece ++ rest) ∨
    ∀ (s : Scanner) ts, s.Between ts →
      ((c :: cs).foldl feed s).ending = .unterminated s.location := by
  by_cases hends : endsWord c = true
  · simp only [endsWord, Bool.or_eq_true, beq_iff_eq] at hends
    rcases hends with (((hblank | rfl) | rfl) | rfl) | rfl
    · exact .inl ⟨[c], [], cs, .blank hblank, rfl⟩
    · exact .inl ⟨['('], _, cs, .opening, rfl⟩
    · exact .inl ⟨[')'], _, cs, .closing, rfl⟩
    · rcases exists_quotes_or cs with ⟨body, text, rest, hquotes, rfl⟩ | hopen
      · exact .inl ⟨_, _, rest, .quoted hquotes, by simp⟩
      · refine .inr fun s ts h => hopen _ _ [] ?_
        simp [take, h.mode_eq, begin, show Text.isBlank '"' = false by decide]
    · refine .inl ⟨';' :: cs.takeWhile (· != '\n'), [], cs.dropWhile (· != '\n'),
        .comment ?_ ?_, ?_⟩
      · intro hline
        simpa using List.mem_takeWhile_imp hline
      · intro d hd
        simpa using eq_false_of_mem_dropWhile_head? hd
      · rw [List.cons_append, List.takeWhile_append_dropWhile]
  · have hsplit := List.takeWhile_append_dropWhile (p := fun d => !endsWord d) (l := c :: cs)
    have hword : IsWord (String.ofList ((c :: cs).takeWhile fun d => !endsWord d)) := by
      refine ⟨by simp [hends], fun d hd => ?_⟩
      rw [String.toList_ofList] at hd
      simpa using List.mem_takeWhile_imp hd
    refine .inl ⟨_, _, (c :: cs).dropWhile fun d => !endsWord d, .word hword ?_, ?_⟩
    · intro d hd
      simpa using eq_false_of_mem_dropWhile_head? hd
    · rw [String.toList_ofList, hsplit]

theorem Ready.exists_lexes {place : Location} (h : s.Ready ts cs.head?)
    (hending : (cs.foldl feed s).ending = .complete place) : ∃ xs, Lexes cs xs := by
  induction hlength : cs.length using Nat.strong_induction_on generalizing cs s ts with
  | h n ih =>
    cases cs with
    | nil => exact ⟨[], .nil⟩
    | cons c cs =>
      rw [List.foldl_cons, h.feed_eq, ← List.foldl_cons] at hending
      rcases exists_piece_or c cs with ⟨piece, xs, rest, hpiece, heq⟩ | hopen
      · have hshort : rest.length < n := by
          have hpos := List.length_pos_of_ne_nil hpiece.ne_nil
          rw [← hlength, heq, List.length_append]
          omega
        rw [heq, List.foldl_append] at hending
        obtain ⟨ys, hrest⟩ := ih _ hshort (h.between_settle.ready_piece hpiece) hending rfl
        exact ⟨xs ++ ys, heq ▸ .piece hpiece hrest⟩
      · rw [hopen _ ts h.between_settle] at hending
        cases hending

end Scanner

theorem Lexes.unique {cs : List Char} {xs ys : List Token} (h : Lexes cs xs) (h' : Lexes cs ys) :
    xs = ys := by
  have hstart : ({} : Scanner).Ready [] cs.head? := Scanner.Between.ready ⟨rfl, rfl⟩ _
  exact (hstart.foldl_feed h).tokens_eq.symm.trans (hstart.foldl_feed h').tokens_eq

theorem lexes_iff {source : String} {xs : List Token} :
    Lexes source.toList xs ↔
      (∃ place, (scan source).2 = .complete place) ∧ (scan source).1.map Lexeme.token = xs := by
  have hstart : ({} : Scanner).Ready [] source.toList.head? := Scanner.Between.ready ⟨rfl, rfl⟩ _
  constructor
  · intro hlexes
    have hend := hstart.foldl_feed hlexes
    exact ⟨⟨_, hend.ending_eq⟩, hend.tokens_eq⟩
  · rintro ⟨⟨place, hending⟩, rfl⟩
    obtain ⟨xs, hlexes⟩ := hstart.exists_lexes hending
    have htokens : (scan source).1.map Lexeme.token = xs := (hstart.foldl_feed hlexes).tokens_eq
    rwa [htokens]

end PonyLens.Dump
