import PonyLens.Proofs.Dump.Spelling

/-!
# Scanning printed trees

A word ends only when the character after it is seen. So a scanner may still be inside of a word
when a printed tree is over, but what follows a tree in a larger one always ends words: a blank, a
line break or a parenthesis. The blanks between the tokens do not matter, and both layouts of a tree
are scanned as the same tokens.
-/

namespace PonyLens

namespace Dump

/-- What stands between quotation marks, and the text that it means. -/
inductive Quotes : List Char → List Char → Prop
  | nil : Quotes [] []
  | plain {c : Char} {body text : List Char} (hquote : c ≠ '"') (hslash : c ≠ '\\')
    (h : Quotes body text) : Quotes (c :: body) (c :: text)
  | escaped {c : Char} {body text : List Char} (h : Quotes body text) :
    Quotes ('\\' :: c :: body) (Text.Quoted.decodeEscaped c :: text)

theorem quotes_encode (cs : List Char) : Quotes (cs.flatMap Text.Quoted.encodeChar) cs := by
  induction cs with
  | nil => exact .nil
  | cons c cs ih =>
    rw [List.flatMap_cons]
    unfold Text.Quoted.encodeChar
    split
    · exact .escaped (c := '"') ih
    · exact .escaped (c := '\\') ih
    · exact .escaped (c := 'n') ih
    · exact .escaped (c := 't') ih
    · rename_i hquote hslash _ _
      exact .plain hquote hslash ih

namespace Scanner

def tokens (s : Scanner) : List Token := s.lexemes.toList.map Lexeme.token

/-- A scanner that stands between tokens and has recorded these. -/
structure Between (s : Scanner) (ts : List Token) : Prop where
  mode_eq : s.mode = .between
  tokens_eq : s.tokens = ts

/-- A scanner that stands between tokens, or in a last word, and will have recorded these. -/
structure Past (s : Scanner) (ts : List Token) : Prop where
  mode_eq : s.mode = .between ∨ ∃ start collected, s.mode = .word start collected
  tokens_eq : s.flush.tokens = ts

variable {s : Scanner} {ts : List Token} {c : Char} {cs : List Char}

@[simp] theorem tokens_emit (s : Scanner) (x : Token) (start : Location) :
    (s.emit x start).tokens = s.tokens ++ [x] := by
  simp [emit, tokens]

@[simp] theorem tokens_mk (s : Scanner) (location : Location) (mode : Mode) :
    tokens ⟨location, mode, s.lexemes⟩ = s.tokens := rfl

theorem flush_of_between (h : s.mode = .between) : s.flush = s := by
  simp [flush, h]

theorem Between.past (h : s.Between ts) : s.Past ts :=
  ⟨.inl h.mode_eq, by rw [flush_of_between h.mode_eq, h.tokens_eq]⟩

theorem Past.ending_eq (h : s.Past ts) : ∃ place, s.ending = .complete place := by
  rcases h.mode_eq with hmode | ⟨start, collected, hmode⟩
  · exact ⟨s.location, by rw [ending, hmode]⟩
  · exact ⟨s.location, by rw [ending, hmode]⟩

/-- A character that ends words is taken as if the last word were recorded. -/
theorem Past.take_eq (h : s.Past ts) (hc : endsWord c = true) :
    ∃ s' : Scanner, s'.Between ts ∧ s.take c = s'.begin c := by
  rcases h.mode_eq with hmode | ⟨start, collected, hmode⟩
  · refine ⟨s, ⟨hmode, ?_⟩, by simp [take, hmode]⟩
    rw [← h.tokens_eq, flush_of_between hmode]
  · refine ⟨s.flush, ⟨by simp [flush, hmode, emit], h.tokens_eq⟩, ?_⟩
    simp [take, hmode, hc]

@[simp] theorem mode_feed (s : Scanner) (c : Char) : (s.feed c).mode = (s.take c).mode := rfl

@[simp] theorem lexemes_feed (s : Scanner) (c : Char) : (s.feed c).lexemes = (s.take c).lexemes :=
  rfl

@[simp] theorem tokens_feed (s : Scanner) (c : Char) : (s.feed c).tokens = (s.take c).tokens := rfl

theorem begin_of_blank (hc : Text.isBlank c = true) : s.begin c = { s with mode := .between } := by
  simp only [begin, hc, if_true]

theorem Past.feed_blank (h : s.Past ts) (hc : Text.isBlank c = true) : (s.feed c).Between ts := by
  obtain ⟨s', hs', htake⟩ := h.take_eq (c := c) (by simp [endsWord, hc])
  rw [begin_of_blank hc] at htake
  exact ⟨by rw [mode_feed, htake], by rw [tokens_feed, htake]; exact hs'.tokens_eq⟩

theorem Past.foldl_feed_blank (h : s.Past ts) (hne : cs ≠ [])
    (hcs : ∀ c ∈ cs, Text.isBlank c = true) : (cs.foldl feed s).Between ts := by
  induction cs generalizing s with
  | nil => exact absurd rfl hne
  | cons c cs ih =>
    have hfirst := h.feed_blank (hcs c List.mem_cons_self)
    rcases cs with - | ⟨d, cs⟩
    · exact hfirst
    · exact ih hfirst.past (by simp) fun e he => hcs e (List.mem_cons_of_mem c he)

theorem Past.feed_opening (h : s.Past ts) : (s.feed '(').Between (ts ++ [.opening]) := by
  obtain ⟨s', hs', htake⟩ := h.take_eq (c := '(') (by decide)
  have hbegin : s'.begin '(' = s'.emit .opening s'.location := by
    simp [begin, show Text.isBlank '(' = false by decide]
  rw [hbegin] at htake
  exact ⟨by rw [mode_feed, htake, emit], by rw [tokens_feed, htake, tokens_emit, hs'.tokens_eq]⟩

theorem Past.feed_closing (h : s.Past ts) : (s.feed ')').Between (ts ++ [.closing]) := by
  obtain ⟨s', hs', htake⟩ := h.take_eq (c := ')') (by decide)
  have hbegin : s'.begin ')' = s'.emit .closing s'.location := by
    simp [begin, show Text.isBlank ')' = false by decide]
  rw [hbegin] at htake
  exact ⟨by rw [mode_feed, htake, emit], by rw [tokens_feed, htake, tokens_emit, hs'.tokens_eq]⟩

theorem foldl_feed_of_word {start : Location} {collected : List Char}
    (hmode : s.mode = .word start collected) (hcs : ∀ c ∈ cs, endsWord c = false) :
    (cs.foldl feed s).mode = .word start (cs.reverse ++ collected) ∧
      (cs.foldl feed s).lexemes = s.lexemes := by
  induction cs generalizing s collected with
  | nil => exact ⟨hmode, rfl⟩
  | cons c cs ih =>
    have hc : endsWord c = false := hcs c List.mem_cons_self
    have hnext : (s.feed c).mode = .word start (c :: collected) ∧
        (s.feed c).lexemes = s.lexemes := by
      simp [feed, take, hmode, hc]
    have hrest := ih hnext.1 fun d hd => hcs d (List.mem_cons_of_mem c hd)
    rw [List.foldl_cons, List.reverse_cons, List.append_assoc]
    exact ⟨hrest.1, hrest.2.trans hnext.2⟩

theorem begin_of_word (hc : endsWord c = false) :
    s.begin c = { s with mode := .word s.location [c] } := by
  simp only [endsWord, Bool.or_eq_false_iff, beq_eq_false_iff_ne] at hc
  obtain ⟨⟨⟨⟨hblank, hopen⟩, hclose⟩, hquote⟩, hsemi⟩ := hc
  simp only [begin, hblank, Bool.false_eq_true, if_false]

theorem foldl_feed_of_isWord {w : String} (hmode : s.mode = .between) (hw : IsWord w) :
    (w.toList.foldl feed s).mode = .word s.location w.toList.reverse ∧
      (w.toList.foldl feed s).lexemes = s.lexemes := by
  obtain ⟨hne, hcs⟩ := hw
  rcases hlist : w.toList with - | ⟨c, cs⟩
  · exact absurd (String.toList_eq_nil_iff.mp hlist) hne
  · rw [hlist] at hcs
    have hfirst : (s.feed c).mode = .word s.location [c] ∧ (s.feed c).lexemes = s.lexemes := by
      simp [take, hmode, begin_of_word (hcs c List.mem_cons_self)]
    have hrest := foldl_feed_of_word hfirst.1 fun d hd => hcs d (List.mem_cons_of_mem c hd)
    rw [List.foldl_cons, List.reverse_cons]
    exact ⟨hrest.1, hrest.2.trans hfirst.2⟩

/-- A word is recorded at the place of its first character. -/
theorem lexemes_flush_of_isWord {w : String} (hmode : s.mode = .between) (hw : IsWord w) :
    (w.toList.foldl feed s).flush.lexemes = s.lexemes.push ⟨.word w, s.location⟩ := by
  obtain ⟨hword, hlexemes⟩ := foldl_feed_of_isWord hmode hw
  rw [flush, hword]
  simp [emit, hlexemes]

theorem Between.feed_word {w : String} (h : s.Between ts) (hw : IsWord w) :
    (w.toList.foldl feed s).Past (ts ++ [.word w]) := by
  obtain ⟨hword, _⟩ := foldl_feed_of_isWord h.mode_eq hw
  refine ⟨.inr ⟨_, _, hword⟩, ?_⟩
  rw [tokens, lexemes_flush_of_isWord h.mode_eq hw, ← h.tokens_eq, tokens]
  simp

theorem foldl_feed_of_quotes {start : Location} {collected body text : List Char}
    (hmode : s.mode = .quoted start collected) (h : Quotes body text) :
    (body.foldl feed s).mode = .quoted start (text.reverse ++ collected) ∧
      (body.foldl feed s).lexemes = s.lexemes := by
  induction h generalizing s collected with
  | nil => exact ⟨hmode, rfl⟩
  | @plain c body text hquote hslash h ih =>
    have hnext : (s.feed c).mode = .quoted start (c :: collected) ∧
        (s.feed c).lexemes = s.lexemes := by
      simp [take, hmode]
    have hrest := ih hnext.1
    rw [List.foldl_cons, List.reverse_cons, List.append_assoc]
    exact ⟨hrest.1, hrest.2.trans hnext.2⟩
  | @escaped c body text h ih =>
    have hnext : ((s.feed '\\').feed c).mode =
          .quoted start (Text.Quoted.decodeEscaped c :: collected) ∧
        ((s.feed '\\').feed c).lexemes = s.lexemes := by
      simp [take, hmode]
    have hrest := ih hnext.1
    rw [List.foldl_cons, List.foldl_cons, List.reverse_cons, List.append_assoc]
    exact ⟨hrest.1, hrest.2.trans hnext.2⟩

/-- A quoted text is recorded at the place of its first quotation mark. -/
theorem foldl_feed_of_quoted {body text : List Char} (hmode : s.mode = .between)
    (hquotes : Quotes body text) :
    (('"' :: body ++ ['"']).foldl feed s).mode = .between ∧
      (('"' :: body ++ ['"']).foldl feed s).lexemes =
        s.lexemes.push ⟨.quoted (String.ofList text), s.location⟩ := by
  have hfirst : (s.feed '"').mode = .quoted s.location [] ∧ (s.feed '"').lexemes = s.lexemes := by
    have hbegin : s.begin '"' = { s with mode := .quoted s.location [] } := by
      simp [begin, show Text.isBlank '"' = false by decide]
    simp [take, hmode, hbegin]
  have hrest := foldl_feed_of_quotes hfirst.1 hquotes
  rw [hfirst.2] at hrest
  rw [List.cons_append, List.foldl_cons, List.foldl_append, List.foldl_cons, List.foldl_nil]
  exact ⟨by simp [take, hrest.1, emit], by simp [take, hrest.1, hrest.2, emit]⟩

theorem Between.feed_quotes {body text : List Char} (h : s.Between ts)
    (hquotes : Quotes body text) :
    (('"' :: body ++ ['"']).foldl feed s).Between (ts ++ [.quoted (String.ofList text)]) := by
  obtain ⟨hmode, hlexemes⟩ := foldl_feed_of_quoted h.mode_eq hquotes
  refine ⟨hmode, ?_⟩
  rw [tokens, hlexemes, ← h.tokens_eq, tokens]
  simp

theorem Between.feed_quoted (h : s.Between ts) (text : String) :
    ((Text.Quoted.encode text).toList.foldl feed s).Between (ts ++ [.quoted text]) := by
  have hquotes := h.feed_quotes (quotes_encode text.toList)
  rw [String.ofList_toList] at hquotes
  rwa [Text.Quoted.encode, String.toList_ofList]

end Scanner

end Dump

open Dump Dump.Scanner

namespace Tree

def WritesWords : Tree → Prop
  | .node kind text children =>
    match kind with
    | .ident => IsWord text
    | .intLit | .floatLit => children = [] → IsWord text
    | .other => text = "" ∨ IsWord text
    | _ => True

def Scans (cs : List Char) (xs : List Token) : Prop :=
  ∀ ⦃s : Scanner⦄ ⦃ts : List Token⦄, s.Between ts → (cs.foldl Scanner.feed s).Past (ts ++ xs)

variable {kind : Kind} {text : String} {children : List Tree} {t : Tree} {cs sep : List Char}
  {xs : List Token} {print : Tree → List Char}

theorem scans_word {w : String} (hw : IsWord w) : Scans w.toList [.word w] :=
  fun _ _ h => h.feed_word hw

theorem scans_quoted (text : String) : Scans (Text.Quoted.encode text).toList [.quoted text] :=
  fun _ _ h => (h.feed_quoted text).past

theorem Scans.blank {ys : List Token} {ds : List Char} (hcs : Scans cs xs) (hds : Scans ds ys) :
    Scans (cs ++ ' ' :: ds) (xs ++ ys) := by
  intro s ts h
  rw [List.foldl_append, List.foldl_cons, ← List.append_assoc]
  exact hds ((hcs h).feed_blank (by decide))

theorem scans_head (h : WritesWords (.node kind text children)) :
    Scans (head kind text).toList (headTokens kind text) := by
  cases kind.form with
  | name =>
    have hid : Scans (Kind.ident.token ++ " " ++ text).toList
        [.word Kind.ident.token, .word text] := by
      rw [String.toList_append, String.toList_append, List.append_assoc]
      exact (scans_word Kind.ident.isWord_token).blank (scans_word h)
    exact hid
  | string => exact scans_word (Kind.isWord_token .stringLit)
  | number hkind =>
    rw [head_number hkind, headTokens_number hkind]
    exact scans_word kind.isWord_token
  | file hkind =>
    rw [head_file hkind, headTokens_file hkind]
    by_cases htext : text = ""
    · simpa [htext] using scans_word kind.isWord_token
    · simp only [htext, String.isEmpty_iff, if_false]
      rw [String.toList_append, String.toList_append, List.append_assoc]
      exact (scans_word kind.isWord_token).blank (scans_quoted text)
  | other =>
    by_cases htext : text = ""
    · simpa [head, headTokens, htext] using scans_word (Kind.isWord_token .other)
    · simpa [head, headTokens, htext] using scans_word (h.resolve_left htext)
  | plain hplain =>
    rw [head_plain hplain, headTokens_plain hplain]
    exact scans_word kind.isWord_token

theorem Scans.parens {ds : List Char} {ys : List Token} (hcs : Scans cs xs)
    (hds : ∀ ⦃s : Scanner⦄ ⦃ts : List Token⦄, s.Past ts →
      (ds.foldl Scanner.feed s).Past (ts ++ ys)) :
    Scans ('(' :: cs ++ ds ++ [')']) (.opening :: xs ++ ys ++ [.closing]) := by
  intro s ts h
  have hopening := hcs h.past.feed_opening
  have hclosing := (hds hopening).feed_closing.past
  rw [List.append_assoc, List.cons_append, List.foldl_cons, List.foldl_append, List.foldl_append]
  simpa using hclosing

theorem Scans.parens_nil (hcs : Scans cs xs) :
    Scans ('(' :: cs ++ [')']) (.opening :: xs ++ [.closing]) := by
  have hnil : ∀ ⦃s : Scanner⦄ ⦃ts : List Token⦄, s.Past ts →
      (([] : List Char).foldl Scanner.feed s).Past (ts ++ []) := by
    intro s ts h
    rw [List.append_nil]
    exact h
  simpa using hcs.parens hnil

theorem scans_leaf (h : WritesWords (.node kind text [])) :
    Scans (leaf kind text).toList (leafTokens kind text) := by
  have hparens : Scans ("(" ++ head kind text ++ ")").toList
      (.opening :: headTokens kind text ++ [.closing]) := by
    rw [String.toList_append, String.toList_append]
    exact (scans_head h).parens_nil
  cases kind.form with
  | name => exact hparens
  | string => exact scans_quoted text
  | number hkind =>
    rw [leaf_number hkind, leafTokens_number hkind]
    rcases hkind with rfl | rfl <;> exact scans_word (h rfl)
  | file hkind =>
    rw [leaf_file hkind, leafTokens_file hkind]
    exact hparens
  | other => exact scans_head h
  | plain hplain =>
    rw [leaf_plain hplain, leafTokens_plain hplain]
    split
    · exact scans_word kind.isWord_token
    · exact hparens

theorem past_foldl_children {s : Scanner} {ts : List Token} (hs : s.Past ts)
    (hsep : sep ≠ []) (hblank : ∀ c ∈ sep, Text.isBlank c = true)
    (h : ∀ t ∈ children, Scans (print t) t.spell) :
    ((children.flatMap fun t => sep ++ print t).foldl Scanner.feed s).Past
      (ts ++ spellAll children) := by
  induction children generalizing s ts with
  | nil => simpa [spellAll] using hs
  | cons t children ih =>
    have hbetween := hs.foldl_feed_blank hsep hblank
    have hfirst := h t List.mem_cons_self hbetween
    have hrest := ih hfirst fun u hu => h u (List.mem_cons_of_mem t hu)
    rw [List.flatMap_cons, List.foldl_append, List.foldl_append, spellAll, ← List.append_assoc]
    exact hrest

theorem toList_node (head children : String) :
    ("(" ++ head ++ children ++ ")").toList =
      '(' :: head.toList ++ children.toList ++ [')'] := by
  simp

theorem toList_flatAll (children : List Tree) :
    (flatAll children).toList = children.flatMap fun t => [' '] ++ (flat t).toList := by
  induction children with
  | nil => rfl
  | cons t children ih => simp [flatAll, ih]

theorem toList_layoutAll (width indent : Nat) (children : List Tree) :
    (layoutAll width indent children).toList =
      children.flatMap fun t => (newLine indent).toList ++ (layout width indent t).toList := by
  induction children with
  | nil => rfl
  | cons t children ih => simp [layoutAll, ih]

theorem scans_flat (h : t.Everywhere WritesWords) : Scans (flat t).toList t.spell := by
  induction t using Tree.induct with
  | node kind text children ih =>
    rw [everywhere_node] at h
    rcases children with - | ⟨child, children⟩
    · exact scans_leaf h.1
    · have hblank : ∀ c ∈ [' '], Text.isBlank c = true := by
        simp only [List.mem_singleton, forall_eq]
        decide
      have hchildren := (scans_head h.1).parens fun s ts hs =>
        past_foldl_children hs (by simp) hblank fun t ht => ih t ht (h.2 t ht)
      rw [flat, spell, toList_node, toList_flatAll]
      exact hchildren

/-- Both layouts of a tree are scanned as its tokens. -/
theorem scans_layout (h : t.Everywhere WritesWords) (width indent : Nat) :
    Scans (layout width indent t).toList t.spell := by
  induction t using Tree.induct generalizing indent with
  | node kind text children ih =>
    rcases children with - | ⟨child, children⟩
    · have hleaf : layout width indent (.node kind text []) = flat (.node kind text []) := rfl
      rw [hleaf]
      exact scans_flat h
    · rw [layout]
      split
      · exact scans_flat h
      · rw [everywhere_node] at h
        have hne : (newLine (indent + 2)).toList ≠ [] := by simp [newLine]
        have hblank : ∀ c ∈ (newLine (indent + 2)).toList, Text.isBlank c = true := by
          simp [newLine]
          decide
        have hchildren := (scans_head h.1).parens fun s ts hs =>
          past_foldl_children hs hne hblank fun t ht => ih t ht (h.2 t ht) (indent + 2)
        rw [spell, toList_node, toList_layoutAll]
        exact hchildren

theorem scan_layout (h : t.Everywhere WritesWords) (width : Nat) :
    ∃ place, (scan (layout width 0 t)).1.map Lexeme.token = t.spell ∧
      (scan (layout width 0 t)).2 = .complete place := by
  have hstart : ({} : Scanner).Between [] := ⟨rfl, rfl⟩
  have hpast := scans_layout h width 0 hstart
  obtain ⟨place, hending⟩ := hpast.ending_eq
  exact ⟨place, hpast.tokens_eq, hending⟩

end Tree

end PonyLens
