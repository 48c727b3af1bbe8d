import PonyLens.Proofs.Dump.Scanning

/-!
# What texts weigh

The weight of a text counts its characters but for those that a dump has between its words. A line
break and a tab count double, like the two characters that stand for them between quotes. So a
tree weighs as much as the texts of its nodes do, and the tokens of a text never weigh more than the
text.
-/

namespace PonyLens

namespace Dump

def charWeight (c : Char) : Nat :=
  if c = ' ' ∨ c = '(' ∨ c = ')' then 0 else if c = '\n' ∨ c = '\t' then 2 else 1

def weight : List Char → Nat
  | [] => 0
  | c :: cs => charWeight c + weight cs

/-- The weight of the characters that write a token at least. -/
def Token.weight : Token → Nat
  | .opening | .closing => 0
  | .word w => Dump.weight w.toList
  | .quoted s => Dump.weight (Text.Quoted.encode s).toList

def Token.weightAll : List Token → Nat
  | [] => 0
  | x :: xs => x.weight + weightAll xs

variable {cs ds : List Char} {c : Char} {s w : String}

@[simp] theorem weight_nil : weight [] = 0 := rfl

@[simp] theorem weight_cons (c : Char) (cs : List Char) :
    weight (c :: cs) = charWeight c + weight cs := rfl

@[simp] theorem weight_append (cs ds : List Char) : weight (cs ++ ds) = weight cs + weight ds := by
  induction cs with
  | nil => simp
  | cons c cs ih => simp [ih, Nat.add_assoc]

@[simp] theorem Token.weightAll_append (xs ys : List Token) :
    weightAll (xs ++ ys) = weightAll xs + weightAll ys := by
  induction xs with
  | nil => simp [weightAll]
  | cons x xs ih => simp [weightAll, ih, Nat.add_assoc]

@[simp] theorem weight_reverse (cs : List Char) : weight cs.reverse = weight cs := by
  induction cs with
  | nil => rfl
  | cons c cs ih => simp [ih, Nat.add_comm]

theorem one_le_charWeight (h : Scanner.endsWord c = false) : 1 ≤ charWeight c := by
  have hne : ¬ (c = ' ' ∨ c = '(' ∨ c = ')') := by
    rintro (rfl | rfl | rfl) <;> cases h
  rw [charWeight, if_neg hne]
  split <;> decide

theorem length_le_weight (h : ∀ c ∈ cs, Scanner.endsWord c = false) : cs.length ≤ weight cs := by
  induction cs with
  | nil => simp
  | cons c cs ih =>
    have hc := one_le_charWeight (h c List.mem_cons_self)
    have hcs := ih fun d hd => h d (List.mem_cons_of_mem c hd)
    simp only [List.length_cons, weight_cons]
    omega

theorem IsWord.one_le_weight (h : IsWord s) : 1 ≤ weight s.toList := by
  have hlength := length_le_weight h.2
  have hpos : 0 < s.toList.length := List.length_pos_iff.mpr fun hnil =>
    h.1 (String.toList_eq_nil_iff.mp hnil)
  omega

theorem weight_unplaced (h : IsWord w) :
    unplaced w = w ∨ weight (unplaced w).toList < weight w.toList := by
  rcases unplaced_eq_or w with heq | ⟨_, place, hne, happend⟩
  · exact .inl heq
  · have hplace : place.length ≤ weight place :=
      length_le_weight fun c hc => h.2 c (happend ▸ List.mem_append_right _ hc)
    have hpos : 0 < place.length := List.length_pos_iff.mpr hne
    rw [happend, weight_append]
    omega

theorem weight_unplaced_le (h : IsWord w) : weight (unplaced w).toList ≤ weight w.toList := by
  rcases weight_unplaced h with heq | hlt
  · rw [heq]
  · exact Nat.le_of_lt hlt

/-- A word that stands for a kind weighs no less than the token of the kind. -/
theorem weight_token_le {kind : Kind} (h : Kind.ofWord? w = some kind) :
    weight kind.token.toList ≤ weight w.toList := by
  have htoken : kind.token = Kind.dropScope w := by
    have := List.find?_some h
    simpa using this
  rw [htoken, Kind.dropScope]
  split
  · rw [String.toList_ofList]
    conv_rhs => rw [← List.take_append_drop (w.toList.length - Kind.scopeEnding.length) w.toList]
    rw [weight_append]
    omega
  · exact Nat.le_refl _

def quotedWeight (cs : List Char) : Nat := weight (cs.flatMap Text.Quoted.encodeChar)

@[simp] theorem quotedWeight_cons (c : Char) (cs : List Char) :
    quotedWeight (c :: cs) = weight (Text.Quoted.encodeChar c) + quotedWeight cs := by
  simp [quotedWeight]

@[simp] theorem quotedWeight_reverse (cs : List Char) :
    quotedWeight cs.reverse = quotedWeight cs := by
  induction cs with
  | nil => rfl
  | cons c cs ih =>
    rw [quotedWeight] at ih
    rw [quotedWeight, List.reverse_cons, List.flatMap_append, weight_append, ih]
    simp [Nat.add_comm]

theorem weight_encode (s : String) :
    weight (Text.Quoted.encode s).toList = quotedWeight s.toList + 2 := by
  rw [Text.Quoted.encode, String.toList_ofList]
  simp only [List.cons_append, weight_cons, weight_append, weight_nil, quotedWeight]
  have hquote : charWeight '"' = 1 := by decide
  omega

theorem charWeight_le (c : Char) : charWeight c ≤ weight (Text.Quoted.encodeChar c) := by
  unfold Text.Quoted.encodeChar
  split <;> simp [charWeight]

theorem weight_lt_encode (s : String) :
    weight s.toList + 2 ≤ weight (Text.Quoted.encode s).toList := by
  have hchars (cs : List Char) : weight cs ≤ quotedWeight cs := by
    induction cs with
    | nil => simp
    | cons c cs ih =>
      have hc := charWeight_le c
      rw [quotedWeight_cons, weight_cons]
      omega
  have hs := hchars s.toList
  rw [weight_encode]
  omega

/-- A character that stands for itself between quotes weighs no more there. -/
theorem weight_encodeChar_le (hquote : c ≠ '"') (hslash : c ≠ '\\') :
    weight (Text.Quoted.encodeChar c) ≤ charWeight c := by
  unfold Text.Quoted.encodeChar
  split
  · exact absurd rfl hquote
  · exact absurd rfl hslash
  · decide
  · decide
  · simp

theorem weight_decodeEscaped_le (c : Char) :
    weight (Text.Quoted.encodeChar (Text.Quoted.decodeEscaped c)) ≤ charWeight c + 1 := by
  unfold Text.Quoted.decodeEscaped
  split
  · decide
  · decide
  · by_cases hquote : c = '"'
    · rw [hquote]; decide
    · by_cases hslash : c = '\\'
      · rw [hslash]; decide
      · exact Nat.le_succ_of_le (weight_encodeChar_le hquote hslash)

/-! ### Scanning -/

namespace Scanner

/-- The weight of what has been read of the token that is being read. -/
def Mode.weight : Mode → Nat
  | .between | .comment => 0
  | .word _ collected => Dump.weight collected
  | .quoted _ collected => quotedWeight collected + 1
  | .escaped _ collected => quotedWeight collected + 2

@[simp] theorem Mode.weight_between : Mode.between.weight = 0 := rfl

@[simp] theorem Mode.weight_comment : Mode.comment.weight = 0 := rfl

@[simp] theorem Mode.weight_word (start : Location) (cs : List Char) :
    (Mode.word start cs).weight = Dump.weight cs := rfl

@[simp] theorem Mode.weight_quoted (start : Location) (cs : List Char) :
    (Mode.quoted start cs).weight = quotedWeight cs + 1 := rfl

@[simp] theorem Mode.weight_escaped (start : Location) (cs : List Char) :
    (Mode.escaped start cs).weight = quotedWeight cs + 2 := rfl

structure Weighed (s : Scanner) (n : Nat) : Prop where
  isWord : ∀ w, .word w ∈ s.tokens → IsWord w
  collected : ∀ start cs, s.mode = .word start cs → cs ≠ [] ∧ ∀ c ∈ cs, endsWord c = false
  weight_le : Token.weightAll s.tokens + s.mode.weight ≤ n

variable {s : Scanner} {n m : Nat} {c : Char} {cs : List Char} {mode : Mode}

theorem Weighed.setMode (h : s.Weighed n)
    (hcollected : ∀ start cs, mode = .word start cs → cs ≠ [] ∧ ∀ c ∈ cs, endsWord c = false)
    (hle : n + mode.weight ≤ m + s.mode.weight) : Weighed { s with mode } m where
  isWord := h.isWord
  collected := hcollected
  weight_le := by
    have hsum := h.weight_le
    rw [tokens_mk]
    dsimp only
    omega

theorem Weighed.emit (h : s.Weighed n) {x : Token} (hx : ∀ w, x = .word w → IsWord w)
    (hle : n + x.weight ≤ m + s.mode.weight) (start : Location) : (s.emit x start).Weighed m where
  isWord w hw := by
    rw [tokens_emit, List.mem_append, List.mem_singleton] at hw
    rcases hw with hw | hw
    · exact h.isWord w hw
    · exact hx w hw.symm
  collected _ _ hmode := by cases hmode
  weight_le := by
    have hsum := h.weight_le
    have hmode : (s.emit x start).mode.weight = 0 := rfl
    rw [tokens_emit, hmode, Token.weightAll_append, Token.weightAll, Token.weightAll]
    omega

theorem Weighed.flush (h : s.Weighed n) : s.flush.Weighed n := by
  rw [Scanner.flush]
  split
  · rename_i start collected hmode
    obtain ⟨hne, hcs⟩ := h.collected start collected hmode
    refine h.emit ?_ ?_ start
    · rintro w hw
      cases hw
      exact ⟨by simpa using hne, by simpa using hcs⟩
    · simp [Token.weight, hmode, Mode.weight]
  · exact h

/-- What starts with a character weighs no more than the character. -/
theorem Weighed.begin (h : s.Weighed n) (hmode : s.mode = .between) (c : Char) :
    (s.begin c).Weighed (n + charWeight c) := by
  have hzero : s.mode.weight = 0 := by rw [hmode, Mode.weight_between]
  by_cases hblank : Text.isBlank c = true
  · rw [begin_of_blank hblank]
    exact h.setMode (by simp) (by simp [hzero])
  · by_cases hword : endsWord c = false
    · rw [begin_of_word hword]
      refine h.setMode ?_ (by simp [hzero])
      rintro start cs heq
      cases heq
      exact ⟨by simp, by simpa using hword⟩
    · unfold Scanner.begin
      rw [if_neg hblank]
      split
      · exact h.setMode (by simp) (by simp [hzero])
      · exact h.emit (by simp) (by simp [Token.weight, hzero]) s.location
      · exact h.emit (by simp) (by simp [Token.weight, hzero]) s.location
      · have hquote : charWeight '"' = 1 := by decide
        exact h.setMode (by simp) (by simp [hzero, hquote, quotedWeight])
      · exact absurd (by simp_all [endsWord]) hword

theorem Weighed.take (h : s.Weighed n) (c : Char) : (s.take c).Weighed (n + charWeight c) := by
  have hsame : s.Weighed (n + charWeight c) :=
    ⟨h.isWord, h.collected, Nat.le_add_right_of_le h.weight_le⟩
  unfold Scanner.take
  split
  · exact h.begin ‹_› c
  · rename_i hmode
    split
    · exact h.setMode (by simp) (by simp [hmode])
    · exact hsame
  · rename_i start cs hmode
    split
    · exact h.flush.begin (by simp [Scanner.flush, hmode, Scanner.emit]) c
    · rename_i hc
      obtain ⟨_, hcs⟩ := h.collected start cs hmode
      refine h.setMode ?_ (by simp [hmode]; omega)
      rintro start' cs' heq
      cases heq
      exact ⟨by simp, List.forall_mem_cons.mpr ⟨by simpa using hc, hcs⟩⟩
  · rename_i start cs hmode
    split
    · have hquote : charWeight '"' = 1 := by decide
      refine h.emit (by simp) ?_ start
      simp only [Token.weight, weight_encode, String.toList_ofList, quotedWeight_reverse, hmode,
        Mode.weight_quoted, hquote]
      omega
    · have hslash : charWeight '\\' = 1 := by decide
      exact h.setMode (by simp) (by simp [hmode, hslash]; omega)
    · rename_i hquote hslash
      have hle := weight_encodeChar_le hquote hslash
      exact h.setMode (by simp) (by simp [hmode]; omega)
  · rename_i start cs hmode
    have hle := weight_decodeEscaped_le c
    exact h.setMode (by simp) (by simp [hmode]; omega)

theorem Weighed.foldl_feed (h : s.Weighed n) (cs : List Char) :
    (cs.foldl Scanner.feed s).Weighed (n + weight cs) := by
  induction cs generalizing s n with
  | nil => exact h
  | cons c cs ih =>
    have hnext : (s.feed c).Weighed (n + charWeight c) := by
      have htake := h.take c
      exact ⟨htake.isWord, htake.collected, htake.weight_le⟩
    rw [List.foldl_cons, weight_cons, ← Nat.add_assoc]
    exact ih hnext

end Scanner

/-- The tokens of a text weigh no more than the text, and its words are words. -/
theorem weighed_scan (source : String) :
    (∀ w, .word w ∈ (scan source).1.map Lexeme.token → IsWord w) ∧
      Token.weightAll ((scan source).1.map Lexeme.token) ≤ weight source.toList := by
  have hstart : Scanner.Weighed {} 0 := ⟨by simp [Scanner.tokens], by simp, Nat.le_refl 0⟩
  have hend := (hstart.foldl_feed source.toList).flush
  have hle := hend.weight_le
  rw [Nat.zero_add] at hle
  exact ⟨hend.isWord, Nat.le_trans (Nat.le_add_right _ _) hle⟩

end Dump

end PonyLens
