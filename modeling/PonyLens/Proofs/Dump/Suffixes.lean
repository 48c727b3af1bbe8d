import Mathlib.Data.List.TakeWhile
import PonyLens.Proofs.Dump.Words

/-!
# Places at the ends of words

When a word ends in a place, said without cutting it up: something stands before `@LINE:COLUMN`, and
both numerals are those of 32-bit words. Such a place is all that a word loses, a word without one
loses nothing, and whether a word writes a number does not depend on it.
-/

namespace PonyLens.Dump

open Text.Decimal (unsigned?)

/-- Whether the characters are `base`, which are some, and then the place `l`. -/
def EndsInPlace (cs base : List Char) (l : Location) : Prop :=
  base ≠ [] ∧ ∃ line column, cs = base ++ '@' :: (line ++ ':' :: column) ∧
    unsigned? Word.max line = some l.line ∧ unsigned? Word.max column = some l.column

def CarriesNoPlace (cs : List Char) : Prop := ∀ base l, ¬ EndsInPlace cs base l

variable {word : String} {cs base suffix line column : List Char} {l : Location} {c : Char}
  {limit n : Nat}

theorem carriesNoPlace_of_not_mem (h : '@' ∉ cs) : CarriesNoPlace cs := by
  rintro base l ⟨_, line, column, rfl, _⟩
  simp at h

theorem isDigit_or_eq_plus (h : unsigned? limit cs = some n) (hc : c ∈ cs) :
    c.isDigit = true ∨ c = '+' := by
  have hdigits {ds : List Char} {k : Nat} (hds : Text.Decimal.digits? ds = some k) :
      ∀ d ∈ ds, d.isDigit = true := by
    unfold Text.Decimal.digits? at hds
    split at hds
    · cases hds
    · split at hds
      · rename_i hall
        exact List.all_eq_true.mp hall
      · cases hds
  obtain ⟨hvalue, _⟩ := Option.filter_eq_some_iff.mp h
  split at hvalue
  · rcases List.mem_cons.mp hc with rfl | hc
    · exact .inr rfl
    · exact .inl (hdigits hvalue c hc)
  · exact .inl (hdigits hvalue c hc)

/-- No numeral contains a character that is neither a digit nor a plus sign. -/
theorem bne_of_unsigned (h : unsigned? limit cs = some n) {d : Char} (hdigit : d.isDigit = false)
    (hplus : d ≠ '+') : ∀ c ∈ cs, (c != d) = true := by
  intro c hc
  rw [bne_iff_ne]
  rintro rfl
  rcases isDigit_or_eq_plus h hc with hc | hc
  · rw [hdigit] at hc
    cases hc
  · exact hplus hc

theorem endsWord_of_isDigit (h : c.isDigit = true) : Scanner.endsWord c = false := by
  rw [Char.isDigit, Bool.and_eq_true, decide_eq_true_eq, decide_eq_true_eq] at h
  have hlow : 48 ≤ c.toNat := h.1
  have hhigh : c.toNat ≤ 57 := h.2
  have hblank : Text.isBlank c = false := by
    simp [Text.isBlank, Text.blankRanges]
    omega
  have hne (d : Char) (hd : d.toNat < 48 ∨ 57 < d.toNat) : (c == d) = false := by
    rw [beq_eq_false_iff_ne]
    rintro rfl
    omega
  rw [Scanner.endsWord, hblank, hne '(' (by decide), hne ')' (by decide), hne '"' (by decide),
    hne ';' (by decide)]
  rfl

theorem endsWord_of_unsigned (h : unsigned? limit cs = some n) :
    ∀ c ∈ cs, Scanner.endsWord c = false := by
  intro c hc
  rcases isDigit_or_eq_plus h hc with hc | rfl
  · exact endsWord_of_isDigit hc
  · decide

theorem EndsInPlace.endsWord (h : EndsInPlace (cs ++ suffix) cs l) :
    ∀ c ∈ suffix, Scanner.endsWord c = false := by
  obtain ⟨_, line, column, heq, hline, hcolumn⟩ := h
  obtain rfl := List.append_cancel_left heq
  intro c hc
  rw [List.mem_cons, List.mem_append, List.mem_cons] at hc
  rcases hc with rfl | hc | rfl | hc
  · decide
  · exact endsWord_of_unsigned hline c hc
  · decide
  · exact endsWord_of_unsigned hcolumn c hc

theorem placeOf?_eq (hline : unsigned? Word.max line = some l.line)
    (hcolumn : unsigned? Word.max column = some l.column) :
    placeOf? (line ++ ':' :: column) = some l := by
  have hcolon := bne_of_unsigned hline (d := ':') (by decide) (by decide)
  rw [placeOf?, List.dropWhile_append_of_pos hcolon, List.takeWhile_append_of_pos hcolon,
    List.dropWhile_cons_of_neg (by simp), List.takeWhile_cons_of_neg (by simp), List.append_nil]
  simp [hline, hcolumn]

theorem placeOf?_eq_some (h : placeOf? cs = some l) :
    ∃ line column, cs = line ++ ':' :: column ∧ unsigned? Word.max line = some l.line ∧
      unsigned? Word.max column = some l.column := by
  unfold placeOf? at h
  split at h
  · rename_i column hdrop
    obtain ⟨line, hline, h⟩ := Option.bind_eq_some_iff.mp h
    obtain ⟨column', hcolumn, h⟩ := Option.bind_eq_some_iff.mp h
    cases h
    have hsplit := List.takeWhile_append_dropWhile (p := fun d => d != ':') (l := cs)
    rw [hdrop] at hsplit
    exact ⟨_, column, hsplit.symm, hline, hcolumn⟩
  · cases h

theorem EndsInPlace.splitLocation_eq (h : EndsInPlace word.toList base l) (fallback : Location) :
    splitLocation word fallback = (String.ofList base, l) := by
  obtain ⟨hbase, line, column, hword, hline, hcolumn⟩ := h
  have hat : ∀ c ∈ (line ++ ':' :: column).reverse, (c != '@') = true := by
    intro c hc
    rw [List.mem_reverse, List.mem_append, List.mem_cons] at hc
    rcases hc with hc | rfl | hc
    · exact bne_of_unsigned hline (by decide) (by decide) c hc
    · decide
    · exact bne_of_unsigned hcolumn (by decide) (by decide) c hc
  have hrev : word.toList.reverse = (line ++ ':' :: column).reverse ++ '@' :: base.reverse := by
    rw [hword, List.reverse_append, List.reverse_cons, List.append_assoc, List.singleton_append]
  obtain ⟨c, rest, hrest⟩ : ∃ c rest, base.reverse = c :: rest :=
    List.exists_cons_of_ne_nil (by simpa using hbase)
  simp only [splitLocation, hrev, List.dropWhile_append_of_pos hat,
    List.takeWhile_append_of_pos hat]
  rw [List.dropWhile_cons_of_neg (by simp), List.takeWhile_cons_of_neg (by simp), List.append_nil,
    List.reverse_reverse, hrest]
  simp only [placeOf?_eq hline hcolumn]
  rw [← hrest, List.reverse_reverse]

theorem CarriesNoPlace.splitLocation_eq (h : CarriesNoPlace word.toList) (fallback : Location) :
    splitLocation word fallback = (word, fallback) := by
  simp only [splitLocation]
  split
  · rename_i c rest hdrop
    split
    · rename_i l hplace
      have hsplit := List.takeWhile_append_dropWhile
        (p := fun d => d != '@') (l := word.toList.reverse)
      rw [hdrop] at hsplit
      have hword := congrArg List.reverse hsplit
      rw [List.reverse_reverse, List.reverse_append, List.reverse_cons, List.append_assoc,
        List.singleton_append] at hword
      obtain ⟨line, column, heq, hline, hcolumn⟩ := placeOf?_eq_some hplace
      rw [heq] at hword
      exact absurd ⟨by simp, line, column, hword.symm, hline, hcolumn⟩ (h _ l)
    · rfl
  · rfl

/-! ### What a place at the end changes -/

theorem EndsInPlace.unplaced_eq (h : EndsInPlace word.toList base l) :
    unplaced word = String.ofList base :=
  congrArg Prod.fst (h.splitLocation_eq .unknown)

theorem CarriesNoPlace.unplaced_eq (h : CarriesNoPlace word.toList) : unplaced word = word :=
  congrArg Prod.fst (h.splitLocation_eq .unknown)

def afterMinus : List Char → List Char
  | '-' :: rest => rest
  | cs => cs

theorem afterMinus_cons (hminus : c ≠ '-') (cs : List Char) : afterMinus (c :: cs) = c :: cs := by
  unfold afterMinus
  split
  · rename_i heq
    exact absurd (List.cons.inj heq).1 hminus
  · rfl

/-- Whether a word writes a number shows in its first characters. -/
theorem isSome_numberKind?_eq (word : String) :
    (numberKind? word).isSome = (afterMinus word.toList).head?.any Char.isDigit := by
  simp only [numberKind?]
  split
  · rename_i h
    have hnil : afterMinus word.toList = [] := h
    rw [hnil]
    rfl
  · rename_i c rest h
    have hcons : afterMinus word.toList = c :: rest := h
    rw [hcons]
    cases hdigit : c.isDigit with
    | false => simp [hdigit]
    | true =>
      simp only [Bool.not_true, Bool.false_eq_true, if_false]
      split_ifs <;> simp [hdigit]

/-- A place does not make a word a number, and does not keep it from being one. -/
theorem EndsInPlace.isSome_numberKind? (h : EndsInPlace (word.toList ++ suffix) word.toList l) :
    (numberKind? (word ++ String.ofList suffix)).isSome = (numberKind? word).isSome := by
  obtain ⟨hne, line, column, heq, _⟩ := h
  obtain rfl := List.append_cancel_left heq
  rw [isSome_numberKind?_eq, isSome_numberKind?_eq, String.toList_append, String.toList_ofList]
  obtain ⟨c, cs, hcs⟩ := List.exists_cons_of_ne_nil hne
  rw [hcs, List.cons_append]
  by_cases hminus : c = '-'
  · subst hminus
    cases cs <;> rfl
  · rw [afterMinus_cons hminus, afterMinus_cons hminus]
    rfl

end PonyLens.Dump
