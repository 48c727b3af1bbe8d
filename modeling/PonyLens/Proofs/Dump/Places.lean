import PonyLens.Proofs.Dump.Starts

/-!
# Where the nodes of a dump lie

Each node lies where its word says, or else where it starts in the text, so that the places of the
nodes without one of their own only move forward. A place that is written to a word changes the
place of its node and nothing else, neither what the node is nor what is read around it.
-/

namespace PonyLens.Dump

open Outline (kindOf)

variable {a b : Arena} {n : NodeId} {source : String} {ss : List Span} {ns : List Start} {s : Span}
  {before cs : List Char} {suffix : Span → List Char} {o : Outline} {t : Tree} {w w' : String}
  {x next next' : Token} {xs : List Token}

/-! ### The order of the nodes -/

theorem Starts.first_sublist (h : Starts ss ns) : (ns.map Start.first).Sublist ss := by
  induction h with
  | nil => exact .slnil
  | closing _ _ ih => exact ih.cons _
  | string _ _ ih => exact ih.cons_cons _
  | leaf _ _ _ ih => exact ih.cons_cons _
  | compound _ _ _ _ ih =>
    exact ((ih.trans (List.sublist_append_right _ _)).cons _).cons_cons _

theorem Starts.word_sublist (h : Starts ss ns) : (ns.map Start.word).Sublist ss := by
  induction h with
  | nil => exact .slnil
  | closing _ _ ih => exact ih.cons _
  | string _ _ ih => exact ih.cons_cons _
  | leaf _ _ _ ih => exact ih.cons_cons _
  | compound _ _ _ _ ih =>
    exact ((ih.trans (List.sublist_append_right _ _)).cons_cons _).cons _

theorem Spans.nodup (h : Spans before cs ss) : ss.Nodup := by
  refine h.pairwise.imp_of_mem fun hs _ hst heq => ?_
  rw [← heq] at hst
  exact absurd (h.length_lt hs) (Nat.not_lt.mpr hst.length_le)

theorem Starts.pairwise_isBefore (h : Starts ss ns) (hspans : Spans before cs ss) :
    ns.Pairwise fun m n => m.first.place.isBefore n.first.place = true :=
  List.pairwise_map.mp (hspans.pairwise_isBefore.sublist h.first_sublist)

/-! ### Words with places -/

/-- The text with a suffix after each of the tokens. -/
def annotate (suffix : Span → List Char) (ss : List Span) (cs : List Char) : List Char :=
  ss.foldr (fun s cs => cs.take s.upTo.length ++ suffix s ++ cs.drop s.upTo.length) cs

def annotated (suffix : Span → List Char) (s : Span) : Token :=
  match s.token with
  | .word w => .word (w ++ String.ofList (suffix s))
  | x => x

/-- Whether the suffix is a place that is written to a word without one. -/
structure AddsPlace (suffix : Span → List Char) (s : Span) : Prop where
  word : ∃ w, s.token = .word w
  unplaced : CarriesNoPlace s.spelling
  place : ∃ l, EndsInPlace (s.spelling ++ suffix s) s.spelling l

theorem annotated_of_nil (h : suffix s = []) : annotated suffix s = s.token := by
  rw [annotated]
  split
  · rename_i w hs
    rw [hs, h]
    simp
  · rfl

/-- A word with a suffix of which no character ends words is a word. -/
theorem Piece.append {piece more : List Char} {c : Option Char} (h : Piece piece [.word w] c)
    (hmore : ∀ d ∈ more, Scanner.endsWord d = false) :
    Piece (piece ++ more) [.word (w ++ String.ofList more)] c := by
  cases h with
  | word hw hends =>
    have hword : IsWord (w ++ String.ofList more) := by
      refine ⟨fun hnil => hw.1 ?_, fun d hd => ?_⟩
      · have hempty : w = "" ∧ more = [] := by simpa using hnil
        exact hempty.1
      · rw [String.toList_append, String.toList_ofList, List.mem_append] at hd
        exact hd.elim (hw.2 d) (hmore d)
    have hpiece := Piece.word hword hends
    rwa [String.toList_append, String.toList_ofList] at hpiece

theorem Spans.annotate (h : Spans before cs ss)
    (hsuffix : ∀ s ∈ ss, suffix s ≠ [] → AddsPlace suffix s) :
    ∃ cs', Dump.annotate suffix ss (before ++ cs) = before ++ cs' ∧ cs'.head? = cs.head? ∧
      Lexes cs' (ss.map (annotated suffix)) := by
  induction h with
  | nil => exact ⟨[], rfl, rfl, .nil⟩
  | @gap before piece rest ss hpiece _ ih =>
    obtain ⟨rest', hrest, hhead, hlexes⟩ := ih hsuffix
    rw [List.append_assoc, List.append_assoc] at hrest
    refine ⟨piece ++ rest', hrest, ?_, .piece (hhead ▸ hpiece) hlexes⟩
    rw [List.head?_append_of_ne_nil _ hpiece.ne_nil, List.head?_append_of_ne_nil _ hpiece.ne_nil]
  | @token before piece rest x ss hpiece _ ih =>
    rw [List.forall_mem_cons] at hsuffix
    obtain ⟨rest', hrest, hhead, hlexes⟩ := ih hsuffix.2
    let s : Span := ⟨before, piece, x⟩
    have hannotate : Dump.annotate suffix (s :: ss) (before ++ (piece ++ rest)) =
        before ++ ((piece ++ suffix s) ++ rest') := by
      have hcons : Dump.annotate suffix (s :: ss) (before ++ (piece ++ rest)) =
          (Dump.annotate suffix ss (before ++ (piece ++ rest))).take s.upTo.length ++ suffix s ++
            (Dump.annotate suffix ss (before ++ (piece ++ rest))).drop s.upTo.length := rfl
      have hupTo : s.upTo = before ++ piece := rfl
      rw [hcons, ← List.append_assoc before piece rest, hrest, hupTo, List.take_left,
        List.drop_left]
      simp only [List.append_assoc]
    have hnext : Piece (piece ++ suffix s) [annotated suffix s] rest'.head? := by
      rw [hhead]
      by_cases hnil : suffix s = []
      · rw [annotated_of_nil hnil, hnil, List.append_nil]
        exact hpiece
      · obtain ⟨⟨w, hs⟩, _, l, hplace⟩ := hsuffix.1 hnil
        obtain rfl : x = .word w := hs
        exact hpiece.append hplace.endsWord
    refine ⟨_, hannotate, ?_, .piece hnext hlexes⟩
    rw [List.append_assoc, List.head?_append_of_ne_nil _ hpiece.ne_nil,
      List.head?_append_of_ne_nil _ hpiece.ne_nil]

/-! ### What the places do not change -/

/-- Whether a token is the same for the reader, up to the place of its node. -/
inductive SameWord : Token → Token → Prop
  | refl (x : Token) : SameWord x x
  | word {w w' : String} (hword : unplaced w' = unplaced w)
    (hnumber : (numberKind? w').isSome = (numberKind? w).isSome) : SameWord (.word w) (.word w')

theorem AddsPlace.sameWord (h : AddsPlace suffix s) {c : Option Char}
    (hpiece : Piece s.spelling [s.token] c) : SameWord s.token (annotated suffix s) := by
  obtain ⟨⟨w, hs⟩, hunplaced, l, hplace⟩ := h
  rw [hs] at hpiece
  generalize hspelling : s.spelling = cs at hpiece hunplaced hplace
  cases hpiece
  have hword : EndsInPlace (w ++ String.ofList (suffix s)).toList w.toList l := by
    rwa [String.toList_append, String.toList_ofList]
  rw [annotated, hs]
  refine .word ?_ hplace.isSome_numberKind?
  rw [hword.unplaced_eq, hunplaced.unplaced_eq, String.ofList_toList]

theorem sameWord_annotated (hsuffix : suffix s ≠ [] → AddsPlace suffix s) {c : Option Char}
    (hpiece : Piece s.spelling [s.token] c) : SameWord s.token (annotated suffix s) := by
  by_cases hnil : suffix s = []
  · rw [annotated_of_nil hnil]
    exact .refl _
  · exact (hsuffix hnil).sameWord hpiece

theorem SameWord.exists_word (h : SameWord (.word w) x) :
    ∃ w', x = .word w' ∧ unplaced w' = unplaced w := by
  cases h with
  | refl => exact ⟨w, rfl, rfl⟩
  | word hword _ => exact ⟨_, rfl, hword⟩

theorem SameWord.takesText {kind : Kind} {text : String} (h : SameWord x next)
    (htext : TakesText kind next text) : ∃ text, TakesText kind x text := by
  cases h with
  | refl => exact ⟨text, htext⟩
  | word _ hnumber =>
    cases htext with
    | number hkind hw => exact ⟨_, .number hkind (hnumber ▸ hw)⟩

/-- A place changes neither what text a word takes nor whether it is taken as one. -/
theorem InlineText.sameWord {text : String} (h : InlineText w xs text next)
    (hword : unplaced w' = unplaced w) (hnext : SameWord next next') :
    InlineText w' xs text next' := by
  have hkind : kindOf w' = kindOf w := by rw [kindOf, kindOf, hword]
  cases h with
  | name hname hx => exact .name (hkind.trans hname) hx
  | taken htext => exact .taken (by rwa [hkind])
  | unknown hother =>
    rw [← hword]
    exact .unknown (hkind.trans hother)
  | empty hname hother hnone =>
    refine .empty (by rwa [hkind]) (by rwa [hkind]) fun s hs => ?_
    obtain ⟨text, htext⟩ := hnext.takesText hs
    rw [hkind] at htext
    exact hnone text htext

theorem WritesLeaf.sameWord (h : WritesLeaf w t) (hword : unplaced w' = unplaced w) :
    WritesLeaf w' t := by
  cases h with
  | number hnumber =>
    rw [← hword] at hnumber ⊢
    exact .number hnumber
  | kind hnumber hkind hname hdef =>
    rw [← hword] at hnumber hkind
    exact .kind hnumber hkind hname hdef
  | unknown hnumber hkind =>
    rw [← hword] at hnumber hkind ⊢
    exact .unknown hnumber hkind

namespace Outline

theorem feedAll_of_nothing (ho : o.expecting = .nothing t) (f g : Span → Token) (ss : List Span) :
    o.feedAll (ss.map f) = o.feedAll (ss.map g) := by
  cases ss with
  | nil => rfl
  | cons s ss => simp only [List.map_cons, feedAll_cons, feed, ho, Option.bind_none]

def Finishes (o : Outline) (x : Token) : Prop :=
  o.feed x = none ∨ ∃ (o' : Outline) (t : Tree), o.feed x = some (o'.complete t)

theorem finishes_closing (ho : o.Awaits) : o.Finishes .closing := by
  obtain ⟨frames, expecting⟩ := o
  rcases ho with rfl | rfl
  · left
    simp only [feed, start]
    split <;> rfl
  · cases frames with
    | nil => exact .inl rfl
    | cons f frames =>
      simp only [Finishes, feed, childOrClose, close]
      split
      · exact .inl rfl
      · exact .inr ⟨_, _, rfl⟩

theorem finishes_quoted (ho : o.Awaits) (text : String) : o.Finishes (.quoted text) := by
  rw [Finishes, ho.feed_eq (by simp)]
  by_cases hroom : o.frames.length < Limits.dumpDepth
  · exact .inr ⟨o, _, start_quoted hroom text⟩
  · exact .inl (by rw [start, if_pos (Nat.not_lt.mp hroom)])

theorem feed_of_writesLeaf (ho : o.Awaits) (h : WritesLeaf w t) :
    o.feed (.word w) =
      if o.frames.length < Limits.dumpDepth then some (o.complete t) else none := by
  rw [ho.feed_eq (by simp)]
  split_ifs with hroom
  · rw [start_word hroom, bareWord_of_writesLeaf h]
  · rw [start, if_pos (Nat.not_lt.mp hroom)]

theorem finishes_word (ho : o.Awaits) (h : WritesLeaf w t) : o.Finishes (.word w) := by
  rw [Finishes, feed_of_writesLeaf ho h]
  split_ifs
  · exact .inr ⟨o, t, rfl⟩
  · exact .inl rfl

/-- A parenthesis, a word and what stands for the text of its node open a node, if there is room. -/
theorem feedAll_compound {text : String} {ys : List Token} (ho : o.Awaits)
    (h : InlineText w xs text next) :
    o.feedAll (.opening :: .word w :: (xs ++ next :: ys)) =
      if o.frames.length < Limits.dumpDepth then
        (⟨{ kind := kindOf w, text } :: o.frames, .child⟩ : Outline).feedAll (next :: ys)
      else none := by
  rw [feedAll_cons, ho.feed_eq (by simp)]
  split_ifs with hroom
  · rw [start_opening hroom, Option.bind_some, feedAll_cons, feed_kind, Option.bind_some,
      feedAll_inlineText h]
  · rw [start, if_pos (Nat.not_lt.mp hroom)]
    rfl

/-- Two rows of tokens are read alike after a token that finishes a tree, if they are where a node
may start. -/
theorem feedAll_finishes {f g : Span → Token} (hx : o.Finishes x) (h : ∀ o : Outline, o.Awaits →
    o.feedAll (ss.map f) = o.feedAll (ss.map g)) :
    o.feedAll (x :: ss.map f) = o.feedAll (x :: ss.map g) := by
  rw [feedAll_cons, feedAll_cons]
  rcases hx with hnone | ⟨o', t, hsome⟩
  · rw [hnone]
    rfl
  · rw [hsome, Option.bind_some, Option.bind_some]
    rcases hframes : o'.frames with - | ⟨frame, frames⟩
    · have hnothing : (o'.complete t).expecting = .nothing t := by rw [complete, hframes]
      exact feedAll_of_nothing hnothing f g ss
    · exact h _ (.inr (by rw [complete, hframes]))

/-- A token that comes later is not the word of a node that starts before it. -/
theorem addsPlace_tail {words tail : List Span} (hs : s ∉ tail)
    (h : ∀ t ∈ tail, suffix t ≠ [] → t ∈ s :: words ∧ AddsPlace suffix t) :
    ∀ t ∈ tail, suffix t ≠ [] → t ∈ words ∧ AddsPlace suffix t := by
  intro t ht hne
  obtain ⟨hmem, hplace⟩ := h t ht hne
  rcases List.mem_cons.mp hmem with rfl | hmem
  · exact absurd ht hs
  · exact ⟨hmem, hplace⟩

/-- Before the nodes that start later there is no word of a node, so that nothing is added. -/
theorem map_annotated_taken {taken tail : List Span} (h : Starts tail ns)
    (hnodup : (taken ++ tail).Nodup)
    (hsuffix : ∀ t ∈ taken ++ tail, suffix t ≠ [] → t ∈ ns.map Start.word) :
    taken.map (annotated suffix) = taken.map Span.token := by
  obtain ⟨_, _, hdisjoint⟩ := List.nodup_append.mp hnodup
  refine List.map_congr_left fun t ht => annotated_of_nil ?_
  by_contra hne
  have hmem := h.word_sublist.subset (hsuffix t (List.mem_append_left _ ht) hne)
  exact hdisjoint t ht t hmem rfl

theorem feedAll_annotated (h : Starts ss ns) (hnodup : ss.Nodup)
    (hpieces : ∀ s ∈ ss, ∃ c, Piece s.spelling [s.token] c)
    (hsuffix : ∀ s ∈ ss, suffix s ≠ [] → s ∈ ns.map Start.word ∧ AddsPlace suffix s)
    (ho : o.Awaits) : o.feedAll (ss.map (annotated suffix)) = o.feedAll (ss.map Span.token) := by
  have hsame (s : Span) (hs : s ∈ ss) : SameWord s.token (annotated suffix s) := by
    obtain ⟨c, hpiece⟩ := hpieces s hs
    exact sameWord_annotated (fun hne => (hsuffix s hs hne).2) hpiece
  induction h generalizing o with
  | nil => rfl
  | @closing s ss ns hs _ ih =>
    rw [List.nodup_cons] at hnodup
    rw [List.forall_mem_cons] at hpieces hsuffix hsame
    have hannotated : annotated suffix s = .closing := by rw [annotated, hs]
    rw [List.map_cons, List.map_cons, hannotated, hs]
    exact feedAll_finishes (finishes_closing ho) fun _ ho =>
      ih hnodup.2 hpieces.2 hsuffix.2 ho hsame.2
  | @string s text ss ns hs _ ih =>
    rw [List.nodup_cons] at hnodup
    rw [List.forall_mem_cons] at hpieces hsuffix hsame
    have hannotated : annotated suffix s = .quoted text := by rw [annotated, hs]
    rw [List.map_cons, List.map_cons, hannotated, hs]
    exact feedAll_finishes (finishes_quoted ho text) fun _ ho =>
      ih hnodup.2 hpieces.2 (addsPlace_tail hnodup.1 hsuffix.2) ho hsame.2
  | @leaf s w text kind ss ns hs hleaf _ ih =>
    rw [List.nodup_cons] at hnodup
    rw [List.forall_mem_cons] at hpieces hsuffix hsame
    obtain ⟨w', hword, hw'⟩ := (hs ▸ hsame.1).exists_word
    have hleaf' := hleaf.sameWord hw'
    have hrest := feedAll_finishes (finishes_word ho hleaf') fun _ ho =>
      ih hnodup.2 hpieces.2 (addsPlace_tail hnodup.1 hsuffix.2) ho hsame.2
    rw [List.map_cons, List.map_cons, hword, hrest, hs, feedAll_cons, feedAll_cons,
      feed_of_writesLeaf ho hleaf, feed_of_writesLeaf ho hleaf']
  | @compound first s next w text taken ss ns hfirst hs htext hrest ih =>
    rw [List.nodup_cons, List.nodup_cons] at hnodup
    obtain ⟨_, hlater, hnodup⟩ := hnodup
    rw [List.forall_mem_cons, List.forall_mem_cons] at hpieces hsuffix hsame
    have hplaces := addsPlace_tail hlater hsuffix.2.2
    have htaken := map_annotated_taken hrest hnodup fun t ht hne => (hplaces t ht hne).1
    rw [List.forall_mem_append] at hpieces hplaces hsame
    have hopening : annotated suffix first = .opening := by rw [annotated, hfirst]
    obtain ⟨w', hword, hw'⟩ := (hs ▸ hsame.2.1).exists_word
    have hkind : kindOf w' = kindOf w := by rw [kindOf, kindOf, hw']
    have hnext := htext.sameWord hw' (hsame.2.2.2 next List.mem_cons_self)
    have hlast := ih (List.nodup_append.mp hnodup).2.1 hpieces.2.2.2 hplaces.2
      (o := ⟨{ kind := kindOf w, text } :: o.frames, .child⟩) (.inr rfl) hsame.2.2.2
    simp only [List.map_cons, List.map_append, htaken, hopening, hfirst, hword, hs] at hlast ⊢
    rw [feedAll_compound ho htext, feedAll_compound ho hnext, hkind, hlast]

end Outline

theorem treeOf?_annotate (hspans : Spans [] source.toList ss) (hstarts : Starts ss ns)
    (hsuffix : ∀ s, suffix s ≠ [] → s ∈ ns.map Start.word ∧ AddsPlace suffix s) :
    treeOf? (String.ofList (annotate suffix ss source.toList)) = treeOf? source := by
  obtain ⟨cs, hannotate, _, hlexes⟩ := hspans.annotate fun s _ hne => (hsuffix s hne).2
  rw [List.nil_append, List.nil_append] at hannotate
  have hlexes : Lexes (String.ofList (annotate suffix ss source.toList)).toList
      (ss.map (annotated suffix)) := by
    rwa [String.toList_ofList, hannotate]
  obtain ⟨⟨place, hending⟩, htokens⟩ := lexes_iff.mp hlexes
  have hfeed := Outline.feedAll_annotated (o := {}) hstarts hspans.nodup
    (fun _ => hspans.exists_piece) (fun s _ => hsuffix s) (.inl rfl)
  simp only [treeOf?, hending, htokens, hspans.scan_eq, outline?, hfeed, List.map_map]
  rfl

/-- What is read for a text are the nodes that start in it, in this order. A node of which the word
ends in a place lies there, and any other one lies at its first character, where it comes after all
such nodes before it. Places can be written to any words without one, of leaves and of kinds: the
text is read as the same tree. -/
theorem read_places (h : read a source = (.ok n, b)) :
    (∃ ss ns, Spans [] source.toList ss ∧ Starts ss ns) ∧
    ∀ ss ns, Spans [] source.toList ss → Starts ss ns → b.size = a.size + ns.length ∧
      (∀ (i : Nat) (s : Start), ns[i]? = some s →
        b.kind? (some (a.size + i)) = some s.kind ∧ b.text (some (a.size + i)) = s.text ∧
        (∀ base l, EndsInPlace s.word.spelling base l → b.location (some (a.size + i)) = l) ∧
        (CarriesNoPlace s.word.spelling →
          b.location (some (a.size + i)) = .past s.first.before)) ∧
      (∀ (i j : Nat) (s t : Start), i < j → ns[i]? = some s → ns[j]? = some t →
        CarriesNoPlace s.word.spelling → CarriesNoPlace t.word.spelling →
        (b.location (some (a.size + i))).isBefore (b.location (some (a.size + j))) = true) ∧
      (source.length ≤ Word.max → ∀ s ∈ ss,
        s.place.line ≤ Word.max ∧ s.place.column ≤ Word.max) ∧
      ∀ suffix, (∀ s, suffix s ≠ [] → s ∈ ns.map Start.word ∧ AddsPlace suffix s) →
        ∀ dest, ∃ m c t,
          read dest (String.ofList (annotate suffix ss source.toList)) = (.ok m, c) ∧
          c.tree? (some m) = some t ∧ b.tree? (some n) = some t := by
  obtain ⟨t, htree, hb⟩ := exists_treeOf? h
  constructor
  · obtain ⟨ss, hspans⟩ := exists_spans htree
    obtain ⟨ns, hstarts, _⟩ := exists_starts_of_read h hspans
    exact ⟨ss, ns, hspans, hstarts⟩
  intro ss ns hspans hstarts
  obtain ⟨ns', hstarts', hlists⟩ := exists_starts_of_read h hspans
  cases hstarts.unique hstarts'
  have hlocation (i : Nat) (s : Start) (hs : ns[i]? = some s) :
      b.location (some (a.size + i)) = s.location := by
    obtain ⟨node, hnode, _, _, hlocation⟩ := hlists.node i s hs
    simp [Arena.location, Arena.get?, hnode, hlocation]
  refine ⟨hlists.size_eq, fun i s hs => ⟨?_, ?_, ?_, ?_⟩, ?_, ?_, ?_⟩
  · obtain ⟨node, hnode, hkind, _⟩ := hlists.node i s hs
    simp [Arena.kind?, Arena.get?, hnode, hkind]
  · obtain ⟨node, hnode, _, ⟨_, htext⟩, _⟩ := hlists.node i s hs
    simp [Arena.text, Arena.atom, Arena.get?, hnode, htext]
  · intro base l hplace
    rw [hlocation i s hs, location_of_endsInPlace hplace]
  · intro hnone
    rw [hlocation i s hs, location_of_carriesNoPlace hnone]
    rfl
  · intro i j s u hij hs hu hnone hnone'
    obtain ⟨hi, hs'⟩ := List.getElem?_eq_some_iff.mp hs
    obtain ⟨hj, hu'⟩ := List.getElem?_eq_some_iff.mp hu
    have hbefore := List.pairwise_iff_getElem.mp (hstarts.pairwise_isBefore hspans) i j hi hj hij
    rw [hlocation i s hs, hlocation j u hu, location_of_carriesNoPlace hnone,
      location_of_carriesNoPlace hnone', ← hs', ← hu']
    exact hbefore
  · intro hlength s hs
    exact hspans.place_le hs hlength
  · intro suffix hsuffix dest
    have hsame := treeOf?_annotate hspans hstarts hsuffix
    rw [htree] at hsame
    obtain ⟨m, c, hread, hc⟩ : ∃ m c, read dest _ = (.ok m, c) ∧ c.tree? (some m) = some t :=
      exists_read_iff.mpr hsame
    exact ⟨m, c, t, hread, hc, hb⟩

def placedSource : String := "(seq@7:3 1)"

def placedArena : Arena := (read .empty placedSource).2

namespace Placed

def word : List Char := ['s', 'e', 'q', '@', '7', ':', '3']

def opening : Span := ⟨[], ['('], .opening⟩

def sequence : Span := ⟨['('], word, .word "seq@7:3"⟩

def number : Span := ⟨'(' :: word ++ [' '], ['1'], .word "1"⟩

def closing : Span := ⟨'(' :: word ++ [' ', '1'], [')'], .closing⟩

theorem spans : Spans [] placedSource.toList [opening, sequence, number, closing] := by
  have hlist : placedSource.toList = ['('] ++ (word ++ ([' '] ++ (['1'] ++ ([')'] ++ [])))) := by
    decide +kernel
  have hword : Piece word [.word "seq@7:3"] (some ' ') :=
    Piece.word (w := "seq@7:3") (by decide) (by rintro _ ⟨⟩; decide)
  have hnumber : Piece ['1'] [.word "1"] (some ')') :=
    Piece.word (w := "1") (by decide) (by rintro _ ⟨⟩; decide)
  rw [hlist]
  exact .token .opening (.token hword (.gap (.blank (by decide))
    (.token hnumber (.token .closing .nil))))

theorem starts : Starts [opening, sequence, number, closing]
    [⟨kindOf "seq@7:3", "", opening, sequence⟩, ⟨.intLit, unplaced "1", number, number⟩] := by
  have hkind : kindOf "seq@7:3" = .seq := by decide +kernel
  have htext : InlineText "seq@7:3" (([] : List Span).map Span.token) "" number.token := by
    refine .empty (by simp [hkind]) (by simp [hkind]) fun s hs => ?_
    rw [hkind, takesText_iff] at hs
    cases hs
  have hnumber : WritesLeaf "1" (.node .intLit (unplaced "1") []) := .number (by decide +kernel)
  have hrest : Starts [number, closing] [⟨.intLit, unplaced "1", number, number⟩] :=
    .leaf rfl hnumber (.closing rfl .nil)
  exact .compound rfl rfl htext hrest

end Placed

/-- The sequence lies at its place. A place can be written to the number. -/
theorem read_places_placed :
    read .empty placedSource = (.ok 0, placedArena) ∧
      placedArena.location (some 0) = ⟨7, 3⟩ ∧ placedArena.location (some 1) = ⟨1, 10⟩ ∧
      ∀ dest, ∃ m c t, read dest "(seq@7:3 1@7:9)" = (.ok m, c) ∧ c.tree? (some m) = some t ∧
        placedArena.tree? (some 0) = some t := by
  have hread : read .empty placedSource = (.ok 0, placedArena) := by
    refine Prod.ext ?_ rfl
    decide +kernel
  obtain ⟨_, hnodes, _, _, hsuffixes⟩ := (read_places hread).2 _ _ Placed.spans Placed.starts
  have hsequence : EndsInPlace Placed.word ['s', 'e', 'q'] ⟨7, 3⟩ :=
    ⟨by simp, ['7'], ['3'], rfl, by decide, by decide⟩
  have hnone : CarriesNoPlace ['1'] := carriesNoPlace_of_not_mem (by simp)
  refine ⟨hread, ?_, ?_, fun dest => ?_⟩
  · exact (hnodes 0 _ rfl).2.2.1 _ _ hsequence
  · exact (hnodes 1 _ rfl).2.2.2 hnone
  · let suffix (s : Span) : List Char := if s = Placed.number then ['@', '7', ':', '9'] else []
    have hplace : AddsPlace suffix Placed.number := by
      refine ⟨⟨"1", rfl⟩, hnone, ⟨7, 9⟩, by simp [Placed.number], ['7'], ['9'], ?_, ?_, ?_⟩
      all_goals decide
    have hsuffix (s : Span) (hs : suffix s ≠ []) :
        s ∈ [Placed.sequence, Placed.number] ∧ AddsPlace suffix s := by
      have heq : s = Placed.number := by
        by_contra hne
        exact hs (if_neg hne)
      rw [heq]
      exact ⟨by simp, hplace⟩
    exact hsuffixes suffix hsuffix dest

end PonyLens.Dump
