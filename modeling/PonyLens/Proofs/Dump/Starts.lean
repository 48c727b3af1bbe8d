import PonyLens.Proofs.Arena.Operations
import PonyLens.Proofs.Dump.Spans
import PonyLens.Proofs.Dump.Steps
import PonyLens.Proofs.Dump.Suffixes

/-!
# Which tokens start nodes

The nodes that a text writes, in the order in which they start, each with the token that it starts
with and the one that says what it is. The reader creates exactly these nodes, in this order. Where
the word of a node ends in a place the node lies there, and otherwise where it starts in the text.
-/

namespace PonyLens.Dump

open Outline (kindOf)

structure Start where
  kind : Kind
  text : String
  /-- Its opening parenthesis, or its only token. -/
  first : Span
  /-- The word for its kind, or its only token. -/
  word : Span

/-- The place that the word ends in, or else the one where the node starts. -/
def Start.location (n : Start) : Location :=
  (splitLocation (String.ofList n.word.spelling) n.first.place).2

/-- The nodes that start in a row of tokens. The word after a parenthesis starts one, together with
the token for its text, if it takes one. So does a token that stands alone. -/
inductive Starts : List Span → List Start → Prop
  | nil : Starts [] []
  | closing {s : Span} {ss : List Span} {ns : List Start} (hs : s.token = .closing)
    (hrest : Starts ss ns) : Starts (s :: ss) ns
  | string {s : Span} {text : String} {ss : List Span} {ns : List Start}
    (hs : s.token = .quoted text) (hrest : Starts ss ns) :
    Starts (s :: ss) (⟨.stringLit, text, s, s⟩ :: ns)
  | leaf {s : Span} {w text : String} {kind : Kind} {ss : List Span} {ns : List Start}
    (hs : s.token = .word w) (hleaf : WritesLeaf w (.node kind text [])) (hrest : Starts ss ns) :
    Starts (s :: ss) (⟨kind, text, s, s⟩ :: ns)
  | compound {o s next : Span} {w text : String} {taken ss : List Span} {ns : List Start}
    (ho : o.token = .opening) (hs : s.token = .word w)
    (htext : InlineText w (taken.map Span.token) text next.token)
    (hrest : Starts (next :: ss) ns) :
    Starts (o :: s :: (taken ++ next :: ss)) (⟨kindOf w, text, o, s⟩ :: ns)

structure Lists (a : Arena) (base : Nat) (ns : List Start) : Prop where
  size_eq : a.size = base + ns.length
  node (i : Nat) (n : Start) (h : ns[i]? = some n) : ∃ node, a.nodes[base + i]? = some node ∧
    node.kind = n.kind ∧ a.names.Has node.text n.text ∧ node.location = n.location

variable {a : Arena} {base root : Nat} {ns done : List Start} {ss : List Span} {s : Span}
  {n : Start} {w : String} {l : Location} {r r' : Reader} {opening place : Location}

/-! ### Places of nodes -/

theorem location_of_endsInPlace {cs : List Char} (h : EndsInPlace n.word.spelling cs l) :
    n.location = l := by
  have hword : EndsInPlace (String.ofList n.word.spelling).toList cs l := by
    rwa [String.toList_ofList]
  rw [Start.location, hword.splitLocation_eq]

theorem location_of_carriesNoPlace (h : CarriesNoPlace n.word.spelling) :
    n.location = n.first.place := by
  have hword : CarriesNoPlace (String.ofList n.word.spelling).toList := by
    rwa [String.toList_ofList]
  rw [Start.location, hword.splitLocation_eq]

theorem location_of_word {next : Option Char} (h : Piece n.word.spelling [.word w] next) :
    n.location = (splitLocation w n.first.place).2 := by
  generalize hspelling : n.word.spelling = cs at h
  cases h
  rw [Start.location, hspelling, String.ofList_toList]

/-- A quoted text carries no place, since it ends in a quotation mark. -/
theorem Piece.carriesNoPlace {cs : List Char} {text : String} {next : Option Char}
    (h : Piece cs [.quoted text] next) : CarriesNoPlace cs := by
  rintro base l ⟨hne, line, column, heq, hline, hcolumn⟩
  cases h
  have hends := EndsInPlace.endsWord ⟨hne, line, column, rfl, hline, hcolumn⟩
  have hlast := congrArg List.getLast? heq
  rw [List.getLast?_concat, List.getLast?_append_of_ne_nil _ (by simp)] at hlast
  have hquote := hends '"' (List.mem_of_getLast? hlast.symm)
  revert hquote
  decide

/-! ### One list of nodes -/

theorem WritesLeaf.unique {t t' : Tree} (h : WritesLeaf w t) (h' : WritesLeaf w t') : t = t' := by
  have heq := (Outline.bareWord_of_writesLeaf h {}).symm.trans
    (Outline.bareWord_of_writesLeaf h' {})
  cases heq
  rfl

/-- Which tokens stand for the text of a node, and the text, is settled by the word and the tokens
that follow. -/
theorem InlineText.unique {xs xs' ys ys' : List Token} {text text' : String} {next next' : Token}
    (h : InlineText w xs text next) (h' : InlineText w xs' text' next')
    (heq : xs ++ next :: ys = xs' ++ next' :: ys') : xs.length = xs'.length ∧ text = text' := by
  have hident {x : Token} {s : String} (hw : kindOf w = .ident) : ¬ TakesText (kindOf w) x s := by
    rw [hw, takesText_iff]
    simp [Reader.textOf?]
  have hother {x : Token} {s : String} (hw : kindOf w = .other) : ¬ TakesText (kindOf w) x s := by
    rw [hw, takesText_iff]
    simp [Reader.textOf?]
  cases h with
  | name hw hx => cases h' with
    | name _ hx' =>
      obtain rfl := (List.cons.inj heq).1
      rcases hx with rfl | rfl <;> simpa using hx'
    | taken htext => exact absurd htext (hident hw)
    | unknown hw' => rw [hw] at hw'; cases hw'
    | empty hw' => exact absurd hw hw'
  | @taken x _ _ htext => cases h' with
    | name hw => exact absurd htext (hident hw)
    | taken htext' =>
      obtain rfl := (List.cons.inj heq).1
      rw [takesText_iff] at htext htext'
      exact ⟨rfl, Option.some.inj (htext.symm.trans htext')⟩
    | unknown hw => exact absurd htext (hother hw)
    | empty _ _ hnone =>
      obtain rfl := (List.cons.inj heq).1
      exact absurd htext (hnone _)
  | unknown hw => cases h' with
    | name hw' => rw [hw] at hw'; cases hw'
    | taken htext => exact absurd htext (hother hw)
    | unknown _ => exact ⟨rfl, rfl⟩
    | empty _ hw' => exact absurd hw hw'
  | empty hname hw hnone => cases h' with
    | name hw' => exact absurd hw' hname
    | taken htext =>
      obtain rfl := (List.cons.inj heq).1
      exact absurd htext (hnone _)
    | unknown hw' => exact absurd hw' hw
    | empty => exact ⟨rfl, rfl⟩

theorem Starts.unique {ns' : List Start} (h : Starts ss ns) (h' : Starts ss ns') : ns = ns' := by
  induction h generalizing ns' with
  | nil =>
    cases h'
    rfl
  | closing hs _ ih => cases h' with
    | closing _ hrest => exact ih hrest
    | string hs' => cases hs.symm.trans hs'
    | leaf hs' => cases hs.symm.trans hs'
    | compound hs' => cases hs.symm.trans hs'
  | string hs _ ih => cases h' with
    | closing hs' => cases hs.symm.trans hs'
    | string hs' hrest =>
      cases hs.symm.trans hs'
      rw [ih hrest]
    | leaf hs' => cases hs.symm.trans hs'
    | compound hs' => cases hs.symm.trans hs'
  | leaf hs hleaf _ ih => cases h' with
    | closing hs' => cases hs.symm.trans hs'
    | string hs' => cases hs.symm.trans hs'
    | leaf hs' hleaf' hrest =>
      cases hs.symm.trans hs'
      cases hleaf.unique hleaf'
      rw [ih hrest]
    | compound hs' => cases hs.symm.trans hs'
  | @compound o s next w text taken ss ns ho hs htext _ ih =>
    generalize hss : o :: s :: (taken ++ next :: ss) = all at h'
    cases h' with
    | nil => cases hss
    | closing ho' =>
      cases hss
      cases ho.symm.trans ho'
    | string ho' =>
      cases hss
      cases ho.symm.trans ho'
    | leaf ho' =>
      cases hss
      cases ho.symm.trans ho'
    | compound _ hs' htext' hrest =>
      simp only [List.cons.injEq] at hss
      obtain ⟨rfl, rfl, hss⟩ := hss
      cases hs.symm.trans hs'
      have hmap := congrArg (List.map Span.token) hss
      rw [List.map_append, List.map_append, List.map_cons, List.map_cons] at hmap
      obtain ⟨hlength, rfl⟩ := htext.unique htext' hmap
      obtain ⟨rfl, htail⟩ := List.append_inj hss (by simpa using hlength)
      cases htail
      rw [ih hrest]

/-! ### What an arena lists -/

theorem lists_nil (a : Arena) : Lists a a.size [] := ⟨rfl, by simp⟩

theorem Lists.addNode (h : Lists a base ns) (n : Start) :
    Lists (a.addNode n.kind n.text n.location).2 base (ns ++ [n]) := by
  refine ⟨by simp [h.size_eq, Nat.add_assoc], fun i m hm => ?_⟩
  simp only [Arena.getElem?_addNode, h.size_eq, Nat.add_left_cancel_iff]
  split_ifs with hi
  · rw [hi, List.getElem?_concat_length] at hm
    cases hm
    exact ⟨_, rfl, rfl, a.names.has_intern n.text, rfl⟩
  · have hlt : i < ns.length := by
      have hle := (List.getElem?_eq_some_iff.mp hm).1
      rw [List.length_append, List.length_singleton] at hle
      omega
    rw [List.getElem?_append_left hlt] at hm
    obtain ⟨node, hnode, hkind, htext, hlocation⟩ := h.node i m hm
    exact ⟨node, hnode, hkind, htext.intern n.text, hlocation⟩

theorem Lists.join (h : Lists a base ns) (p c : NodeId) : Lists (a.join p c) base ns := by
  refine ⟨by simpa using h.size_eq, fun i m hm => ?_⟩
  obtain ⟨node, hnode, hkind, htext, hlocation⟩ := h.node i m hm
  rw [Arena.getElem?_join, hnode]
  exact ⟨_, rfl, hkind, htext, hlocation⟩

namespace Reader

/-! ### One node -/

theorem lists_complete (h : Lists r.arena base ns) (hr : r.complete root = .ok r') :
    Lists r'.arena base ns ∧ r'.expecting.isBetween = true := by
  refine ⟨?_, isBetween_complete hr⟩
  rcases complete_cases hr with ⟨_, rfl⟩ | ⟨top, _, arena, _, happend, rfl⟩
  · exact h
  · rcases r.arena.appendChild_some_cases top.node (some root) with
      ⟨e, herror⟩ | ⟨_, _, _, _, _, hok⟩
    · rw [herror] at happend
      cases happend
    · rw [hok] at happend
      cases happend
      exact h.join _ _

theorem lists_leaf (h : Lists r.arena base ns) (n : Start)
    (hr : r.leaf n.kind n.text n.location = .ok r') :
    Lists r'.arena base (ns ++ [n]) ∧ r'.expecting.isBetween = true :=
  lists_complete (r := { r with arena := (r.arena.addNode n.kind n.text n.location).2 })
    (h.addNode n) hr

theorem lists_close (h : Lists r.arena base ns) (hr : r.close place = .ok r') :
    Lists r'.arena base ns ∧ r'.expecting.isBetween = true := by
  obtain ⟨_, openNodes, _, hcomplete⟩ := close_cases hr
  exact lists_complete (r := { r with openNodes }) h hcomplete

theorem lists_beginNode (h : Lists r.arena base ns) (n : Start) (opening : Location) :
    Lists (r.beginNode opening n.kind n.text n.location).arena base (ns ++ [n]) :=
  h.addNode n

/-! ### A run -/

section Run

variable (hroot : r'.expecting = .nothing root)
include hroot

/-- A run does not end before the root is finished. -/
theorem exists_next (hr : ∀ n, r.expecting ≠ .nothing n)
    (hrun : (ss.map Span.lexeme).foldlM feed r = .ok r') : ∃ next rest, ss = next :: rest := by
  cases ss with
  | nil =>
    cases hrun
    exact absurd hroot (hr root)
  | cons next rest => exact ⟨next, rest, rfl⟩

theorem exists_inlineText
    (hrun : (ss.map Span.lexeme).foldlM feed (r.kindWord opening w place) = .ok r') :
    ∃ taken text next rest, ss = taken ++ next :: rest ∧
      InlineText w (taken.map Span.token) text next.token ∧
      ((next :: rest).map Span.lexeme).foldlM feed
        (r.beginNode opening (kindOf w) text (splitLocation w opening).2) = .ok r' := by
  have hbegin (taken rest : List Span) (text : String) (hss : ss = taken ++ rest)
      (htext : ∀ next ∈ rest.head?, InlineText w (taken.map Span.token) text next.token)
      (hrest : (rest.map Span.lexeme).foldlM feed
        (r.beginNode opening (kindOf w) text (splitLocation w opening).2) = .ok r') :
      ∃ taken text next rest, ss = taken ++ next :: rest ∧
        InlineText w (taken.map Span.token) text next.token ∧
        ((next :: rest).map Span.lexeme).foldlM feed
          (r.beginNode opening (kindOf w) text (splitLocation w opening).2) = .ok r' := by
    obtain ⟨next, rest, rfl⟩ := exists_next hroot (by simp [beginNode]) hrest
    exact ⟨taken, text, next, rest, hss, htext next rfl, hrest⟩
  rw [kindWord_eq] at hrun
  split_ifs at hrun with hname hother hmay
  · obtain ⟨x, rest, rfl⟩ := exists_next hroot (by simp) hrun
    obtain ⟨q, hfeed, hrest⟩ := run_cons hrun
    simp only [feed] at hfeed
    split at hfeed
    · rename_i s hx
      cases hfeed
      rw [← hname] at hrest
      exact hbegin [x] rest s rfl (fun _ _ => .name hname (.inl hx)) hrest
    · rename_i s hx
      cases hfeed
      rw [← hname] at hrest
      exact hbegin [x] rest s rfl (fun _ _ => .name hname (.inr hx)) hrest
    · cases hfeed
  · rw [← hother] at hrun
    exact hbegin [] ss (unplaced w) rfl (fun _ _ => .unknown hother) hrun
  · obtain ⟨x, rest, rfl⟩ := exists_next hroot (by simp) hrun
    obtain ⟨q, hfeed, hrest⟩ := run_cons hrun
    simp only [feed] at hfeed
    split at hfeed
    · rename_i s htext
      cases hfeed
      exact hbegin [x] rest s rfl (fun _ _ => .taken (takesText_iff.mpr htext)) hrest
    · rename_i htext
      have hnone : textOf? (kindOf w) x.token = none := htext
      refine hbegin [] (x :: rest) "" rfl ?_ ?_
      · rintro _ ⟨⟩
        refine .empty hname hother fun s hs => ?_
        rw [takesText_iff.mp hs] at hnone
        cases hnone
      · -- The token is taken as if it came after the node was created.
        rw [List.map_cons, List.foldlM_cons]
        exact (congrArg (· >>= _) hfeed).trans hrest
  · refine hbegin [] ss "" rfl (fun _ _ => .empty hname hother fun s hs => hmay ?_) hrun
    exact Outline.mayHaveText_of_takesText hs

theorem exists_compound {q : Reader} (hq : q.expecting = .kind opening)
    (hrun : (ss.map Span.lexeme).foldlM feed q = .ok r') :
    ∃ s w taken text next rest, ss = s :: (taken ++ next :: rest) ∧ s.token = .word w ∧
      InlineText w (taken.map Span.token) text next.token ∧
      ((next :: rest).map Span.lexeme).foldlM feed
        (q.beginNode opening (kindOf w) text (splitLocation w opening).2) = .ok r' := by
  obtain ⟨s, rest, rfl⟩ := exists_next hroot (by simp [hq]) hrun
  obtain ⟨p, hfeed, hrest⟩ := run_cons hrun
  simp only [feed, hq] at hfeed
  split at hfeed
  · rename_i w hs
    obtain rfl := Except.ok.inj hfeed
    obtain ⟨taken, text, next, rest, rfl, htext, hrest⟩ := exists_inlineText hroot hrest
    exact ⟨s, w, taken, text, next, rest, rfl, hs, htext, hrest⟩
  · cases hfeed

/-- A run between two nodes that finishes the root creates the nodes that start in its tokens. -/
theorem exists_starts (hr : r.expecting.isBetween = true) (hlists : Lists r.arena base done)
    (hpieces : ∀ s ∈ ss, ∃ next, Piece s.spelling [s.token] next)
    (hrun : (ss.map Span.lexeme).foldlM feed r = .ok r') :
    ∃ ns, Starts ss ns ∧ Lists r'.arena base (done ++ ns) := by
  induction hlength : ss.length using Nat.strong_induction_on generalizing ss r done with
  | h k ih =>
    rcases ss with - | ⟨s, rest⟩
    · cases hrun
      exact ⟨[], .nil, by rwa [List.append_nil]⟩
    obtain ⟨q, hfeed, hrest⟩ := run_cons hrun
    rw [List.length_cons] at hlength
    rw [List.forall_mem_cons] at hpieces
    obtain ⟨⟨_, hpiece⟩, hpieces⟩ := hpieces
    rcases feed_between hr hfeed with ⟨hs, hclose⟩ | hstart
    · obtain ⟨hlists, hq⟩ := lists_close hlists hclose
      obtain ⟨ns, hns, hfinal⟩ := ih _ (by omega) hq hlists hpieces hrest rfl
      exact ⟨ns, .closing hs hns, hfinal⟩
    rcases start_cases hstart with ⟨hs, rfl⟩ | ⟨text, hs, hleaf⟩ | ⟨w, kind, text, hs, hw, hleaf⟩
    · obtain ⟨v, w, taken, text, next, rest, rfl, hv, htext, hrest⟩ :=
        exists_compound hroot rfl hrest
      rw [List.forall_mem_cons, List.forall_mem_append] at hpieces
      obtain ⟨⟨_, hpiece⟩, _, hpieces⟩ := hpieces
      rw [hv] at hpiece
      have hnew := lists_beginNode hlists ⟨kindOf w, text, s, v⟩ s.place
      rw [location_of_word (n := ⟨kindOf w, text, s, v⟩) hpiece] at hnew
      dsimp only at hnew
      have hshort : (next :: rest).length < k := by
        rw [← hlength]
        simp only [List.length_cons, List.length_append]
        omega
      obtain ⟨ns, hns, hfinal⟩ := ih _ hshort
        (r := r.beginNode s.place (kindOf w) text (splitLocation w s.place).2) rfl hnew hpieces
        hrest rfl
      rw [List.append_assoc] at hfinal
      exact ⟨_ :: ns, .compound hs hv htext hns, hfinal⟩
    · have hs : s.token = .quoted text := hs
      rw [hs] at hpiece
      have hlocation : Start.location ⟨.stringLit, text, s, s⟩ = s.place :=
        location_of_carriesNoPlace (n := ⟨.stringLit, text, s, s⟩) hpiece.carriesNoPlace
      obtain ⟨hnew, hq⟩ := lists_leaf hlists ⟨.stringLit, text, s, s⟩ (by rwa [hlocation])
      obtain ⟨ns, hns, hfinal⟩ := ih _ (by omega) hq hnew hpieces hrest rfl
      rw [List.append_assoc] at hfinal
      exact ⟨_ :: ns, .string hs hns, hfinal⟩
    · have hs : s.token = .word w := hs
      rw [hs] at hpiece
      have hlocation : Start.location ⟨kind, text, s, s⟩ = (splitLocation w s.place).2 :=
        location_of_word hpiece
      obtain ⟨hnew, hq⟩ := lists_leaf hlists ⟨kind, text, s, s⟩ (by rwa [hlocation])
      obtain ⟨ns, hns, hfinal⟩ := ih _ (by omega) hq hnew hpieces hrest rfl
      rw [List.append_assoc] at hfinal
      exact ⟨_ :: ns, .leaf hs hw hns, hfinal⟩

end Run

end Reader

/-- A text that is read leaves the nodes that start in it, behind those that were there. -/
theorem exists_starts_of_read {b : Arena} {source : String} (h : read a source = (.ok root, b))
    (hspans : Spans [] source.toList ss) : ∃ ns, Starts ss ns ∧ Lists b a.size ns := by
  obtain ⟨r, hrun, hroot, rfl⟩ := exists_run h hspans.scan_eq
  exact Reader.exists_starts (r := { arena := a }) hroot rfl (lists_nil a)
    (fun _ => hspans.exists_piece) hrun

end PonyLens.Dump
