import PonyLens.Proofs.Dump.Outline
import PonyLens.Proofs.Dump.Weight

/-!
# What reading a tree costs

A tree cannot be read from less than it is printed as: each of its nodes has been made of tokens
that weigh no less than the printed node. A node that is not legible costs more than it is printed
as, since some of the tokens that it was made of are not printed. So a tree that is read from its
own print is legible.
-/

namespace PonyLens

open Dump

/-- Whether the price `w` is covered by `n`. If it takes all of it, the ware is good. -/
structure Covered (w n : Nat) (good : Prop) : Prop where
  le : w ≤ n
  good_of_eq : w = n → good

namespace Covered

variable {w w' n n' : Nat} {good good' : Prop}

theorem of_lt (h : w < n) : Covered w n good :=
  ⟨Nat.le_of_lt h, fun heq => absurd heq (Nat.ne_of_lt h)⟩

theorem of_le (h : w ≤ n) (hgood : good) : Covered w n good := ⟨h, fun _ => hgood⟩

theorem mono (h : Covered w n good) (hle : n ≤ n') : Covered w n' good := by
  refine ⟨Nat.le_trans h.le hle, fun heq => h.good_of_eq ?_⟩
  have hwn := h.le
  omega

theorem add (h : Covered w n good) (h' : Covered w' n' good') :
    Covered (w + w') (n + n') (good ∧ good') := by
  have hle := h.le
  have hle' := h'.le
  exact ⟨by omega, fun heq => ⟨h.good_of_eq (by omega), h'.good_of_eq (by omega)⟩⟩

end Covered

namespace Tree

variable {kind : Kind} {text : String} {children : List Tree} {t : Tree} {n m : Nat}

def nodeWeight (kind : Kind) (text : String) : List Tree → Nat
  | [] => weight (leaf kind text).toList
  | _ :: _ => weight (head kind text).toList

def flatWeight (ts : List Tree) : Nat := weight (flatAll ts).toList

theorem flatWeight_cons (t : Tree) (ts : List Tree) :
    flatWeight (t :: ts) = weight (flat t).toList + flatWeight ts := by
  have hblank : charWeight ' ' = 0 := by decide
  simp [flatWeight, flatAll, hblank]

theorem flatWeight_append (ts us : List Tree) :
    flatWeight (ts ++ us) = flatWeight ts + flatWeight us := by
  induction ts with
  | nil => simp [flatWeight, flatAll]
  | cons t ts ih => rw [List.cons_append, flatWeight_cons, flatWeight_cons, ih, Nat.add_assoc]

theorem weight_parens (cs : String) : weight ("(" ++ cs ++ ")").toList = weight cs.toList := by
  have hopening : charWeight '(' = 0 := by decide
  have hclosing : charWeight ')' = 0 := by decide
  simp [hopening, hclosing]

theorem weight_flat (kind : Kind) (text : String) (children : List Tree) :
    weight (flat (.node kind text children)).toList =
      nodeWeight kind text children + flatWeight children := by
  cases children with
  | nil => rfl
  | cons child children =>
    have hparens := weight_parens (head kind text ++ flatAll (child :: children))
    rw [← String.append_assoc] at hparens
    rw [flat, hparens, String.toList_append, weight_append]
    rfl

/-- Whether the node is paid by `n`, whatever children it will have. -/
def NodeCovered (kind : Kind) (text : String) (n : Nat) : Prop :=
  ∀ children : List Tree,
    (kind.isTypeDefinition = true → children.head?.any (·.kind == .ident) = true) →
    Covered (nodeWeight kind text children) n (Legible (.node kind text children))

def TreeCovered (t : Tree) (n : Nat) : Prop :=
  Covered (weight (flat t).toList) n (t.Everywhere Legible)

def TreesCovered (ts : List Tree) (n : Nat) : Prop :=
  Covered (flatWeight ts) n (∀ t ∈ ts, t.Everywhere Legible)

theorem nodeWeight_name : nodeWeight .ident text children =
    weight Kind.ident.token.toList + weight text.toList := by
  have hblank : charWeight ' ' = 0 := by decide
  have hhead : weight (head .ident text).toList =
      weight Kind.ident.token.toList + weight text.toList := by
    simp [head, hblank]
  cases children with
  | nil => exact (weight_parens (head .ident text)).trans hhead
  | cons child children => exact hhead

theorem nodeWeight_plain (h : kind.carriesText = false) :
    nodeWeight kind text children = weight kind.token.toList := by
  cases children with
  | nil =>
    rw [nodeWeight, leaf_plain h]
    split
    · rfl
    · rw [weight_parens, head_plain h]
  | cons child children => rw [nodeWeight, head_plain h]

theorem nodeWeight_file (h : kind = .package ∨ kind = .sourceModule) :
    nodeWeight kind text children = weight kind.token.toList +
      if text = "" then 0 else weight (Text.Quoted.encode text).toList := by
  have hblank : charWeight ' ' = 0 := by decide
  have hhead : weight (head kind text).toList = weight kind.token.toList +
      if text = "" then 0 else weight (Text.Quoted.encode text).toList := by
    rw [head_file h]
    by_cases htext : text = "" <;> simp [htext, hblank]
  cases children with
  | nil => rw [nodeWeight, leaf_file h, weight_parens, hhead]
  | cons child children => exact hhead

/-! ### What a node costs -/

/-- A node without text costs the token of its kind. -/
theorem nodeCovered_token (hname : kind ≠ .ident) (hother : kind ≠ .other) :
    NodeCovered kind "" (weight kind.token.toList) := by
  intro children hfirst
  cases kind.form with
  | name => exact absurd rfl hname
  | string =>
    cases children with
    | nil => exact .of_le (by decide) (.inl rfl)
    | cons child children => exact .of_le (Nat.le_refl _) (.inr rfl)
  | number hkind =>
    have hpos := (kind.isWord_token).one_le_weight
    cases children with
    | nil =>
      have hzero : nodeWeight kind "" [] = 0 := by
        rw [nodeWeight, leaf_number hkind]
        rfl
      exact .of_lt (by omega)
    | cons child children =>
      exact .of_le (by rw [nodeWeight, head_number hkind]) (by simp [legible_number hkind])
  | file hkind => exact .of_le (by simp [nodeWeight_file hkind]) (legible_file hkind)
  | other => exact absurd rfl hother
  | plain hplain =>
    exact .of_le (Nat.le_of_eq (nodeWeight_plain hplain)) ((legible_plain hplain).mpr ⟨rfl, hfirst⟩)

/-- A name costs more between quotes, and has to be a word without. -/
theorem nodeCovered_name_word (h : IsWord text) :
    NodeCovered .ident text (weight Kind.ident.token.toList + (Token.word text).weight) :=
  fun _ _ => .of_le (Nat.le_of_eq nodeWeight_name) h

theorem nodeCovered_name_quoted (text : String) :
    NodeCovered .ident text (weight Kind.ident.token.toList + (Token.quoted text).weight) := by
  intro children _
  have hlt := weight_lt_encode text
  refine .of_lt ?_
  rw [nodeWeight_name, Token.weight]
  omega

theorem textOf?_eq_some {x : Token} {s : String} (h : Reader.textOf? kind x = some s) :
    kind = .stringLit ∧ x = .quoted s ∨
      (kind = .intLit ∨ kind = .floatLit) ∧ x = .word s ∨
      (kind = .package ∨ kind = .sourceModule) ∧ x = .quoted s := by
  unfold Reader.textOf? at h
  split at h <;> simp_all

theorem nodeCovered_text {x : Token} {s : String} (h : Reader.textOf? kind x = some s)
    (hword : ∀ w, x = .word w → IsWord w) :
    NodeCovered kind s (weight kind.token.toList + x.weight) := by
  have hpos := (kind.isWord_token).one_le_weight
  intro children _
  rcases textOf?_eq_some h with ⟨rfl, rfl⟩ | ⟨hkind, rfl⟩ | ⟨hkind, rfl⟩
  · have hquoted := weight_lt_encode s
    cases children with
    | nil => exact .of_le (Nat.le_add_left _ _) (.inl rfl)
    | cons child children =>
      exact .of_lt (by simp only [nodeWeight, head, Token.weight]; omega)
  · have hs := (hword s rfl).one_le_weight
    cases children with
    | nil => exact .of_lt (by rw [nodeWeight, leaf_number hkind, Token.weight]; omega)
    | cons child children =>
      exact .of_lt (by rw [nodeWeight, head_number hkind, Token.weight]; omega)
  · refine .of_le ?_ (legible_file hkind)
    rw [nodeWeight_file hkind, Token.weight]
    split <;> omega

theorem nodeCovered_other {w : String} (hword : IsWord w)
    (hkind : (Kind.ofWord? (unplaced w)).getD .other = .other) :
    NodeCovered .other (unplaced w) (weight w.toList) := by
  intro children _
  have hne : unplaced w ≠ "" := hword.unplaced.1
  have hweight : nodeWeight .other (unplaced w) children = weight (unplaced w).toList := by
    cases children <;> simp [nodeWeight, leaf, head, hne]
  rcases weight_unplaced hword with heq | hlt
  · refine .of_le (by rw [hweight, heq]) (.inr ⟨hword.unplaced, by rw [heq, heq], hkind⟩)
  · exact .of_lt (by rwa [hweight])

theorem treeCovered_leaf (h : NodeCovered kind text n) (hdef : kind.isTypeDefinition = false) :
    TreeCovered (.node kind text []) n := by
  have hnode := h [] fun htrue => by rw [hdef] at htrue; cases htrue
  refine ⟨hnode.le, fun heq => ?_⟩
  rw [everywhere_node]
  exact ⟨hnode.good_of_eq heq, by simp⟩

theorem treeCovered_token (hname : kind ≠ .ident) (hdef : kind.isTypeDefinition = false) :
    TreeCovered (.node kind "" []) (weight kind.token.toList) := by
  by_cases hother : kind = .other
  · subst hother
    exact .of_le (Nat.le_refl _) (everywhere_node.mpr ⟨.inl ⟨rfl, rfl⟩, by simp⟩)
  · exact treeCovered_leaf (nodeCovered_token hname hother) hdef

theorem treeCovered_number {w : String} (hword : IsWord w)
    (hkind : numberKind? (unplaced w) = some kind) :
    TreeCovered (.node kind (unplaced w) []) (weight w.toList) := by
  have hnumber := numberKind?_eq_some hkind
  rw [TreeCovered, flat, leaf_number hnumber]
  rcases weight_unplaced hword with heq | hlt
  · refine .of_le (by rw [heq]) ?_
    rw [everywhere_node]
    have hplace : unplaced (unplaced w) = unplaced w := by rw [heq, heq]
    exact ⟨(legible_number hnumber).mpr ⟨hword.unplaced, hplace, hkind⟩, by simp⟩
  · exact .of_lt hlt

theorem treeCovered_node (hnode : NodeCovered kind text m) (hchildren : TreesCovered children n)
    (hfirst : kind.isTypeDefinition = true → children.head?.any (·.kind == .ident) = true) :
    TreeCovered (.node kind text children) (m + n) := by
  have hboth := (hnode children hfirst).add hchildren
  rw [TreeCovered, weight_flat]
  refine ⟨hboth.le, fun heq => ?_⟩
  rw [everywhere_node]
  exact hboth.good_of_eq heq

theorem TreesCovered.append (hchildren : TreesCovered children n) (ht : TreeCovered t m) :
    TreesCovered (children ++ [t]) (n + m) := by
  have hboth := hchildren.add ht
  have hweight : flatWeight (children ++ [t]) = flatWeight children + weight (flat t).toList := by
    rw [flatWeight_append, flatWeight_cons]
    rfl
  rw [TreesCovered, hweight]
  refine ⟨hboth.le, fun heq => ?_⟩
  obtain ⟨hall, hlast⟩ := hboth.good_of_eq heq
  intro u hu
  rcases List.mem_append.mp hu with hu | hu
  · exact hall u hu
  · rw [List.mem_singleton.mp hu]
    exact hlast

end Tree

/-! ### What reading costs -/

namespace Dump.Outline

open PonyLens.Tree

inductive FramesCovered : List Frame → Nat → Prop
  | nil : FramesCovered [] 0
  | cons {f : Frame} {fs : List Frame} {k m n : Nat} (node : NodeCovered f.kind f.text k)
    (children : TreesCovered f.children m) (rest : FramesCovered fs n) :
    FramesCovered (f :: fs) (k + m + n)

/-- What has been paid for a node that is not yet there, or for the whole tree. -/
inductive Expecting.Covered : Expecting → Nat → Prop
  | root : Covered .root 0
  | kind : Covered .kind 0
  | name : Covered .name (weight Kind.ident.token.toList)
  | text {kind : Kind} (h : Reader.mayHaveText kind = true) :
    Covered (.text kind) (weight kind.token.toList)
  | child : Covered .child 0
  | nothing {t : Tree} {n : Nat} (h : TreeCovered t n) : Covered (.nothing t) n

/-- Whether tokens of weight `n` pay for all that has been read. -/
def Paid (o : Outline) (n : Nat) : Prop :=
  ∃ k m, FramesCovered o.frames k ∧ o.expecting.Covered m ∧ k + m ≤ n

variable {o o' : Outline} {kind : Kind} {text : String} {t : Tree} {fs : List Frame} {x : Token}
  {k m n : Nat}

theorem paid_complete (h : FramesCovered o.frames k) (ht : TreeCovered t m) (hle : k + m ≤ n) :
    (o.complete t).Paid n := by
  obtain ⟨frames, expecting⟩ := o
  cases h with
  | nil => exact ⟨0, m, .nil, .nothing ht, hle⟩
  | cons node children rest =>
    exact ⟨_, 0, .cons node (children.append ht) rest, .child, by omega⟩

theorem paid_beginNode (h : FramesCovered o.frames k) (hnode : NodeCovered kind text m)
    (hle : k + m ≤ n) : (o.beginNode kind text).Paid n := by
  have hnil : TreesCovered [] 0 := .of_le (Nat.le_refl 0) (by simp)
  exact ⟨_, 0, .cons hnode hnil h, .child, by omega⟩

theorem paid_close (h : FramesCovered o.frames n) (hclose : o.close = some o') : o'.Paid n := by
  obtain ⟨frames, expecting⟩ := o
  cases h with
  | nil => cases hclose
  | @cons f fs k m n node children rest =>
    simp only [close] at hclose
    split at hclose
    · cases hclose
    · rename_i hcheck
      cases hclose
      refine paid_complete rest (treeCovered_node node children ?_) (by omega)
      intro hdef
      simpa [hdef] using hcheck

theorem paid_bareWord {w : String} (h : FramesCovered o.frames k) (hword : IsWord w)
    (hle : k + weight w.toList ≤ n) (hbare : o.bareWord w = some o') : o'.Paid n := by
  simp only [bareWord] at hbare
  cases hnumber : numberKind? (unplaced w) with
  | some kind =>
    rw [hnumber] at hbare
    cases hbare
    exact paid_complete h (treeCovered_number hword hnumber) hle
  | none =>
    rw [hnumber] at hbare
    cases hkind : Kind.ofWord? (unplaced w) with
    | none =>
      rw [hkind] at hbare
      cases hbare
      have hother : (Kind.ofWord? (unplaced w)).getD .other = .other := by rw [hkind]; rfl
      exact paid_complete h (treeCovered_leaf (nodeCovered_other hword hother) rfl) hle
    | some kind =>
      rw [hkind] at hbare
      dsimp only at hbare
      split at hbare
      · cases hbare
      · rename_i hcheck
        cases hbare
        have htoken := Nat.le_trans (weight_token_le hkind) (weight_unplaced_le hword)
        simp only [Bool.or_eq_true, beq_iff_eq, not_or, Bool.not_eq_true] at hcheck
        refine paid_complete h (treeCovered_token hcheck.1 hcheck.2) (m := _) ?_
        omega

theorem paid_start (h : FramesCovered o.frames k) (hword : ∀ w, x = .word w → IsWord w)
    (hle : k + x.weight ≤ n) (hstart : o.start x = some o') : o'.Paid n := by
  simp only [start] at hstart
  split at hstart
  · cases hstart
  · cases x with
    | opening =>
      cases hstart
      exact ⟨k, 0, h, .kind, hle⟩
    | closing => cases hstart
    | word w => exact paid_bareWord h (hword w rfl) hle hstart
    | quoted s =>
      cases hstart
      have hstring : TreeCovered (.node .stringLit s []) (Token.quoted s).weight :=
        .of_le (Nat.le_refl _) (everywhere_node.mpr ⟨.inl rfl, by simp⟩)
      exact paid_complete h hstring hle

theorem paid_childOrClose (h : FramesCovered o.frames k) (hword : ∀ w, x = .word w → IsWord w)
    (hle : k + x.weight ≤ n) (hfeed : o.childOrClose x = some o') : o'.Paid n := by
  cases x with
  | closing =>
    obtain ⟨k', m, hframes, hexpecting, hle'⟩ := paid_close h hfeed
    exact ⟨k', m, hframes, hexpecting, by omega⟩
  | opening => exact paid_start h hword hle hfeed
  | word w => exact paid_start h hword hle hfeed
  | quoted s => exact paid_start h hword hle hfeed

theorem weight_kindOf_le {w : String} (hword : IsWord w) (hother : kindOf w ≠ .other) :
    weight (kindOf w).token.toList ≤ weight w.toList := by
  refine Nat.le_trans ?_ (weight_unplaced_le hword)
  rw [kindOf] at hother ⊢
  cases hkind : Kind.ofWord? (unplaced w) with
  | none => exact absurd (by rw [hkind]; rfl) hother
  | some kind => exact weight_token_le hkind

theorem paid_kindWord {w : String} (h : FramesCovered o.frames k) (hword : IsWord w)
    (hle : k + weight w.toList ≤ n) : (o.kindWord w).Paid n := by
  rw [kindWord]
  by_cases hother : kindOf w = .other
  · rw [hother]
    exact paid_beginNode h (nodeCovered_other hword hother) hle
  · have htoken := weight_kindOf_le hword hother
    by_cases hname : kindOf w = .ident
    · rw [if_pos hname]
      rw [hname] at htoken
      exact ⟨k, _, h, .name, by omega⟩
    · rw [if_neg hname, if_neg hother]
      split
      · exact ⟨k, _, h, .text ‹_›, by omega⟩
      · exact paid_beginNode h (nodeCovered_token hname hother) (by omega)

/-- The next token pays for what it adds. -/
theorem Paid.feed (h : o.Paid n) (hword : ∀ w, x = .word w → IsWord w)
    (hfeed : o.feed x = some o') : o'.Paid (n + x.weight) := by
  obtain ⟨frames, expecting⟩ := o
  obtain ⟨k, m, hframes, hexpecting, hle⟩ := h
  have hnode : k + (m + x.weight) ≤ n + x.weight := by omega
  cases hexpecting with
  | root => exact paid_start hframes hword (by omega) hfeed
  | child => exact paid_childOrClose hframes hword (by omega) hfeed
  | nothing _ => cases hfeed
  | kind => cases x with
    | word w =>
      have heq : (⟨frames, .kind⟩ : Outline).kindWord w = o' := Option.some.inj hfeed
      subst heq
      exact paid_kindWord hframes (hword w rfl) (by rwa [Nat.zero_add] at hnode)
    | opening => cases hfeed
    | closing => cases hfeed
    | quoted s => cases hfeed
  | name => cases x with
    | word s =>
      cases hfeed
      exact paid_beginNode hframes (nodeCovered_name_word (hword s rfl)) hnode
    | quoted s =>
      cases hfeed
      exact paid_beginNode hframes (nodeCovered_name_quoted s) hnode
    | opening => cases hfeed
    | closing => cases hfeed
  | @text kind hmay =>
    simp only [Outline.feed] at hfeed
    cases htext : Reader.textOf? kind x with
    | some s =>
      rw [htext] at hfeed
      cases hfeed
      exact paid_beginNode hframes (nodeCovered_text htext hword) hnode
    | none =>
      -- The token belongs to what follows, and the node has no text.
      rw [htext] at hfeed
      have hname : kind ≠ .ident := by rintro rfl; cases hmay
      have hother : kind ≠ .other := by rintro rfl; cases hmay
      have hnil : TreesCovered [] 0 := .of_le (Nat.le_refl 0) (by simp)
      have hbegun : FramesCovered ({ kind, text := "" } :: frames)
          (weight kind.token.toList + 0 + k) :=
        .cons (nodeCovered_token hname hother) hnil hframes
      exact paid_childOrClose (o := ⟨_, .child⟩) hbegun hword (by omega) hfeed

theorem Paid.feedAll {xs : List Token} (h : o.Paid n) (hwords : ∀ w, .word w ∈ xs → IsWord w)
    (hfeed : o.feedAll xs = some o') : o'.Paid (n + Token.weightAll xs) := by
  induction xs generalizing o n with
  | nil =>
    cases hfeed
    exact h
  | cons x xs ih =>
    rw [Outline.feedAll, List.foldlM_cons] at hfeed
    obtain ⟨next, hnext, hrest⟩ := Option.bind_eq_some_iff.mp hfeed
    have hpaid := h.feed (fun w hw => hwords w (hw ▸ List.mem_cons_self)) hnext
    rw [Token.weightAll, ← Nat.add_assoc]
    exact ih hpaid (fun w hw => hwords w (List.mem_cons_of_mem x hw)) hrest

end Dump.Outline

/-- A dump weighs no less than its tree when printed, and if no more, the tree is legible. -/
theorem Dump.treeCovered_of_treeOf? {source : String} {t : Tree} (h : treeOf? source = some t) :
    t.TreeCovered (weight source.toList) := by
  obtain ⟨hwords, hle⟩ := weighed_scan source
  rw [treeOf?] at h
  split at h
  · obtain ⟨o, hfeed, htree⟩ := Option.bind_eq_some_iff.mp h
    have hstart : Outline.Paid {} 0 := ⟨0, 0, .nil, .root, Nat.le_refl 0⟩
    obtain ⟨k, m, _, hexpecting, hsum⟩ := hstart.feedAll hwords hfeed
    rw [Outline.tree?] at htree
    split at htree
    · rename_i heq
      cases htree
      rw [heq] at hexpecting
      cases hexpecting with
      | nothing hcovered => exact hcovered.mono (by omega)
    · cases htree
  · cases h

end PonyLens
