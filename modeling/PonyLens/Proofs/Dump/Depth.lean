import PonyLens.Proofs.Dump.Outline
import PonyLens.Proofs.Dump.Shape

/-!
# How deep a dump is read

A node is started only while fewer nodes are open than a dump may have levels. So no tree with more
levels is ever read.
-/

namespace PonyLens.Dump.Outline

/-- Whether the finished children leave no more levels below them than a dump may have. -/
inductive FramesFit : List Frame → Prop
  | nil : FramesFit []
  | cons {f : Frame} {fs : List Frame} (room : fs.length < Limits.dumpDepth)
    (children : ∀ t ∈ f.children, fs.length + 1 + t.height ≤ Limits.dumpDepth)
    (rest : FramesFit fs) : FramesFit (f :: fs)

inductive Expecting.Fits (depth : Nat) : Expecting → Prop
  | root : Fits depth .root
  | kind (room : depth < Limits.dumpDepth) : Fits depth .kind
  | name (room : depth < Limits.dumpDepth) : Fits depth .name
  | text (kind : Kind) (room : depth < Limits.dumpDepth) : Fits depth (.text kind)
  | child : Fits depth .child
  | nothing {t : Tree} (h : t.height ≤ Limits.dumpDepth) : Fits depth (.nothing t)

structure Fits (o : Outline) : Prop where
  frames : FramesFit o.frames
  expecting : o.expecting.Fits o.frames.length

variable {o o' : Outline} {kind : Kind} {text : String} {t : Tree} {x : Token}

theorem fits_complete (h : FramesFit o.frames)
    (ht : o.frames.length + t.height ≤ Limits.dumpDepth) : (o.complete t).Fits := by
  obtain ⟨frames, expecting⟩ := o
  cases h with
  | nil => exact ⟨.nil, .nothing (by simpa using ht)⟩
  | @cons f fs room children rest =>
    refine ⟨.cons room ?_ rest, .child⟩
    intro u hu
    rcases List.mem_append.mp hu with hu | hu
    · exact children u hu
    · rw [List.mem_singleton.mp hu]
      simpa using ht

theorem fits_leaf (h : FramesFit o.frames) (hroom : o.frames.length < Limits.dumpDepth) :
    (o.leaf kind text).Fits :=
  fits_complete h (by simpa [Tree.height, Tree.heightOf] using Nat.succ_le_of_lt hroom)

theorem fits_beginNode (h : FramesFit o.frames) (hroom : o.frames.length < Limits.dumpDepth) :
    (o.beginNode kind text).Fits :=
  ⟨.cons hroom (by simp) h, .child⟩

theorem fits_close (h : FramesFit o.frames) (hclose : o.close = some o') : o'.Fits := by
  obtain ⟨frames, expecting⟩ := o
  cases h with
  | nil => cases hclose
  | @cons f fs room children rest =>
    simp only [close] at hclose
    split at hclose
    · cases hclose
    · cases hclose
      have hheight : (Tree.node f.kind f.text f.children).height ≤
          Limits.dumpDepth - fs.length - 1 + 1 := by
        rw [Tree.height_node_le_iff]
        intro t ht
        have hchild := children t ht
        omega
      exact fits_complete rest (by dsimp only; omega)

theorem fits_bareWord {w : String} (h : FramesFit o.frames)
    (hroom : o.frames.length < Limits.dumpDepth) (hbare : o.bareWord w = some o') : o'.Fits := by
  simp only [bareWord] at hbare
  split at hbare
  · cases hbare
    exact fits_leaf h hroom
  · split at hbare
    · split at hbare
      · cases hbare
      · cases hbare
        exact fits_leaf h hroom
    · cases hbare
      exact fits_leaf h hroom

theorem fits_start (h : FramesFit o.frames) (hstart : o.start x = some o') : o'.Fits := by
  simp only [start] at hstart
  split at hstart
  · cases hstart
  · rename_i hroom
    rw [Nat.not_le] at hroom
    cases x with
    | opening =>
      cases hstart
      exact ⟨h, .kind hroom⟩
    | closing => cases hstart
    | word w => exact fits_bareWord h hroom hstart
    | quoted s =>
      cases hstart
      exact fits_leaf h hroom

theorem fits_childOrClose (h : FramesFit o.frames) (hfeed : o.childOrClose x = some o') :
    o'.Fits := by
  cases x with
  | closing => exact fits_close h hfeed
  | opening => exact fits_start (x := .opening) h hfeed
  | word w => exact fits_start (x := .word w) h hfeed
  | quoted s => exact fits_start (x := .quoted s) h hfeed

theorem fits_kindWord {w : String} (h : FramesFit o.frames)
    (hroom : o.frames.length < Limits.dumpDepth) : (o.kindWord w).Fits := by
  rw [kindWord]
  split
  · exact ⟨h, .name hroom⟩
  · split
    · exact fits_beginNode h hroom
    · split
      · exact ⟨h, .text _ hroom⟩
      · exact fits_beginNode h hroom

theorem Fits.feed (h : o.Fits) (hfeed : o.feed x = some o') : o'.Fits := by
  obtain ⟨frames, expecting⟩ := o
  obtain ⟨hframes, hexpecting⟩ := h
  cases hexpecting with
  | root => exact fits_start hframes hfeed
  | child => exact fits_childOrClose hframes hfeed
  | nothing _ => cases hfeed
  | kind hroom => cases x with
    | word w =>
      have heq : (⟨frames, .kind⟩ : Outline).kindWord w = o' := Option.some.inj hfeed
      subst heq
      exact fits_kindWord hframes hroom
    | opening => cases hfeed
    | closing => cases hfeed
    | quoted s => cases hfeed
  | name hroom => cases x with
    | word s =>
      cases hfeed
      exact fits_beginNode hframes hroom
    | quoted s =>
      cases hfeed
      exact fits_beginNode hframes hroom
    | opening => cases hfeed
    | closing => cases hfeed
  | text kind hroom =>
    simp only [Outline.feed] at hfeed
    split at hfeed
    · cases hfeed
      exact fits_beginNode hframes hroom
    · have hbegun : ((⟨frames, .text kind⟩ : Outline).beginNode kind "").Fits :=
        fits_beginNode hframes hroom
      exact fits_childOrClose hbegun.frames hfeed

theorem Fits.feedAll {xs : List Token} (h : o.Fits) (hfeed : o.feedAll xs = some o') : o'.Fits := by
  induction xs generalizing o with
  | nil =>
    cases hfeed
    exact h
  | cons x xs ih =>
    rw [Outline.feedAll, List.foldlM_cons] at hfeed
    obtain ⟨next, hnext, hrest⟩ := Option.bind_eq_some_iff.mp hfeed
    exact ih (h.feed hnext) hrest

theorem height_le_of_outline? {xs : List Token} (h : outline? xs = some t) :
    t.height ≤ Limits.dumpDepth := by
  obtain ⟨o, hfeed, htree⟩ := Option.bind_eq_some_iff.mp h
  have hstart : Fits {} := ⟨.nil, .root⟩
  have hexpecting := (hstart.feedAll hfeed).expecting
  rw [tree?] at htree
  split at htree
  · rename_i heq
    cases htree
    rw [heq] at hexpecting
    cases hexpecting with
    | nothing hheight => exact hheight
  · cases htree

end PonyLens.Dump.Outline
