import PonyLens.Proofs.Dump.Isolation

/-!
# What can be done to an arena

Nodes are added and attached, dumps are read. Whatever is done consists of three steps: a node is
added, it gets a place, or a node without a parent is joined to another one. An attachment to a
number that no node has is possible; such attachments are noted.
-/

namespace PonyLens.Arena

inductive Operation where
  | read (source : String)
  | addNode (kind : Kind) (text : String) (location : Location)
  | add (kind : Kind) (text : String) (children : List Link)
  | appendChild (parent child : Link)
  | setLocation (l : Link) (location : Location)
deriving DecidableEq, Repr

/-- The arena after an operation. One that stops midway leaves what it has done. -/
def apply (a : Arena) : Operation → Arena
  | .read source => (Dump.read a source).2
  | .addNode kind text location => (a.addNode kind text location).2
  | .add kind text children => (a.add kind text children).1
  | .appendChild parent child => (a.appendChild parent child).toOption.getD a
  | .setLocation l location => a.setLocation l location

def after (a : Arena) (ops : List Operation) : Arena := ops.foldl apply a

/-- The child and the parent if the operation attaches a node to a number without a node. -/
def strands (a : Arena) : Operation → List (NodeId × NodeId)
  | .appendChild (some p) (some c) =>
    if a.size ≤ p ∧ (a.appendChild (some p) (some c)).isOk then [(c, p)] else []
  | _ => []

def stranded (a : Arena) : List Operation → List (NodeId × NodeId)
  | [] => []
  | op :: ops => a.strands op ++ (a.apply op).stranded ops

/-- Whether the second arena comes from the first one by steps, and the pairs are the joins to
numbers without a node. -/
inductive Steps (a : Arena) : Arena → List (NodeId × NodeId) → Prop
  | refl : Steps a a []
  | addNode {b : Arena} {lost : List (NodeId × NodeId)} (h : Steps a b lost) (kind : Kind)
    (text : String) (location : Location) : Steps a (b.addNode kind text location).2 lost
  | join {b : Arena} {lost : List (NodeId × NodeId)} {n : NodeId} {node : Node}
    (h : Steps a b lost) (m : NodeId) (hnode : b.nodes[n]? = some node)
    (hparent : node.parent = none) :
    Steps a (b.join m n) (lost ++ if b.size ≤ m then [(n, m)] else [])
  | setLocation {b : Arena} {lost : List (NodeId × NodeId)} (h : Steps a b lost) (l : Link)
    (location : Location) : Steps a (b.setLocation l location) lost

variable {a b c : Arena} {lost lost' : List (NodeId × NodeId)} {m n : Nat} {node : Node}

/-! ### Attachments -/

/-- An attachment to a node is refused, or it joins a node without a parent to it. -/
theorem appendChild_some_cases (a : Arena) (m : Nat) (child : Link) :
    (∃ e, a.appendChild (some m) child = .error e) ∨
    ∃ n node, child = some n ∧ a.nodes[n]? = some node ∧ node.parent = none ∧
      a.appendChild (some m) child = .ok (a.join m n) := by
  cases child with
  | none => exact .inl ⟨_, rfl⟩
  | some n => cases hnode : a.nodes[n]? with
    | none =>
      refine .inl ⟨⟨some n⟩, ?_⟩
      simp only [appendChild, get?, Option.bind_some, hnode]
    | some node =>
      obtain ⟨kind, text, location, parent, children⟩ := node
      cases parent with
      | none => exact .inr ⟨n, _, rfl, hnode, rfl, appendChild_eq_join m hnode rfl⟩
      | some p =>
        refine .inl ⟨⟨some n⟩, ?_⟩
        simp only [appendChild, get?, Option.bind_some, hnode]

/-- An attachment to no node is refused, or it changes nothing. -/
theorem appendChild_none_cases (a : Arena) (child : Link) :
    (∃ e, a.appendChild none child = .error e) ∨ a.appendChild none child = .ok a := by
  cases child with
  | none => exact .inl ⟨_, rfl⟩
  | some n => cases hnode : a.nodes[n]? with
    | none =>
      refine .inl ⟨⟨some n⟩, ?_⟩
      simp only [appendChild, get?, Option.bind_some, hnode]
    | some node =>
      obtain ⟨kind, text, location, parent, children⟩ := node
      cases parent with
      | some p =>
        refine .inl ⟨⟨some n⟩, ?_⟩
        simp only [appendChild, get?, Option.bind_some, hnode]
      | none =>
        have hsame : a.nodes.modify n (fun node => { node with parent := none }) = a.nodes := by
          refine Array.ext_getElem? fun i => ?_
          rw [Array.getElem?_modify]
          split
          · subst i
            simp [hnode]
          · rfl
        refine .inr ?_
        simp only [appendChild, get?, Option.bind_some, hnode, modify, hsame]

/-! ### Steps -/

theorem Steps.trans (h : a.Steps b lost) (h' : b.Steps c lost') : a.Steps c (lost ++ lost') := by
  induction h' with
  | refl => rwa [List.append_nil]
  | addNode _ kind text location ih => exact ih.addNode kind text location
  | join _ m hnode hparent ih =>
    rw [← List.append_assoc]
    exact ih.join m hnode hparent
  | setLocation _ l location ih => exact ih.setLocation l location

theorem steps_join (hm : m < a.size) (hnode : a.nodes[n]? = some node)
    (hparent : node.parent = none) : a.Steps (a.join m n) [] := by
  have hjoin := Steps.refl.join m hnode hparent
  rwa [if_neg (Nat.not_le.mpr hm)] at hjoin

theorem Grows.steps (h : a.Grows b) : a.Steps b [] := by
  induction h with
  | refl => exact .refl
  | addNode _ kind text location ih => exact ih.addNode kind text location
  | join _ _ hmn hnode hparent ih =>
    have hn := (Array.getElem?_eq_some_iff.mp hnode).1
    exact ih.trans (steps_join (Nat.lt_trans hmn hn) hnode hparent)

theorem steps_appendChildren (hm : m < a.size) (children : List Link) :
    a.Steps (a.appendChildren (some m) children).1 [] := by
  induction children generalizing a with
  | nil => exact .refl
  | cons child rest ih =>
    rw [appendChildren]
    rcases a.appendChild_some_cases m child with ⟨e, herror⟩ | ⟨n, node, rfl, hnode, hparent, hok⟩
    · rw [herror]
      exact .refl
    · rw [hok]
      exact (steps_join hm hnode hparent).trans (ih (by simpa using hm))

theorem steps_apply (a : Arena) (op : Operation) : a.Steps (a.apply op) (a.strands op) := by
  cases op with
  | read source => exact (Dump.grows_read a source).steps
  | addNode kind text location => exact Steps.refl.addNode kind text location
  | add kind text children =>
    have hnew : a.size < (a.addNode kind text .unknown).2.size := by simp
    exact (Steps.refl.addNode kind text .unknown).trans (steps_appendChildren hnew children)
  | setLocation l location => exact Steps.refl.setLocation l location
  | appendChild parent child => cases parent with
    | none =>
      rw [apply, strands]
      · rcases a.appendChild_none_cases child with ⟨e, herror⟩ | hok
        · rw [herror]
          exact .refl
        · rw [hok]
          exact .refl
      · simp
    | some m =>
      rcases a.appendChild_some_cases m child with
        ⟨e, herror⟩ | ⟨n, node, rfl, hnode, hparent, hok⟩
      · have hnothing : a.strands (.appendChild (some m) child) = [] := by
          cases child with
          | none => rfl
          | some n => simp [strands, herror, Except.isOk, Except.toBool]
        rw [hnothing, apply, herror]
        exact .refl
      · have hjoin := Steps.refl.join m hnode hparent
        simpa [strands, apply, hok, Except.isOk, Except.toBool, Except.toOption] using hjoin

/-- What is done consists of steps, and the nodes that are stranded are those of its operations. -/
theorem steps_after (a : Arena) (ops : List Operation) :
    a.Steps (a.after ops) (a.stranded ops) := by
  induction ops generalizing a with
  | nil => exact .refl
  | cons op ops ih => exact (a.steps_apply op).trans (ih (a.apply op))

end PonyLens.Arena
