import PonyLens.Proofs.Arena.Names
import PonyLens.Word

/-!
# Name tables over time

Names and atoms are one-to-one in a table, and stay so whatever is asked of it: what it has handed
out once is good for all time. So atoms from different times can be compared in the place of texts,
and the text of a node never changes. The same holds of a store that keeps its names twice, by name
and by atom, as long as there are words to count them.
-/

namespace PonyLens

namespace NameTable

inductive Call where
  | intern (name : String)
  | internCommon
  | get (name : String)
  | text (atom : Atom)
deriving DecidableEq, Repr

/-- The names that a call stores, unless they are stored already. -/
def Call.names : Call → List String
  | .intern name => [name]
  | .internCommon => common
  | .get _ | .text _ => []

def perform (t : NameTable) : Call → NameTable
  | .intern name => (t.intern name).2
  | .internCommon => t.internCommon
  | .get _ | .text _ => t

def after (t : NameTable) (calls : List Call) : NameTable := calls.foldl perform t

variable {t : NameTable} {atom : Atom} {name other : String}

/-! ### What is stored stays -/

theorem internAll_append (t : NameTable) (names more : List String) :
    t.internAll (names ++ more) = (t.internAll names).internAll more := List.foldl_append

/-- What calls come to is that their names are stored in order. -/
theorem after_eq_internAll (t : NameTable) (calls : List Call) :
    t.after calls = t.internAll (calls.flatMap Call.names) := by
  induction calls generalizing t with
  | nil => rfl
  | cons call calls ih =>
    have hperform : t.perform call = t.internAll call.names := by cases call <;> rfl
    rw [List.flatMap_cons, internAll_append, ← hperform]
    exact ih (t.perform call)

theorem Has.internAll (h : t.Has atom name) (names : List String) :
    (t.internAll names).Has atom name := by
  induction names generalizing t with
  | nil => exact h
  | cons first names ih => exact ih (h.intern first)

theorem Has.after (h : t.Has atom name) (calls : List Call) : (t.after calls).Has atom name := by
  rw [after_eq_internAll]
  exact h.internAll _

theorem Sound.after (h : t.Sound) (calls : List Call) : (t.after calls).Sound := by
  rw [after_eq_internAll]
  exact h.internAll _

theorem Sound.eq_empty_iff (h : t.Sound) (hatom : t.Has atom name) : atom = .empty ↔ name = "" := by
  constructor
  · rintro rfl
    exact hatom.2.symm.trans h.has_empty.2
  · rintro rfl
    exact h.unique hatom h.has_empty

theorem Sound.getElem?_zero (h : t.Sound) : t.names[0]? = some "" := by
  obtain ⟨hlt, htext⟩ := h.has_empty
  have hlt : 0 < t.names.size := hlt
  rw [Array.getElem?_eq_getElem hlt, ← htext]
  simp [text, Atom.empty, hlt]

theorem Sound.intern_eq_intern_iff (h : t.Sound) (name other : String) (later : List Call) :
    (t.intern name).1 = (((t.intern name).2.after later).intern other).1 ↔ name = other := by
  have hsound : ((t.intern name).2.after later).Sound := (h.intern name).after later
  have hname := ((t.has_intern name).after later).intern other
  have hother := ((t.intern name).2.after later).has_intern other
  constructor
  · intro heq
    exact hname.2.symm.trans (heq ▸ hother.2)
  · rintro rfl
    exact (hsound.intern name).unique hname hother

/-! ### Storing one more name -/

theorem intern_of_get?_eq_some (h : t.get? name = some atom) : t.intern name = (atom, t) := by
  rw [intern, h]

theorem intern_of_get?_eq_none (h : t.get? name = none) :
    t.intern name = (⟨t.size⟩, ⟨t.names.push name⟩) := by
  rw [intern, h]

theorem get?_push (names : Array String) (name other : String) :
    get? ⟨names.push name⟩ other =
      (get? ⟨names⟩ other).or (if other = name then some ⟨names.size⟩ else none) := by
  obtain ⟨names⟩ := names
  have hlast : (([name] : List String).findIdx? (· == other)).map (· + names.length) =
      if other = name then some names.length else none := by
    by_cases hother : other = name
    · simp [hother]
    · simp [hother, Ne.symm hother]
  simp only [get?, List.push_toArray, List.idxOf?_toArray, List.idxOf?, List.findIdx?_append, hlast,
    Option.map_or, List.size_toArray]
  split <;> rfl

theorem get?_intern (t : NameTable) (name other : String) :
    (t.intern name).2.get? other =
      if other = name then some (t.intern name).1 else t.get? other := by
  cases hget : t.get? name with
  | some atom =>
    rw [intern_of_get?_eq_some hget]
    split
    · rename_i heq
      rw [heq, hget]
    · rfl
  | none =>
    rw [intern_of_get?_eq_none hget, get?_push]
    split
    · rename_i heq
      have hother : t.get? other = none := by rw [heq, hget]
      exact (congrArg (Option.or · _) hother).trans Option.none_or
    · exact Option.or_none

theorem size_le_intern (t : NameTable) (name : String) : t.size ≤ (t.intern name).2.size := by
  cases hget : t.get? name with
  | some atom => simp [intern_of_get?_eq_some hget]
  | none => simp [intern_of_get?_eq_none hget, size]

theorem size_le_internAll (t : NameTable) (names : List String) :
    t.size ≤ (t.internAll names).size := by
  induction names generalizing t with
  | nil => exact Nat.le_refl t.size
  | cons name names ih => exact Nat.le_trans (t.size_le_intern name) (ih (t.intern name).2)

end NameTable

/-! ### Names in two stores -/

/-- Names that are stored twice: with their atoms, and in the order of their atoms. -/
structure NameIndex where
  atoms : List (String × Atom)
  names : Array String
deriving DecidableEq, Repr

namespace NameIndex

def empty : NameIndex := ⟨[("", .empty)], #[""]⟩

def get? (x : NameIndex) (name : String) : Option Atom := x.atoms.lookup name

/-- The atom of a name, which goes to both stores if it is new. An atom is a word, and stops at the
largest one. -/
def intern (x : NameIndex) (name : String) : Atom × NameIndex :=
  match x.get? name with
  | some atom => (atom, x)
  | none =>
    let atom : Atom := ⟨min x.names.size Word.max⟩
    (atom, ⟨(name, atom) :: x.atoms, x.names.push name⟩)

def internAll (x : NameIndex) (names : List String) : NameIndex :=
  names.foldl (fun x name => (x.intern name).2) x

def after (x : NameIndex) (calls : List NameTable.Call) : NameIndex :=
  calls.foldl (fun x call => x.internAll call.names) x

/-- Whether both stores hold what a table holds. -/
structure Mirrors (x : NameIndex) (t : NameTable) : Prop where
  names_eq : x.names = t.names
  get?_eq (name : String) : x.get? name = t.get? name

variable {x : NameIndex} {t : NameTable} {atom : Atom} {name : String}

theorem after_eq_internAll (x : NameIndex) (calls : List NameTable.Call) :
    x.after calls = x.internAll (calls.flatMap NameTable.Call.names) := by
  rw [after, internAll, List.foldl_flatMap]
  rfl

theorem intern_of_get?_eq_some (h : x.get? name = some atom) : x.intern name = (atom, x) := by
  rw [intern, h]

theorem intern_of_get?_eq_none (h : x.get? name = none) :
    x.intern name = (⟨min x.names.size Word.max⟩,
      ⟨(name, ⟨min x.names.size Word.max⟩) :: x.atoms, x.names.push name⟩) := by
  rw [intern, h]

theorem mirrors_empty : Mirrors empty .empty where
  names_eq := rfl
  get?_eq name := by
    by_cases hname : name = ""
    · subst hname
      simp [get?, empty, NameTable.get?, NameTable.empty, Atom.empty, List.idxOf?_cons]
    · simp [get?, empty, NameTable.get?, NameTable.empty, List.lookup_cons,
        beq_eq_false_iff_ne.mpr hname, Ne.symm hname]

/-- The same atom is handed out, and both go on holding the same, unless the words have run out. -/
theorem Mirrors.intern (h : x.Mirrors t) (hsize : t.size ≤ Word.max) (name : String) :
    (x.intern name).1 = (t.intern name).1 ∧ (x.intern name).2.Mirrors (t.intern name).2 := by
  cases hget : t.get? name with
  | some atom =>
    rw [intern_of_get?_eq_some ((h.get?_eq name).trans hget),
      NameTable.intern_of_get?_eq_some hget]
    exact ⟨rfl, h⟩
  | none =>
    have hnew := (h.get?_eq name).trans hget
    have hatom : (x.intern name).1 = (t.intern name).1 := by
      rw [intern_of_get?_eq_none hnew, NameTable.intern_of_get?_eq_none hget, h.names_eq]
      exact congrArg Atom.mk (Nat.min_eq_left hsize)
    refine ⟨hatom, ?_, fun other => ?_⟩
    · rw [intern_of_get?_eq_none hnew, NameTable.intern_of_get?_eq_none hget, h.names_eq]
    · rw [NameTable.get?_intern, ← hatom, ← h.get?_eq, intern_of_get?_eq_none hnew, get?,
        List.lookup_cons]
      by_cases hother : other = name
      · rw [if_pos hother, beq_iff_eq.mpr hother]
      · rw [if_neg hother, beq_eq_false_iff_ne.mpr hother, get?]

/-- By induction on the names. There are enough words if they are enough in the end. -/
theorem Mirrors.internAll (h : x.Mirrors t) (names : List String)
    (hsize : (t.internAll names).size ≤ Word.max) :
    (x.internAll names).Mirrors (t.internAll names) := by
  induction names generalizing x t with
  | nil => exact h
  | cons name names ih =>
    have hafter : (t.intern name).2.size ≤ Word.max :=
      Nat.le_trans (NameTable.size_le_internAll _ names) hsize
    have hbefore := Nat.le_trans (t.size_le_intern name) hafter
    exact ih (h.intern hbefore name).2 hsize

theorem Mirrors.after (h : x.Mirrors t) (calls : List NameTable.Call)
    (hsize : (t.after calls).size ≤ Word.max) : (x.after calls).Mirrors (t.after calls) := by
  rw [NameTable.after_eq_internAll] at hsize ⊢
  rw [after_eq_internAll]
  exact h.internAll _ hsize

end NameIndex

/-! ### Nodes -/

namespace Arena

variable {a b : Arena} {lost : List (NodeId × NodeId)} {n : Nat}

theorem Steps.size_le (h : a.Steps b lost) : a.size ≤ b.size := by
  induction h with
  | refl => exact Nat.le_refl a.size
  | addNode _ kind text location ih => simpa using Nat.le_succ_of_le ih
  | join _ m _ _ ih => simpa using ih
  | setLocation _ l location ih => rwa [size_setLocation]

theorem Steps.atom_eq (h : a.Steps b lost) (hn : n < a.size) :
    b.atom (some n) = a.atom (some n) := by
  induction h with
  | refl => rfl
  | addNode h kind text location ih =>
    rw [atom_addNode _ kind text location (Nat.lt_of_lt_of_le hn h.size_le), ih]
  | join _ m _ _ ih => rw [atom_join, ih]
  | setLocation _ l location ih => rw [atom_setLocation, ih]

/-- A node keeps its text, although its atom is looked up in a table that grows. -/
theorem Steps.text_eq (ha : a.Named) (h : a.Steps b lost) (hn : n < a.size) :
    b.text (some n) = a.text (some n) := by
  induction h with
  | refl => rfl
  | @addNode b _ h kind text location ih =>
    have hlt : n < b.size := Nat.lt_of_lt_of_le hn h.size_le
    rw [text_addNode (ha.steps h) kind text location (Nat.le_of_lt hlt), if_neg (Nat.ne_of_lt hlt),
      ih]
  | join _ m _ _ ih => rw [text_join, ih]
  | setLocation _ l location ih => rw [text_setLocation, ih]

theorem Steps.atom_eq_atom_iff (ha : a.Named) (h : a.Steps b lost) {m : Nat} (hm : m < a.size)
    (hn : n < b.size) :
    a.atom (some m) = b.atom (some n) ↔ a.text (some m) = b.text (some n) := by
  have hb := ha.steps h
  rw [← h.atom_eq hm, ← h.text_eq ha hm, eq_comm, eq_comm (a := b.text _)]
  exact hb.atom_eq_iff (hb.has_text (Nat.lt_of_lt_of_le hm h.size_le)) hn

end Arena

/-- However a table is used, it holds each name once and the empty one first, and its names and the
atoms that it has handed out are one-to-one. A name that is stored gets an atom with this text. No
later call changes the text of an atom or the atom of a name, so names stored at any times have one
atom exactly if they are one name. As long as there are words for all of them, two stores by name
and by atom do the same. And in an arena no node ever changes its text, and atoms of nodes may be
compared in the place of texts. -/
theorem NameTable.one_to_one_after (calls : List NameTable.Call) :
    let t := NameTable.empty.after calls
    (t.names.toList.Nodup ∧ t.names[0]? = some "") ∧
    (∀ name atom, t.get? name = some atom ↔ t.text atom = name ∧ atom.index < t.size) ∧
    (∀ atom, atom.index < t.size → (atom.isEmpty = true ↔ t.text atom = "")) ∧
    (∀ name, (t.intern name).2.text (t.intern name).1 = name ∧
      ((t.intern name).1.isEmpty = true ↔ name = "")) ∧
    (∀ later,
      (∀ atom, atom.index < t.size → (t.after later).text atom = t.text atom) ∧
      (∀ name atom, t.get? name = some atom → (t.after later).get? name = some atom) ∧
      ∀ name other,
        (t.intern name).1 = (((t.intern name).2.after later).intern other).1 ↔ name = other) ∧
    (t.size ≤ Word.max →
      (NameIndex.empty.after calls).names = t.names ∧
      ∀ name, (NameIndex.empty.after calls).get? name = t.get? name ∧
        ((NameIndex.empty.after calls).intern name).1 = (t.intern name).1) ∧
    ∀ ops later : List Arena.Operation,
      ∀ m < (Arena.empty.after ops).size,
        ((Arena.empty.after ops).after later).text (some m) =
          (Arena.empty.after ops).text (some m) ∧
        ∀ n < ((Arena.empty.after ops).after later).size,
          (Arena.empty.after ops).atom (some m) =
              ((Arena.empty.after ops).after later).atom (some n) ↔
            (Arena.empty.after ops).text (some m) =
              ((Arena.empty.after ops).after later).text (some n) := by
  intro t
  have hsound : t.Sound := sound_empty.after calls
  refine ⟨⟨hsound.nodup, hsound.getElem?_zero⟩, fun name atom => ?_, fun atom hatom => ?_,
    fun name => ⟨(t.has_intern name).2, ?_⟩, fun later => ⟨fun atom hatom => ?_,
      fun name atom hget => ?_, fun name other => hsound.intern_eq_intern_iff name other later⟩,
    fun hsize => ?_, fun ops later m hm => ?_⟩
  · rw [hsound.get?_eq_some_iff, Has, and_comm]
  · exact beq_iff_eq.trans (hsound.eq_empty_iff ⟨hatom, rfl⟩)
  · exact beq_iff_eq.trans ((hsound.intern name).eq_empty_iff (t.has_intern name))
  · have hhas : t.Has atom (t.text atom) := ⟨hatom, rfl⟩
    exact (hhas.after later).2
  · rw [(hsound.after later).get?_eq_some_iff]
    exact (has_of_get? hget).after later
  · have hmirrors : (NameIndex.empty.after calls).Mirrors t :=
      NameIndex.mirrors_empty.after calls hsize
    exact ⟨hmirrors.names_eq, fun name =>
      ⟨hmirrors.get?_eq name, (hmirrors.intern hsize name).1⟩⟩
  · have hnamed := Arena.named_after ops
    have hsteps := (Arena.empty.after ops).steps_after later
    exact ⟨hsteps.text_eq hnamed hm, fun n hn => hsteps.atom_eq_atom_iff hnamed hm hn⟩

end PonyLens
