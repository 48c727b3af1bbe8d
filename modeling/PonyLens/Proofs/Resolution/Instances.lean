import PonyLens.Proofs.Resolution.Related

/-!
# What holds of all instances

A type is a chain of instances. A resolution makes instances of definitions and binds arguments to
them; all others it has from its context and its bindings. So what holds of every instance of a
definition, whatever its arguments, is handed on from the types that a question starts from to those
that it comes to. To say it of a type is to relate the type to itself, and then it follows from what
is known of related contexts.
-/

namespace PonyLens

/-- Whether what is said of instances holds of all definitions, and of their instances with
arguments. -/
structure Instance.IsKept (a : Arena) (Q : Instance → Prop) : Prop where
  ofDefinition : ∀ {l : Link} {t : NominalType}, NominalType.ofDefinition? a l = some t → Q t.head
  withArgs : ∀ {i : Instance} (l : Link), Q i →
    Q { i with args := some ((List.range i.typeParams.length).map fun n => a.child l n) }

def Member.types (m : Member) : List NominalType :=
  m.type.toList ++ m.params.filterMap MemberParam.type

namespace NominalType

/-- Whether something holds of all instances of a type, all the way out. -/
def Everywhere (t : NominalType) (Q : Instance → Prop) : Prop := ∀ i ∈ t.head :: t.outers, Q i

variable {a : Arena} {Q : Instance → Prop} {t o : NominalType}

theorem Everywhere.head (h : t.Everywhere Q) : Q t.head := h _ List.mem_cons_self

theorem Everywhere.outer (h : t.Everywhere Q) (houter : t.outer? = some o) : o.Everywhere Q := by
  obtain ⟨head, outers⟩ := t
  cases outers with
  | nil => cases houter
  | cons i outers =>
    cases houter
    exact fun i hi => h i (List.mem_cons_of_mem head hi)

/-- It also holds of the type that the arguments are resolved in. -/
theorem Everywhere.context (h : t.Everywhere Q) : (t.outer?.getD t).Everywhere Q := by
  cases houter : t.outer? with
  | none => exact h
  | some o => exact h.outer houter

theorem outers_of_ofDefinition? {l : Link} (h : ofDefinition? a l = some t) : t.outers = [] := by
  obtain ⟨_, _, _, _, _, _, _, rfl⟩ := exists_of_ofDefinition? h
  rfl

theorem everywhere_of_ofDefinition? (hQ : Instance.IsKept a Q) {l : Link}
    (h : ofDefinition? a l = some t) : t.Everywhere Q := by
  intro i hi
  rw [outers_of_ofDefinition? h, List.mem_singleton] at hi
  exact hi ▸ hQ.ofDefinition h

theorem Everywhere.bindArguments (hQ : Instance.IsKept a Q) (h : t.Everywhere Q) (args : Link)
    {outer : Option NominalType} (houter : ∀ o ∈ outer, o.Everywhere Q) :
    (t.bindArguments a args outer).Everywhere Q := by
  intro i hi
  rcases List.mem_cons.mp hi with rfl | hi
  · exact hQ.withArgs args h.head
  · cases outer with
    | none => cases hi
    | some o => exact houter o rfl i hi

end NominalType

/-- The relation of a type with itself if something holds of all its instances. -/
def Kept (Q : Instance → Prop) (s t : NominalType) : Prop := s = t ∧ s.Everywhere Q

variable {Q : Instance → Prop} {req : Request} {m : Member} {t : NominalType}

theorem isCarried_kept {a : Arena} (hQ : Instance.IsKept a Q) : IsCarried a (Kept Q) where
  head_eq h := congrArg NominalType.head h.1
  ofDefinition h := ⟨rfl, NominalType.everywhere_of_ofDefinition? hQ h⟩
  bindArguments {s t o o'} args h ho := by
    obtain ⟨rfl, hs⟩ := h
    cases ho with
    | none => exact ⟨rfl, hs.bindArguments hQ args (by simp)⟩
    | some ho =>
      obtain ⟨rfl, ho⟩ := ho
      exact ⟨rfl, hs.bindArguments hQ args (by simpa using ho)⟩

theorem Request.related_kept (hcontext : ∀ u ∈ req.context, u.Everywhere Q)
    (hbindings : ∀ b ∈ req.bindings, b.2.Everywhere Q) : req.Related (Kept Q) req := by
  refine ⟨rfl, ?_, List.forall₂_same.mpr fun b hb => ⟨rfl, rfl, hbindings b hb⟩⟩
  cases hcontext' : req.context with
  | none => exact .none
  | some u => exact .some ⟨rfl, hcontext u hcontext'⟩

theorem everywhere_of_rel {x : Option NominalType} (h : Option.Rel (Kept Q) x x) (ht : t ∈ x) :
    t.Everywhere Q := by
  cases ht
  cases h with
  | some h => exact h.2

theorem Member.Related.everywhere (h : m.Related (Kept Q) m) (ht : t ∈ m.types) :
    t.Everywhere Q := by
  rcases List.mem_append.mp ht with ht | ht
  · exact everywhere_of_rel h.type (Option.mem_toList.mp ht)
  · obtain ⟨p, hp, ht⟩ := List.mem_filterMap.mp ht
    exact everywhere_of_rel (List.forall₂_same.mp h.params p hp).type ht

namespace Env

variable {env : Env} {c : Cache} {s : NominalType} {site : MemberSite} {members : List Member}
  {name : String} {room nesting : Nat}

theorem sub_le_room (env : Env) (nesting : Nat) : env.options.maxNesting - nesting ≤ env.room :=
  Nat.le_succ_of_le (Nat.sub_le _ _)

section Kept

variable (env) (hQ : Instance.IsKept env.arena Q)
include hQ

theorem alike_kept (hroom : room ≤ env.room) :
    Respects c (Kept Q) (env.resolveIn room) ∧
    ∀ s t name, Kept Q s t → Alike (Option.Rel (Member.Related (Kept Q)))
      (c.answer (env.memberIn room s name).run) (c.answer (env.memberIn room t name).run) := by
  refine alike_resolveIn_memberIn (isCarried_kept hQ) (fun room _ hresolve s t name h => ?_) hroom
  obtain ⟨rfl, hs⟩ := h
  exact alike_typeArgumentWith_of_context hresolve rfl ⟨rfl, hs.context⟩ name

/-! ### The answers to questions -/

theorem everywhere_of_resolveIn (hroom : room ≤ env.room)
    (hcontext : ∀ u ∈ req.context, u.Everywhere Q)
    (hbindings : ∀ b ∈ req.bindings, b.2.Everywhere Q)
    (h : c.answer (env.resolveIn room req).run = .ok t) : t.Everywhere Q := by
  have hself := (alike_kept env hQ (c := c) hroom).1 req req
    (Request.related_kept hcontext hbindings)
  rw [h] at hself
  cases hself with
  | ok hself => exact hself.2

theorem everywhere_of_typeArgumentAt (hs : s.Everywhere Q)
    (h : c.answer (env.typeArgumentAt nesting s name).run = .ok t) : t.Everywhere Q := by
  have hresolve := (alike_kept env hQ (c := c) (sub_le_room env nesting)).1
  have hself : Alike (Kept Q) (c.answer (env.typeArgumentAt nesting s name).run)
      (c.answer (env.typeArgumentAt nesting s name).run) :=
    alike_typeArgumentWith_of_context hresolve rfl ⟨rfl, hs.context⟩ name
  rw [h] at hself
  cases hself with
  | ok hself => exact hself.2

theorem everywhere_of_memberSites (hs : s.Everywhere Q)
    (h : site ∈ c.answer (env.memberSites s)) : site.owner.Everywhere Q :=
  (List.forall₂_same.mp (related_memberSites (isCarried_kept hQ) ⟨rfl, hs⟩) site h).owner.2

theorem everywhere_of_memberIn (hroom : room ≤ env.room) (hs : s.Everywhere Q)
    (h : c.answer (env.memberIn room s name).run = .ok (some m)) (ht : t ∈ m.types) :
    t.Everywhere Q := by
  have hself := (alike_kept env hQ (c := c) hroom).2 s s name ⟨rfl, hs⟩
  rw [h] at hself
  cases hself with
  | ok hself => cases hself with
    | some hself => exact hself.everywhere ht

theorem everywhere_of_membersIn (hroom : room ≤ env.room) (hs : s.Everywhere Q)
    (h : c.answer (env.membersIn room s).run = .ok members) (hm : m ∈ members)
    (ht : t ∈ m.types) : t.Everywhere Q := by
  cases room with
  | zero => cases h
  | succ room =>
    have hle : room ≤ env.room := Nat.le_of_succ_le hroom
    have hmembers := related_membersWith (isCarried_kept hQ) (isTransparent_deeper env room).resolve
      (alike_kept env hQ (c := c) hle).1 ⟨rfl, hs⟩
    obtain rfl : c.answer (env.membersWith (env.resolveIn room) s) = members := by
      cases h
      rfl
    exact (List.forall₂_same.mp hmembers m hm).everywhere ht

end Kept

end Env

end PonyLens
