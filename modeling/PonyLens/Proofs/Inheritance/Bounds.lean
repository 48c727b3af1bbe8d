import PonyLens.Proofs.Arena.Acyclic
import PonyLens.Proofs.GuardHistory
import PonyLens.Types.Inheritance

/-!
# Bounds of a collection

A collection of members is a recursion without a bound of its own. It ends because its guard lets
no more types be open than the depth limit says, and the search through a provides-list ends because
trees have no cycles. To say so both are unrolled: after so many rounds it does not matter what the
others would do. What a collection asks of its guard is noted along with it, and shows that it
leaves the types that it enters, however its visits end.
-/

namespace PonyLens

/-! ### The search through a provides-list -/

namespace Arena

/-- Takes the pending nodes in turn, each of them followed by its children, and goes on with what is
pending then. -/
def searchOnce (a : Arena) (search : List NodeId → List NodeId) : List NodeId → List NodeId
  | [] => []
  | n :: pending =>
    match a.kind? (some n) with
    | some .nominal => n :: search pending
    | some .typeArgs | none => search pending
    | some _ => search (a.children (some n) ++ pending)

/-- The nodes that are pending because of a node that the search comes to. -/
def searchedBelow (a : Arena) (n : NodeId) : List NodeId :=
  match a.kind? (some n) with
  | some .nominal | some .typeArgs | none => []
  | some _ => a.children (some n)

variable {a : Arena} {path ns : List NodeId} {n c limit : Nat}

theorem searchOnce_cons (search : List NodeId → List NodeId) (n : NodeId) (pending : List NodeId) :
    a.searchOnce search (n :: pending) =
      (if a.is (some n) .nominal then [n] else []) ++ search (a.searchedBelow n ++ pending) := by
  rw [searchOnce, searchedBelow, is]
  split
  all_goals simp_all

theorem nominalsWithin_succ (a : Arena) (limit : Nat) (n : NodeId) :
    a.nominalsWithin (limit + 1) n =
      (if a.is (some n) .nominal then [n] else []) ++
        (a.searchedBelow n).flatMap (a.nominalsWithin limit) := by
  rw [nominalsWithin, searchedBelow, is]
  split
  all_goals simp_all

theorem down_of_mem_searchedBelow (h : c ∈ a.searchedBelow n) : a.Down n c := by
  rw [searchedBelow] at h
  split at h
  · cases h
  · cases h
  · cases h
  · exact h

/-- At the end of a way that has all nodes on it there is no node. -/
theorem kind?_of_way (hacyclic : a.Acyclic) (h : a.Way a.Down path n)
    (hlength : a.size ≤ path.length) : a.kind? (some n) = none := by
  by_contra hne
  obtain ⟨kind, hkind⟩ := Option.ne_none_iff_exists'.mp hne
  have hlt := h.length_lt hacyclic.down (lt_size_of_kind? hkind)
  omega

theorem exists_iterate_append {f : NodeId → List NodeId}
    (h : ∀ n ∈ ns, ∃ k, ∀ search pending,
      a.searchOnce^[k] search (n :: pending) = f n ++ search pending) :
    ∃ k, ∀ search pending,
      a.searchOnce^[k] search (ns ++ pending) = ns.flatMap f ++ search pending := by
  induction ns with
  | nil => exact ⟨0, fun search pending => rfl⟩
  | cons n ns ih =>
    obtain ⟨hn, hns⟩ := List.forall_mem_cons.mp h
    obtain ⟨k, hk⟩ := hn
    obtain ⟨k', hk'⟩ := ih hns
    refine ⟨k + k', fun search pending => ?_⟩
    rw [Function.iterate_add_apply, List.cons_append, hk, hk', List.flatMap_cons, List.append_assoc]

/-- The search gets past a node on a way, if there are no fewer levels left than nodes that are not
on the way yet. -/
theorem exists_iterate_of_way (hacyclic : a.Acyclic) (h : a.Way a.Down path n)
    (hlimit : a.size ≤ limit + path.length) :
    ∃ k, ∀ search pending,
      a.searchOnce^[k] search (n :: pending) = a.nominalsWithin limit n ++ search pending := by
  induction limit generalizing path n with
  | zero =>
    have hkind := kind?_of_way hacyclic h (by omega)
    refine ⟨1, fun search pending => ?_⟩
    rw [Function.iterate_one, searchOnce, hkind]
    rfl
  | succ limit ih =>
    have hbelow : ∀ c ∈ a.searchedBelow n, ∃ k, ∀ search pending,
        a.searchOnce^[k] search (c :: pending) = a.nominalsWithin limit c ++ search pending := by
      intro c hc
      have hdown := down_of_mem_searchedBelow hc
      exact ih (h.cons hacyclic.down hdown.lt_size hdown) (by rw [List.length_cons]; omega)
    obtain ⟨k, hk⟩ := exists_iterate_append hbelow
    refine ⟨k + 1, fun search pending => ?_⟩
    rw [Function.iterate_succ_apply', searchOnce_cons, hk, nominalsWithin_succ, List.append_assoc]

/-- The search ends, and finds what the one with a bound finds. -/
theorem exists_iterate_searchOnce (hacyclic : a.Acyclic) (ns : List NodeId) :
    ∃ k, ∀ search, a.searchOnce^[k] search ns = ns.flatMap (a.nominalsWithin a.size) := by
  have hlimit : a.size ≤ a.size + ([] : List NodeId).length := Nat.le_refl a.size
  obtain ⟨k, hk⟩ := exists_iterate_append fun n (_ : n ∈ ns) =>
    exists_iterate_of_way hacyclic (way_nil a a.Down n) hlimit
  refine ⟨k + 1, fun search => ?_⟩
  have hend := hk (a.searchOnce search) []
  rw [← Function.iterate_succ_apply, List.append_nil] at hend
  rw [hend, searchOnce, List.append_nil]

end Arena

namespace Env

/-! ### What a collection asks of its guard -/

abbrev LoggedM := StateT (List (Guard.Call NodeId)) CacheM

def note (call : Guard.Call NodeId) : LoggedM Unit := modify (· ++ [call])

def visitLogged (env : Env) : Nat → NominalType → Inheritance → LoggedM Inheritance
  | 0, owner, i => do
    note (.enter owner.definition)
    return { i with guard := (i.guard.enter owner.definition).2 }
  | levels + 1, owner, i => do
    note (.enter owner.definition)
    match i.guard.enter owner.definition with
    | (.entered, guard) =>
      let i ← (env.providedNominals owner).foldlM (fun i nominal => do
        match ← env.provider? owner nominal with
        | some provider => env.visitLogged levels provider i
        | none => return i) (({ i with guard } : Inheritance).insertOwn env.arena owner)
      note (.leave owner.definition)
      return { i with guard := (i.guard.leave? owner.definition).getD i.guard }
    | (_, guard) => return { i with guard }

def inheritanceLogged (env : Env) (t : NominalType) :
    CacheM (Inheritance × List (Guard.Call NodeId)) :=
  (env.visitLogged Limits.providesDepth t {}).run []

/-- The computation `x` does what `y` does, and notes calls that lead from `g` to the guard in its
answer and leave what they enter. -/
def Logs (g : Guard NodeId) (x : LoggedM Inheritance) (y : CacheM Inheritance) : Prop :=
  ∀ log c, ∃ calls i c', (x.run log).run c = ((i, log ++ calls), c') ∧ y.run c = (i, c') ∧
    g.Balanced calls i.guard

section Logs

variable {g : Guard NodeId} {x : LoggedM Inheritance} {y : CacheM Inheritance}
  {f : Inheritance → LoggedM Inheritance} {f' : Inheritance → CacheM Inheritance}

theorem Logs.pure (i : Inheritance) : Logs i.guard (pure i) (pure i) := by
  intro log c
  exact ⟨[], i, c, by rw [List.append_nil]; rfl, rfl, .nil i.guard⟩

theorem Logs.bind (h : Logs g x y)
    (hf : ∀ calls i, g.Balanced calls i.guard → Logs i.guard (f i) (f' i)) :
    Logs g (x >>= f) (y >>= f') := by
  intro log c
  obtain ⟨calls, i, c₁, hx, hy, hcalls⟩ := h log c
  obtain ⟨calls', j, c₂, hx', hy', hcalls'⟩ := hf calls i hcalls (log ++ calls) c₁
  refine ⟨calls ++ calls', j, c₂, ?_, ?_, hcalls.append hcalls'⟩
  · rw [StateT.run_bind, StateT.run_bind, hx, ← List.append_assoc]
    exact hx'
  · rw [StateT.run_bind, hy]
    exact hy'

theorem Logs.lift {α : Type} (p : CacheM α) {k : α → LoggedM Inheritance}
    {k' : α → CacheM Inheritance} (h : ∀ a, Logs g (k a) (k' a)) :
    Logs g (liftM p >>= k) (p >>= k') := by
  intro log c
  obtain ⟨calls, i, c', hx, hy, hcalls⟩ := h (p.run c).1 log (p.run c).2
  exact ⟨calls, i, c', hx, hy, hcalls⟩

theorem Logs.foldlM {α : Type} {k : Inheritance → α → LoggedM Inheritance}
    {k' : Inheritance → α → CacheM Inheritance} {levels : Nat}
    (h : ∀ i a, i.guard.room ≤ levels → Logs i.guard (k i a) (k' i a)) (l : List α)
    {i : Inheritance} (hroom : i.guard.room ≤ levels) :
    Logs i.guard (l.foldlM k i) (l.foldlM k' i) := by
  induction l generalizing i with
  | nil => exact .pure i
  | cons a l ih =>
    rw [List.foldlM_cons, List.foldlM_cons]
    exact (h i a hroom).bind fun calls j hcalls => ih (hcalls.room_eq ▸ hroom)

theorem logs_of_refused {i : Inheritance} {key : NodeId} {answer : Guard.Answer}
    {guard : Guard NodeId} (h : i.guard.enter key = (answer, guard)) (hanswer : answer ≠ .entered) :
    Logs i.guard (do note (.enter key); return { i with guard }) (pure { i with guard }) := by
  intro log c
  exact ⟨[.enter key], { i with guard }, c, rfl, rfl, Guard.balanced_of_refused h hanswer⟩

theorem run_note_bind (call : Guard.Call NodeId) (k : Unit → LoggedM Inheritance)
    (log : List (Guard.Call NodeId)) : (note call >>= k).run log = (k ()).run (log ++ [call]) := rfl

theorem Logs.enclose {key : NodeId} {g' : Guard NodeId} (hinner : Logs g' x y)
    (h : g.enter key = (.entered, g')) :
    Logs g
      (do
        note (.enter key)
        let i ← x
        note (.leave key)
        return { i with guard := (i.guard.leave? key).getD i.guard })
      (do
        let i ← y
        return { i with guard := (i.guard.leave? key).getD i.guard }) := by
  intro log c
  obtain ⟨calls, i, c', hx, hy, hcalls⟩ := hinner (log ++ [.enter key]) c
  refine ⟨.enter key :: calls ++ [.leave key],
    { i with guard := (i.guard.leave? key).getD i.guard }, c', ?_, ?_, hcalls.enclose h⟩
  · rw [List.cons_append, List.append_cons, ← List.append_assoc, run_note_bind, StateT.run_bind,
      StateT.run_bind, hx]
    rfl
  · rw [StateT.run_bind, hy]
    rfl

end Logs

theorem guard_insertOwn (i : Inheritance) (a : Arena) (owner : NominalType) :
    (i.insertOwn a owner).guard = i.guard := by
  rw [Inheritance.insertOwn]
  generalize a.children (a.child (some owner.definition) definitionLayout.members) = members
  induction members generalizing i with
  | nil => rfl
  | cons member members ih =>
    rw [List.foldl_cons, ih, Inheritance.insert]
    split
    · split <;> rfl
    · rfl

/-- A visit with levels enough leaves what it enters, whatever its guard refuses on the way. -/
theorem logs_visitLogged (env : Env) {levels : Nat} (owner : NominalType) {i : Inheritance}
    (hroom : i.guard.room ≤ levels) :
    Logs i.guard (env.visitLogged levels owner i) (env.visitType levels owner i) := by
  induction levels generalizing owner i with
  | zero =>
    have hrefused := Guard.enter_of_room_eq_zero (Nat.le_zero.mp hroom) owner.definition
    exact logs_of_refused rfl hrefused
  | succ levels ih =>
    rcases henter : i.guard.enter owner.definition with ⟨answer, guard⟩
    rw [visitLogged, visitType, henter]
    cases answer with
    | entered =>
      refine Logs.enclose ?_ henter
      have hguard : (({ i with guard } : Inheritance).insertOwn env.arena owner).guard = guard :=
        guard_insertOwn _ env.arena owner
      generalize ({ i with guard } : Inheritance).insertOwn env.arena owner = start at hguard
      subst hguard
      rw [Guard.room_of_entered henter] at hroom
      refine Logs.foldlM (fun j nominal hj => ?_) _ (Nat.le_of_succ_le_succ hroom)
      refine .lift (env.provider? owner nominal) fun provider? => ?_
      cases provider? with
      | some provider => exact ih provider hj
      | none => exact .pure j
    | cycle => exact logs_of_refused henter (by simp)
    | tooDeep => exact logs_of_refused henter (by simp)
    | tooMany => exact logs_of_refused henter (by simp)

/-- The calls of a collection lead its guard to `guard`. No more entries are let through than the
limit of visits says, at no time are more types open than the depth limit says, each type that is
left is open then, and in the end none is. -/
structure CollectionBounds (calls : List (Guard.Call NodeId)) (guard : Guard NodeId) : Prop where
  after_eq : ({} : Inheritance).guard.after calls = guard
  entered_le : (({} : Inheritance).guard.answers calls).count .entered ≤ Limits.providesVisits
  visiting_le (n : Nat) :
    (({} : Inheritance).guard.after (calls.take n)).visiting.length ≤ Limits.providesDepth
  leavesVisited : ({} : Inheritance).guard.LeavesVisited calls
  visiting_eq : guard.visiting = []

theorem exists_collectionBounds (env : Env) (t : NominalType) (c : Cache) :
    ∃ calls i c', (env.inheritanceLogged t).run c = ((i, calls), c') ∧
      (env.inheritance t).run c = (i, c') ∧ CollectionBounds calls i.guard := by
  obtain ⟨calls, i, c', hrun, hrun', hcalls⟩ :=
    logs_visitLogged env t (Nat.le_refl (Guard.room ({} : Inheritance).guard)) [] c
  have hvalid : ({} : Inheritance).guard.Valid := ⟨List.nodup_nil, rfl, Nat.zero_le _⟩
  refine ⟨calls, i, c', hrun, hrun', ?_⟩
  exact {
    after_eq := hcalls.after_eq
    entered_le := Guard.count_entered_le hcalls.reset_not_mem (by decide)
    visiting_le := fun n => hvalid.length_visiting_le _
    leavesVisited := hcalls.leavesVisited
    visiting_eq := hcalls.visiting_eq }

/-! ### The recursion without a bound -/

def visitOnce (env : Env) (visit : NominalType → Inheritance → CacheM Inheritance)
    (owner : NominalType) (i : Inheritance) : CacheM Inheritance := do
  match i.guard.enter owner.definition with
  | (.entered, guard) =>
    let i ← (env.providedNominals owner).foldlM (fun i nominal => do
      match ← env.provider? owner nominal with
      | some provider => visit provider i
      | none => return i) (({ i with guard } : Inheritance).insertOwn env.arena owner)
    return { i with guard := (i.guard.leave? owner.definition).getD i.guard }
  | (_, guard) => return { i with guard }

def visitAll (env : Env) (owner : NominalType) (i : Inheritance) : CacheM Inheritance :=
  env.visitType i.guard.room owner i

section Recursion

variable {env : Env} {visit visit' : NominalType → Inheritance → CacheM Inheritance}
  {owner : NominalType} {i : Inheritance}

theorem bind_congr_of_run {α β : Type} {x : CacheM α} {k k' : α → CacheM β}
    (h : ∀ c, k (x.run c).1 = k' (x.run c).1) : x >>= k = x >>= k' :=
  funext fun c => congrFun (h c) (x.run c).2

theorem visitOnce_of_refused (hanswer : (i.guard.enter owner.definition).1 ≠ .entered) :
    env.visitOnce visit owner i =
      pure { i with guard := (i.guard.enter owner.definition).2 } := by
  rw [visitOnce]
  generalize i.guard.enter owner.definition = result at hanswer
  obtain ⟨answer, guard⟩ := result
  cases answer with
  | entered => exact absurd rfl hanswer
  | cycle => rfl
  | tooDeep => rfl
  | tooMany => rfl

theorem foldlM_congr_of_room {α : Type} {k k' : Inheritance → α → CacheM Inheritance} {room : Nat}
    (h : ∀ j a, j.guard.room = room → k j a = k' j a)
    (hkeep : ∀ j a c, ((k' j a).run c).1.guard.room = j.guard.room) (l : List α) {j : Inheritance}
    (hroom : j.guard.room = room) : l.foldlM k j = l.foldlM k' j := by
  induction l generalizing j with
  | nil => rfl
  | cons a l ih =>
    rw [List.foldlM_cons, List.foldlM_cons, h j a hroom]
    exact bind_congr_of_run fun c => ih ((hkeep j a c).trans hroom)

/-- A visit makes the visits of what a type provides with one key less of room. -/
theorem visitOnce_congr (h : ∀ p j, j.guard.room + 1 = i.guard.room → visit p j = visit' p j)
    (hkeep : ∀ p j c, ((visit' p j).run c).1.guard.room = j.guard.room) :
    env.visitOnce visit owner i = env.visitOnce visit' owner i := by
  rcases henter : i.guard.enter owner.definition with ⟨answer, guard⟩
  by_cases hanswer : answer = .entered
  · subst hanswer
    rw [Guard.room_of_entered henter] at h
    have hstart := guard_insertOwn { i with guard } env.arena owner
    rw [visitOnce, visitOnce, henter]
    refine congrArg (· >>= _) (foldlM_congr_of_room (fun j nominal hj => ?_) (fun j nominal c => ?_)
      _ (congrArg Guard.room hstart))
    · congr 1
      funext provider?
      cases provider? with
      | some provider => exact h provider j (congrArg (· + 1) hj)
      | none => rfl
    · rw [StateT.run_bind]
      rcases (env.provider? owner nominal).run c with ⟨provider?, c'⟩
      cases provider? with
      | some provider => exact hkeep provider j c'
      | none => rfl
  · have hrefused : (i.guard.enter owner.definition).1 ≠ .entered := by rwa [henter]
    rw [visitOnce_of_refused hrefused, visitOnce_of_refused hrefused]

theorem room_visitAll (env : Env) (p : NominalType) (i : Inheritance) (c : Cache) :
    ((env.visitAll p i).run c).1.guard.room = i.guard.room := by
  obtain ⟨calls, j, c', _, hrun, hcalls⟩ := logs_visitLogged env p (Nat.le_refl i.guard.room) [] c
  rw [visitAll, hrun]
  exact hcalls.room_eq

theorem visitAll_eq_visitOnce (env : Env) : env.visitAll = env.visitOnce env.visitAll := by
  funext owner i
  cases hroom : i.guard.room with
  | zero =>
    rw [visitOnce_of_refused (Guard.enter_of_room_eq_zero hroom owner.definition), visitAll, hroom]
    rfl
  | succ room =>
    rw [visitAll, hroom]
    refine visitOnce_congr (fun p j hj => ?_) (room_visitAll env)
    rw [visitAll, Nat.succ.inj (hj.trans hroom)]

/-- The recursion ends: what the visits would be once the guard is without room does not matter. -/
theorem iterate_visitOnce (visit : NominalType → Inheritance → CacheM Inheritance) {k : Nat}
    (h : i.guard.room < k) : env.visitOnce^[k] visit owner i = env.visitAll owner i := by
  induction k generalizing owner i with
  | zero => exact absurd h (Nat.not_lt_zero _)
  | succ k ih =>
    rw [Function.iterate_succ_apply', visitAll_eq_visitOnce]
    refine visitOnce_congr (fun p j hj => ih ?_) (room_visitAll env)
    omega

end Recursion

end Env

end PonyLens
