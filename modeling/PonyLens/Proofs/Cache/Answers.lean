import PonyLens.Proofs.Cache.Transparency

/-!
# Answers from a cache

A transparent computation is known by what it answers from each cache: when several of them run one
after the other, each answers as if it ran from the first cache. So the answers of a larger
computation are put together from those of its parts, without a running cache.
-/

namespace PonyLens

def Cache.answer {α : Type} (c : Cache) (m : CacheM α) : α := (m.run c).1

namespace Env

variable {env : Env} {α β : Type} {c : Cache}

@[simp] theorem answer_pure (a : α) : c.answer (pure a) = a := rfl

theorem answer_bind {m : CacheM α} {f : α → CacheM β} (hm : env.Transparent m)
    (hf : ∀ a, env.Transparent (f a)) : c.answer (m >>= f) = c.answer (f (c.answer m)) :=
  (hf _ c _ (hm.fills c)).1

@[simp] theorem answer_map (m : CacheM α) (f : α → β) : c.answer (f <$> m) = f (c.answer m) := rfl

theorem answer_andThen {x : ResolveM α} {f : α → ResolveM β} (hx : env.Transparent x.run)
    (hf : ∀ a, env.Transparent (f a).run) :
    c.answer (x >>= f).run = (c.answer x.run).bind fun a => c.answer (f a).run := by
  rw [ExceptT.run_bind, answer_bind hx]
  · cases c.answer x.run <;> rfl
  · intro r
    cases r with
    | ok a => exact hf a
    | error e => exact .throw e

theorem answer_mapM {f : α → CacheM β} (hf : ∀ a, env.Transparent (f a)) (l : List α) :
    c.answer (l.mapM f) = l.map fun a => c.answer (f a) := by
  induction l with
  | nil => rfl
  | cons a l ih =>
    rw [List.mapM_cons, answer_bind (hf a), answer_bind (.mapM hf l), ih]
    · rfl
    · exact fun bs => .pure _
    · exact fun b => Transparent.bind (.mapM hf l) fun bs => .pure _

end Env

end PonyLens
