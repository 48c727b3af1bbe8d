import PonyLens.Proofs.Cache.Transparency
import PonyLens.Program

/-!
# The cache does not show

All questions that can be asked of a program share its cache. Whatever has been asked before, in
whatever order and with whatever success, an answer is the one that an empty cache gives, and a
bound node holds the definition that a look-up without the cache finds.
-/

namespace PonyLens

inductive Query where
  /-- The type of a node, with the frames that lead to it. -/
  | type (options : Options) (request : Request)
  | members (options : Options) (type : NominalType)
  | member (options : Options) (type : NominalType) (name : String)
  | typeArgument (options : Options) (type : NominalType) (name : String)
  | hover (options : Options) (caret : CaretQuery)
  | completions (options : Options) (caret : CaretQuery)
  | symbol (options : Options) (caret : CaretQuery)
  | scope (options : Options) (caret : CaretQuery)

inductive Answer where
  | type (trace : Trace)
  | members (members : List Member)
  | member (member : Except ResolveError (Option Member))
  | typeArgument (type : Option NominalType)
  | hover (info : Option HoverInfo)
  | completions (completions : Completions)
  | symbol (info : Option SymbolInfo)
  | scope (symbols : List SymbolInfo)

namespace Program

def answer (p : Program) : Query → CacheM Answer
  | .type options request => .type <$> (p.env options).resolveTrace request
  | .members options t => .members <$> (p.env options).members t
  | .member options t name => .member <$> ((p.env options).tryMember t name).run
  | .typeArgument options t name => .typeArgument <$> (p.env options).typeArgument t name
  | .hover options caret => .hover <$> (p.env options).hover caret
  | .completions options caret => .completions <$> (p.env options).completions caret
  | .symbol options caret => .symbol <$> (p.env options).symbolAt caret
  | .scope options caret => return .scope ((p.env options).scopeAt caret)

/-- The answers to questions that are asked one after the other, and the cache that they leave. -/
def answers (p : Program) (qs : List Query) (c : Cache) : List Answer × Cache :=
  (qs.mapM p.answer).run c

/-- The answer to a question that nothing has been asked before. -/
def firstAnswer (p : Program) (q : Query) : Answer := ((p.answer q).run .empty).1

/-- Options do not matter for what gets bound. -/
theorem transparent_of_options {p : Program} {options : Options} {α : Type} {m : CacheM α}
    (h : (p.env options).Transparent m) : (p.env {}).Transparent m := h

theorem transparent_answer (p : Program) (q : Query) : (p.env {}).Transparent (p.answer q) := by
  cases q with
  | type options request =>
    exact transparent_of_options ((Env.transparent_resolveTrace (p.env options) request).map _)
  | members options t =>
    exact transparent_of_options ((Env.transparent_members (p.env options) t).map _)
  | member options t name =>
    exact transparent_of_options ((Env.transparent_tryMember (p.env options) t name).map _)
  | typeArgument options t name =>
    exact transparent_of_options ((Env.transparent_typeArgument (p.env options) t name).map _)
  | hover options caret =>
    exact transparent_of_options ((Env.transparent_hover (p.env options) caret).map _)
  | completions options caret =>
    exact transparent_of_options ((Env.transparent_completions (p.env options) caret).map _)
  | symbol options caret =>
    exact transparent_of_options ((Env.transparent_symbolAt (p.env options) caret).map _)
  | scope options caret => exact .pure _

theorem fills_answers (p : Program) (qs : List Query) (c : Cache) :
    (p.env {}).Fills c (p.answers qs c).2 :=
  (Env.Transparent.mapM (transparent_answer p) qs).fills c

theorem answers_cons (p : Program) (q : Query) (qs : List Query) (c : Cache) :
    (p.answers (q :: qs) c).1 =
      ((p.answer q).run c).1 :: (p.answers qs ((p.answer q).run c).2).1 := by
  simp only [answers, List.mapM_cons]
  rfl

/-- From a cache that has been filled, each question gets its first answer. -/
theorem answers_of_fills {p : Program} {c : Cache} (h : (p.env {}).Fills .empty c)
    (qs : List Query) : (p.answers qs c).1 = qs.map p.firstAnswer := by
  induction qs generalizing c with
  | nil => rfl
  | cons q qs ih =>
    obtain ⟨hfirst, hfill⟩ := transparent_answer p q .empty c h
    rw [answers_cons, List.map_cons, ih hfill, hfirst]
    rfl

end Program

theorem Kind.eq_nominal_or_typeRef_of_typeRule {kind : Kind} (h : kind.typeRule = .named) :
    kind = .nominal ∨ kind = .typeRef := by
  cases kind <;> first | exact .inl rfl | exact .inr rfl | cases h

theorem Kind.builtinType?_of_typeRule {kind : Kind} {name : String}
    (h : kind.typeRule = .builtin name) : kind.builtinType? = some name := by
  cases kind <;> first | (cases h; rfl) | cases h

namespace Env

theorem isTypeDefinition_of_typeDefinition {env : Env} {name : String} {symbol : Option Symbol}
    {d : NodeId} (h : env.typeDefinition name symbol = .ok d) :
    env.arena.isA (some d) Kind.isTypeDefinition = true := by
  cases symbol with
  | none => cases h
  | some s =>
    simp only [typeDefinition] at h
    split at h
    · rename_i hs
      cases h
      exact hs
    · cases h

theorem isTypeDefinition_of_namedDefinition {env : Env} {l : Link} {d : NodeId}
    (h : env.namedDefinition l = .ok d) : env.arena.isA (some d) Kind.isTypeDefinition = true := by
  rw [namedDefinition] at h
  split at h
  · split at h
    · split at h
      · exact isTypeDefinition_of_typeDefinition h
      · cases h
    · cases h
  · exact isTypeDefinition_of_typeDefinition h

/-- What a node leads to without a cache: a literal to its builtin type, a nominal or a reference
to a type to the definition it names. -/
inductive LeadsTo (env : Env) (n d : NodeId) : Prop where
  | literal (kind : Kind) (name : String) (hkind : env.arena.kind? (some n) = some kind)
    (hname : kind.builtinType? = some name) (hfound : env.builtinDefinition (some n) name = .ok d)
  | named (hkind : env.arena.is (some n) .nominal ∨ env.arena.is (some n) .typeRef)
    (hfound : env.namedDefinition (some n) = .ok d)

theorem LeadsTo.isTypeDefinition {env : Env} {n d : NodeId} (h : env.LeadsTo n d) :
    env.arena.isA (some d) Kind.isTypeDefinition = true := by
  cases h with
  | literal kind name _ _ hfound => exact isTypeDefinition_of_typeDefinition hfound
  | named _ hfound => exact isTypeDefinition_of_namedDefinition hfound

theorem leadsTo_of_uncached {env : Env} {n d : NodeId} (h : env.uncached? n = some d) :
    env.LeadsTo n d := by
  have ok_of_toOption {r : Except ResolveError NodeId} (hr : r.toOption = some d) : r = .ok d := by
    cases r with
    | ok d' => exact congrArg _ (Option.some.inj hr)
    | error e => cases hr
  cases hkind : env.arena.kind? (some n) with
  | none => simp [uncached?, hkind] at h
  | some kind =>
    cases hrule : kind.typeRule with
    | builtin name =>
      rw [uncached?_of_builtin hkind hrule] at h
      exact .literal kind name hkind (Kind.builtinType?_of_typeRule hrule) (ok_of_toOption h)
    | named =>
      rw [uncached?_of_named hkind hrule] at h
      refine .named ?_ (ok_of_toOption h)
      rcases Kind.eq_nominal_or_typeRef_of_typeRule hrule with rfl | rfl
      · exact .inl (by simp [Arena.is, hkind])
      · exact .inr (by simp [Arena.is, hkind])
    | _ => simp [uncached?, hkind, hrule] at h

end Env

namespace Program

/-- The cache does not show. Questions asked in a row of a program with an empty cache get the
answers that each would get if it were the only one. Each node that is bound afterwards is a
literal, a nominal or a reference to a type, holds the definition of a type to which it leads
without a cache, and stays bound to it whatever is asked next. -/
theorem answers_eq_map_firstAnswer (p : Program) (qs : List Query) :
    (p.answers qs .empty).1 = qs.map p.firstAnswer ∧
      ∀ n bound, (p.answers qs .empty).2.find? (some n) = some bound →
        (∃ d, bound = some d ∧ (p.env {}).LeadsTo n d ∧
          p.arena.isA (some d) Kind.isTypeDefinition = true) ∧
        ∀ later, (p.answers later (p.answers qs .empty).2).2.find? (some n) = some bound := by
  refine ⟨answers_of_fills (.refl _ _) qs, fun n bound hbound => ⟨?_, fun later => ?_⟩⟩
  · rcases fills_answers p qs .empty n with heq | ⟨_, d, hd, hslot⟩
    · rw [hbound, Cache.find?_empty] at heq
      cases heq
    · have hlead := Env.leadsTo_of_uncached hd
      exact ⟨d, Option.some.inj (hbound.symm.trans hslot), hlead, hlead.isTypeDefinition⟩
  · exact (fills_answers p later _).find?_eq hbound

end Program

end PonyLens
