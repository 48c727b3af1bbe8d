import PonyLens.Editor.Symbols

/-!
# Completion at a caret

On the member name of an access the members of the receiver are offered, elsewhere the names that
can be used.
-/

namespace PonyLens.Env

/-- Whether the caret touches the member name of an access; if that has no place, the token of the
access itself. -/
def touchesMemberName (a : Arena) (q : CaretQuery) (access : NodeId) : Bool :=
  let right := a.child (some access) 1
  if (a.location right).isKnown then q.caret.touches (a.location right) (a.tokenLength right)
  else q.caret.touches (a.location (some access)) 1

/-- The first `.` or `~` whose member name is at the caret. -/
def accessAt? (env : Env) (q : CaretQuery) : Link :=
  let a := env.arena
  (a.descendants q.root).find? fun n =>
    (a.is (some n) .dot || a.is (some n) .tilde) && a.isInFile (some n) q.file &&
      touchesMemberName a q n

/-- Whether a member is offered: private ones never, and for a partial application only those that
take arguments. -/
def isOffered (partialOnly : Bool) (m : Member) : Bool :=
  !m.isPrivate && (!partialOnly || m.kind.isCallable)

/-- The members offered at the caret; none at all if the receiver has no type. There is no answer
if the caret is not on a member name. -/
def memberCompletions? (env : Env) (q : CaretQuery) : CacheM (Option (List MemberInfo)) := do
  match env.accessAt? q with
  | none => return none
  | some access =>
    match ← env.receiverAt (some access) with
    | none => return some []
    | some owner =>
      let offered := (← env.members owner).filter (isOffered (env.arena.is (some access) .tilde))
      return some (← offered.mapM env.memberInfo)

def completions (env : Env) (q : CaretQuery) : CacheM Completions := do
  match ← env.memberCompletions? q with
  | some members => return { isMemberCompletion := true, members }
  | none => return { isMemberCompletion := false, symbols := env.scopeAt q }

end PonyLens.Env
