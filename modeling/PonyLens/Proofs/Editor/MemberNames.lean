import PonyLens.Proofs.Editor.Agreement

/-!
# Definitions of member names

The definition of a member name is looked for among the members of the receiver. If the receiver has
no type, or no member of this name, the scopes around the caret are asked as for any other name. So
a definition is given that has nothing to do with the receiver exactly if the access names no member
and the name alone stands for something whose place is known.
-/

namespace PonyLens

namespace Env

variable {env : Env} {c : Cache} {access id : NodeId} {q : CaretQuery}

theorem exists_accessNames_iff : (∃ owner m, env.AccessNames c access owner m) ↔
    ((c.answer (env.receiverAt (some access))).bind fun owner =>
      c.answer (env.member? owner (env.accessName access))).isSome = true := by
  simp only [Option.isSome_iff_exists, Option.bind_eq_some_iff]
  constructor
  · rintro ⟨owner, m, hnames⟩
    exact ⟨m, owner, hnames.receiver, hnames.member⟩
  · rintro ⟨m, owner, hreceiver, hmember⟩
    exact ⟨owner, m, hreceiver, hmember⟩

instance : Decidable (∃ owner m, env.AccessNames c access owner m) :=
  decidable_of_iff _ exists_accessNames_iff.symm

def placedInfo? (env : Env) (name : String) (symbol : Symbol) : Option SymbolInfo :=
  if (env.arena.sourcePlace? (some symbol.definition)).isSome then some (env.symbolInfo name symbol)
  else none

theorem filter_symbolInfo (name : String) (symbol : Option Symbol) :
    (symbol.map (env.symbolInfo name)).filter (·.definition.isSome) =
      symbol.bind (env.placedInfo? name) := by
  cases symbol with
  | none => rfl
  | some s => simp [placedInfo?, symbolInfo, Option.filter]

/-- The member name of an access stands for no member if the receiver has no type, or if its type
has no member of this name. -/
theorem answer_memberSymbol?_eq_none (haccess : env.accessOf? id = some access)
    (hchild : env.arena.child (some access) 1 = some id)
    (hnone : ¬ ∃ owner m, env.AccessNames c access owner m) :
    c.answer (env.memberSymbol? id) = none := by
  have hname : env.accessName access = env.arena.text (some id) := by rw [accessName, hchild]
  have hreceiver := transparent_receiverAt env (some access)
  have hmember (owner : NominalType) := transparent_member? env owner (env.arena.text (some id))
  rw [memberSymbol?, haccess]
  dsimp only
  cases howner : c.answer (env.receiverAt (some access)) with
  | none =>
    rw [answer_bind_of_answer hreceiver howner]
    · exact answer_pure none
    · exact .pure none
  | some owner =>
    rw [answer_bind_of_answer hreceiver howner]
    · cases hfound : c.answer (env.member? owner (env.arena.text (some id))) with
      | none => exact answer_bind_of_answer (hmember owner) hfound (.pure _)
      | some m => exact absurd ⟨owner, m, howner, hname ▸ hfound⟩ hnone
    · exact (hmember owner).bind fun _ => .pure _

/-- The definition at a caret on an identifier comes from the members or else from the scopes. -/
theorem answer_symbolAt_of_identifier (hid : q.identifier? env.arena = some id) :
    c.answer (env.symbolAt q) =
      ((c.answer (env.memberSymbol? id)).or
        (env.scopes.lookup env.arena (some id) (env.arena.text (some id)))).bind
          (env.placedInfo? (env.arena.text (some id))) := by
  rw [symbolAt, hid, ← filter_symbolInfo]
  exact answer_bind (transparent_memberSymbol? env id) fun _ => .pure _

theorem symbolAt_iff_of_access (env : Env) (hid : q.identifier? env.arena = some id)
    (hchild : env.arena.child (some access) 1 = some id)
    (hparent : env.arena.parent (some id) = some access)
    (haccess : env.arena.isA (some access) Kind.isMemberAccess = true) (c : Cache) :
    (∀ owner m, env.AccessNames c access owner m →
      c.answer (env.symbolAt q) =
        env.placedInfo? (env.arena.text (some id)) ⟨m.definition, .defined⟩) ∧
    ((¬ ∃ owner m, env.AccessNames c access owner m) →
      c.answer (env.symbolAt q) =
        (env.scopes.lookup env.arena (some id) (env.arena.text (some id))).bind
          (env.placedInfo? (env.arena.text (some id)))) ∧
    ((∀ info, c.answer (env.symbolAt q) = some info →
        ∃ owner m, env.AccessNames c access owner m) ↔
      (∃ owner m, env.AccessNames c access owner m) ∨
        ∀ symbol, env.scopes.lookup env.arena (some id) (env.arena.text (some id)) = some symbol →
          env.arena.sourcePlace? (some symbol.definition) = none) := by
  have hnamed := accessOf?_eq_some haccess hchild hparent
  have hanswer := answer_symbolAt_of_identifier (c := c) hid
  have hscopes (hnone : ¬ ∃ owner m, env.AccessNames c access owner m) :
      c.answer (env.symbolAt q) =
        (env.scopes.lookup env.arena (some id) (env.arena.text (some id))).bind
          (env.placedInfo? (env.arena.text (some id))) := by
    rw [hanswer, answer_memberSymbol?_eq_none hnamed hchild hnone, Option.none_or]
  refine ⟨fun owner m hnames => ?_, hscopes, ⟨fun honly => ?_, fun h info hinfo => ?_⟩⟩
  · rw [hanswer, hnames.answer_memberSymbol? hnamed hchild, Option.some_or, Option.bind_some]
  · by_cases hmember : ∃ owner m, env.AccessNames c access owner m
    · exact .inl hmember
    · refine .inr fun symbol hsymbol => ?_
      by_contra hplace
      -- A symbol whose place is known would be given, and no member stands behind it.
      have hgiven : c.answer (env.symbolAt q) =
          some (env.symbolInfo (env.arena.text (some id)) symbol) := by
        rw [hscopes hmember, hsymbol, Option.bind_some, placedInfo?,
          if_pos (Option.isSome_iff_ne_none.mpr hplace)]
      exact hmember (honly _ hgiven)
  · rcases h with hmember | hnothing
    · exact hmember
    · by_contra hmember
      rw [hscopes hmember, Option.bind_eq_some_iff] at hinfo
      obtain ⟨symbol, hsymbol, hinfo⟩ := hinfo
      simp [placedInfo?, hnothing symbol hsymbol] at hinfo

end Env

section Program

variable {p : Program} {ops : List Arena.Operation} {options : Options} {q : CaretQuery}
  {access id : NodeId}

/-- The definition that is given for the member name of an access. If the receiver has a type with a
member of this name, it is the definition of the member. If not, it is what the scopes around the
name say. So only members are ever given exactly if there is a member, or the name alone stands for
nothing whose place is known. -/
theorem symbolAt_memberName_iff (hp : p.arena = .after .empty ops)
    (hid : q.identifier? p.arena = some id) (hchild : p.arena.child (some access) 1 = some id)
    (haccess : p.arena.isA (some access) Kind.isMemberAccess = true) (c : Cache) :
    (∀ owner m, (p.env options).AccessNames c access owner m →
      c.answer ((p.env options).symbolAt q) =
        (p.env options).placedInfo? (p.arena.text (some id)) ⟨m.definition, .defined⟩) ∧
    ((¬ ∃ owner m, (p.env options).AccessNames c access owner m) →
      c.answer ((p.env options).symbolAt q) =
        (p.scopes.lookup p.arena (some id) (p.arena.text (some id))).bind
          ((p.env options).placedInfo? (p.arena.text (some id)))) ∧
    ((∀ info, c.answer ((p.env options).symbolAt q) = some info →
        ∃ owner m, (p.env options).AccessNames c access owner m) ↔
      (∃ owner m, (p.env options).AccessNames c access owner m) ∨
        ∀ symbol, p.scopes.lookup p.arena (some id) (p.arena.text (some id)) = some symbol →
          p.arena.sourcePlace? (some symbol.definition) = none) := by
  have hparent : p.arena.parent (some id) = some access := by
    have hlinked : p.arena.Linked _ := hp ▸ Arena.linked_after ops
    exact (hlinked.parent_iff id access).mpr (.inl (List.mem_of_getElem? hchild))
  exact Env.symbolAt_iff_of_access (p.env options) hid hchild hparent haccess c

/-- A class with a parameter and two accesses to the class itself, one to a method and one to the
name of the parameter. -/
def selfNamer : Program :=
  .ofRoot (.after .empty [.read "(module (class (id C) x x x (members (fun@3:5 box (id g) x
    (params (param@3:11 (id f) (nominal x (id C)))) x x
    (seq (~ (this) (id@4:20 g)) (. (this) (id@5:20 f)))))))"]) (some 0)

theorem symbolAt_memberName_iff_selfNamer :
    let env := selfNamer.env {}
    let q : CaretQuery := ⟨some 0, ⟨4, 20⟩, none⟩
    (q.identifier? selfNamer.arena = some 22 ∧ selfNamer.arena.child (some 20) 1 = some 22 ∧
      selfNamer.arena.isA (some 20) Kind.isMemberAccess = true) ∧
    ∃ owner m, env.AccessNames .empty 20 owner m ∧
      Cache.empty.answer (env.symbolAt q) = env.placedInfo? "g" ⟨m.definition, .defined⟩ := by
  intro env q
  obtain ⟨hid, hchild, haccess, hname, hmember⟩ :
      q.identifier? selfNamer.arena = some 22 ∧ selfNamer.arena.child (some 20) 1 = some 22 ∧
      selfNamer.arena.isA (some 20) Kind.isMemberAccess = true ∧
      selfNamer.arena.text (some 22) = "g" ∧ ∃ owner m, env.AccessNames .empty 20 owner m := by
    decide +kernel
  obtain ⟨owner, m, hnames⟩ := hmember
  obtain ⟨hdefinition, _⟩ := symbolAt_memberName_iff rfl hid hchild haccess .empty
  exact ⟨⟨hid, hchild, haccess⟩, owner, m, hnames, hname ▸ hdefinition owner m hnames⟩

/-- The class has no member with the name of the parameter, and the parameter is given. -/
theorem parameter_given_for_memberName :
    let env := selfNamer.env {}
    let q : CaretQuery := ⟨some 0, ⟨5, 20⟩, none⟩
    (q.identifier? selfNamer.arena = some 25 ∧ selfNamer.arena.child (some 23) 1 = some 25 ∧
      selfNamer.arena.isA (some 23) Kind.isMemberAccess = true) ∧
    ((Cache.empty.answer (env.receiverAt (some 23))).map NominalType.name = some "C" ∧
      ¬ ∃ owner m, env.AccessNames .empty 23 owner m) ∧
    Cache.empty.answer (env.symbolAt q) =
      some ⟨"f", "param", .defined, some ⟨"", ⟨3, 11⟩⟩⟩ := by
  decide +kernel

end Program

end PonyLens
