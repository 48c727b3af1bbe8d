import PonyLens.Kind

/-!
# Capabilities and kinds of members
-/

namespace PonyLens

/-- A reference capability, as far as it is written. -/
inductive Capability where
  | iso | trn | ref | val | box | tag
  | unknown
deriving DecidableEq, Repr

namespace Capability

def ofKind : Option Kind → Capability
  | some .iso => iso
  | some .trn => trn
  | some .ref => ref
  | some .val => val
  | some .box => box
  | some .tag => tag
  | _ => unknown

def label : Capability → String
  | iso => "iso"
  | trn => "trn"
  | ref => "ref"
  | val => "val"
  | box => "box"
  | tag => "tag"
  | unknown => "unknown"

end Capability

inductive MemberKind where
  | field
  | letField
  | varField
  | function
  | behavior
  | constructor
  | unknown
deriving DecidableEq, Repr

namespace MemberKind

def ofKind : Kind → MemberKind
  | .embedField => field
  | .letField => letField
  | .varField => varField
  | .funDef => function
  | .beDef => behavior
  | .newDef => constructor
  | _ => unknown

def label : MemberKind → String
  | field => "field"
  | letField => "let"
  | varField => "var"
  | function => "function"
  | behavior => "behavior"
  | constructor => "constructor"
  | unknown => "unknown"

def isCallable : MemberKind → Bool
  | function | behavior | constructor => true
  | _ => false

end MemberKind

end PonyLens
