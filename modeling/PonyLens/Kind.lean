/-!
# Node kinds

The kinds of nodes in the tree of a Pony program, after names have been resolved. Each kind has a
token, the word that stands for it in a dump.
-/

namespace PonyLens

inductive Kind where
  -- structure
  | program | package | sourceModule | useClause
  -- type definitions
  | aliasDef | interfaceDef | traitDef | primitiveDef | structDef | classDef | actorDef
  | provides | members
  -- members
  | letField | varField | embedField | funDef | beDef | newDef
  -- parameters
  | typeParams | typeParam | typeArgs | params | param
  -- local declarations
  | letLocal | varLocal | matchCapture
  -- types
  | nominal | typeParamRef | arrow | thisType | unionType | isectType | tupleType
  -- capabilities
  | iso | trn | ref | val | box | tag | ephemeral | aliased
  -- references
  | reference | packageRef | typeRef | newRef | newBeRef | beRef | funRef | varFieldRef
  | letFieldRef | embedRef | tupleElemRef | varRef | letRef | paramRef | dontCareRef
  -- expressions
  | seq | call | positionalArgs | namedArgs | namedArg | assign | dot | tilde | chain | qualify
  | recover | consume | ifExpr | whileLoop | matchExpr | caseList | caseBranch | tryExpr
  | tryUnchecked | forLoop | repeatLoop | ifDefined | returnExpr | breakExpr | continueExpr
  | errorExpr | isExpr | isntExpr | objectExpr | lambda | tuple | thisExpr
  -- literals
  | stringLit | intLit | floatLit | arrayLit | literal | trueLit | falseLit
  -- leaves
  | ident | partialMark | bareMark | absent
  -- any other token; the text of the node keeps it
  | other
deriving DecidableEq, Repr

namespace Kind

def token : Kind → String
  | .program => "program"
  | .package => "package"
  | .sourceModule => "module"
  | .useClause => "use"
  | .aliasDef => "type"
  | .interfaceDef => "interface"
  | .traitDef => "trait"
  | .primitiveDef => "primitive"
  | .structDef => "struct"
  | .classDef => "class"
  | .actorDef => "actor"
  | .provides => "provides"
  | .members => "members"
  | .letField => "flet"
  | .varField => "fvar"
  | .embedField => "embed"
  | .funDef => "fun"
  | .beDef => "be"
  | .newDef => "new"
  | .typeParams => "typeparams"
  | .typeParam => "typeparam"
  | .typeArgs => "typeargs"
  | .params => "params"
  | .param => "param"
  | .letLocal => "let"
  | .varLocal => "var"
  | .matchCapture => "matchcapture"
  | .nominal => "nominal"
  | .typeParamRef => "typeparamref"
  | .arrow => "->"
  | .thisType => "thistype"
  | .unionType => "uniontype"
  | .isectType => "isecttype"
  | .tupleType => "tupletype"
  | .iso => "iso"
  | .trn => "trn"
  | .ref => "ref"
  | .val => "val"
  | .box => "box"
  | .tag => "tag"
  | .ephemeral => "^"
  | .aliased => "!"
  | .reference => "reference"
  | .packageRef => "packageref"
  | .typeRef => "typeref"
  | .newRef => "newref"
  | .newBeRef => "newberef"
  | .beRef => "beref"
  | .funRef => "funref"
  | .varFieldRef => "fvarref"
  | .letFieldRef => "fletref"
  | .embedRef => "embedref"
  | .tupleElemRef => "tupleelemref"
  | .varRef => "varref"
  | .letRef => "letref"
  | .paramRef => "paramref"
  | .dontCareRef => "dontcareref"
  | .seq => "seq"
  | .call => "call"
  | .positionalArgs => "positionalargs"
  | .namedArgs => "namedargs"
  | .namedArg => "namedarg"
  | .assign => "="
  | .dot => "."
  | .tilde => "~"
  | .chain => ".>"
  | .qualify => "qualify"
  | .recover => "recover"
  | .consume => "consume"
  | .ifExpr => "if"
  | .whileLoop => "while"
  | .matchExpr => "match"
  | .caseList => "cases"
  | .caseBranch => "case"
  | .tryExpr => "try"
  | .tryUnchecked => "try_no_check"
  | .forLoop => "for"
  | .repeatLoop => "repeat"
  | .ifDefined => "ifdef"
  | .returnExpr => "return"
  | .breakExpr => "break"
  | .continueExpr => "continue"
  | .errorExpr => "error"
  | .isExpr => "is"
  | .isntExpr => "isnt"
  | .objectExpr => "object"
  | .lambda => "lambda"
  | .tuple => "tuple"
  | .thisExpr => "this"
  | .stringLit => "string"
  | .intLit => "int"
  | .floatLit => "float"
  | .arrayLit => "array"
  | .literal => "literal"
  | .trueLit => "true"
  | .falseLit => "false"
  | .ident => "id"
  | .partialMark => "?"
  | .bareMark => "@"
  | .absent => "x"
  | .other => "other"

def all : List Kind :=
  [.program, .package, .sourceModule, .useClause, .aliasDef, .interfaceDef, .traitDef,
    .primitiveDef, .structDef, .classDef, .actorDef, .provides, .members, .letField, .varField,
    .embedField, .funDef, .beDef, .newDef, .typeParams, .typeParam, .typeArgs, .params, .param,
    .letLocal, .varLocal, .matchCapture, .nominal, .typeParamRef, .arrow, .thisType, .unionType,
    .isectType, .tupleType, .iso, .trn, .ref, .val, .box, .tag, .ephemeral, .aliased, .reference,
    .packageRef, .typeRef, .newRef, .newBeRef, .beRef, .funRef, .varFieldRef, .letFieldRef,
    .embedRef, .tupleElemRef, .varRef, .letRef, .paramRef, .dontCareRef, .seq, .call,
    .positionalArgs, .namedArgs, .namedArg, .assign, .dot, .tilde, .chain, .qualify, .recover,
    .consume, .ifExpr, .whileLoop, .matchExpr, .caseList, .caseBranch, .tryExpr, .tryUnchecked,
    .forLoop, .repeatLoop, .ifDefined, .returnExpr, .breakExpr, .continueExpr, .errorExpr,
    .isExpr, .isntExpr, .objectExpr, .lambda, .tuple, .thisExpr, .stringLit, .intLit, .floatLit,
    .arrayLit, .literal, .trueLit, .falseLit, .ident, .partialMark, .bareMark, .absent, .other]

/-- The ending that marks a scoped node in a dump. -/
def scopeEnding : List Char := ":scope".toList

def dropScope (word : String) : String :=
  if scopeEnding.isSuffixOf word.toList then
    String.ofList (word.toList.take (word.toList.length - scopeEnding.length))
  else word

def ofToken? (token : String) : Option Kind := all.find? fun k => k.token == token

/-- The kind that a word of a dump stands for, whether it is marked as scoped or not. -/
def ofWord? (word : String) : Option Kind := ofToken? (dropScope word)

/-! ### Classes of kinds -/

def isTypeDefinition : Kind → Bool
  | aliasDef | interfaceDef | traitDef | primitiveDef | structDef | classDef | actorDef => true
  | _ => false

/-- Uses of a name that has been resolved. -/
def isReference : Kind → Bool
  | reference | packageRef | typeRef | newRef | newBeRef | beRef | funRef | varFieldRef
  | letFieldRef | embedRef | tupleElemRef | varRef | letRef | paramRef | dontCareRef => true
  | _ => false

/-- Declarations whose second child may be a type annotation. -/
def isDeclaration : Kind → Bool
  | varLocal | letLocal | letField | varField | param | embedField | matchCapture => true
  | _ => false

def isField : Kind → Bool
  | letField | varField | embedField => true
  | _ => false

def isMethod : Kind → Bool
  | funDef | beDef | newDef => true
  | _ => false

def isCapability : Kind → Bool
  | iso | trn | ref | val | box | tag => true
  | _ => false

def isMemberAccess : Kind → Bool
  | dot | tilde | chain => true
  | _ => false

def opensScope (k : Kind) : Bool :=
  k.isTypeDefinition || k.isMethod ||
    match k with
    | program | package | sourceModule | seq => true
    | _ => false

/-- Nodes whose text stands in the dump beside their token. -/
def carriesText : Kind → Bool
  | ident | stringLit | intLit | floatLit | package | sourceModule | other => true
  | _ => false

/-- The name of the builtin type that a literal has. -/
def builtinType? : Kind → Option String
  | stringLit => some "String"
  | floatLit => some "Float"
  | arrayLit => some "Array"
  | intLit => some "Int"
  | trueLit | falseLit => some "Bool"
  | _ => none

end Kind

end PonyLens
