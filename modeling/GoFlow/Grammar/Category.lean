/-!
The syntactic categories of Go, in the order by which they are numbered.
-/

namespace GoFlow

inductive Category where
  | sourceFile | packageClause | importDecl | importSpec | importPath | declaration | constDecl
  | constSpec | identifierList | expressionList | typeDecl | typeSpec | aliasDecl | typeDef
  | typeParameters | typeParameterDecl | typeElement | typeTerm | functionDecl | methodDecl
  | receiver | varDecl | varSpec | block | statementList | statement | simpleStmt
  | expressionStmt | sendStmt | incDecStmt | assignment | assignOp | shortVarDecl | labeledStmt
  | returnStmt | breakStmt | continueStmt | gotoStmt | fallthroughStmt | deferStmt | ifStmt
  | switchStmt | exprSwitchStmt | exprCaseClause | exprSwitchCase | typeSwitchStmt
  | typeSwitchGuard | typeCaseClause | typeSwitchCase | typeList | selectStmt | commClause
  | commCase | recvStmt | forStmt | forClause | rangeClause | goStmt | type | typeArgs | typeName
  | typeLit | arrayType | arrayLength | elementType | pointerType | interfaceType | sliceType
  | mapType | channelType | methodSpec | functionType | signature | result | parameters
  | parameterDecl | expression | primaryExpr | conversion | operand | literal | basicLit
  | integer | operandName | qualifiedIdent | compositeLit | literalType | literalValue
  | elementList | keyedElement | key | element | structType | fieldDecl | string | embeddedField
  | functionLit | index | slice | typeAssertion | arguments | methodExpr | eos
  deriving DecidableEq, Repr, Hashable, Inhabited

namespace Category

def all : List Category :=
  [.sourceFile, .packageClause, .importDecl, .importSpec, .importPath, .declaration, .constDecl,
  .constSpec, .identifierList, .expressionList, .typeDecl, .typeSpec, .aliasDecl, .typeDef,
  .typeParameters, .typeParameterDecl, .typeElement, .typeTerm, .functionDecl, .methodDecl,
  .receiver, .varDecl, .varSpec, .block, .statementList, .statement, .simpleStmt,
  .expressionStmt, .sendStmt, .incDecStmt, .assignment, .assignOp, .shortVarDecl, .labeledStmt,
  .returnStmt, .breakStmt, .continueStmt, .gotoStmt, .fallthroughStmt, .deferStmt, .ifStmt,
  .switchStmt, .exprSwitchStmt, .exprCaseClause, .exprSwitchCase, .typeSwitchStmt,
  .typeSwitchGuard, .typeCaseClause, .typeSwitchCase, .typeList, .selectStmt, .commClause,
  .commCase, .recvStmt, .forStmt, .forClause, .rangeClause, .goStmt, .type, .typeArgs, .typeName,
  .typeLit, .arrayType, .arrayLength, .elementType, .pointerType, .interfaceType, .sliceType,
  .mapType, .channelType, .methodSpec, .functionType, .signature, .result, .parameters,
  .parameterDecl, .expression, .primaryExpr, .conversion, .operand, .literal, .basicLit,
  .integer, .operandName, .qualifiedIdent, .compositeLit, .literalType, .literalValue,
  .elementList, .keyedElement, .key, .element, .structType, .fieldDecl, .string, .embeddedField,
  .functionLit, .index, .slice, .typeAssertion, .arguments, .methodExpr, .eos]

def name : Category → String
  | .sourceFile => "sourceFile"
  | .packageClause => "packageClause"
  | .importDecl => "importDecl"
  | .importSpec => "importSpec"
  | .importPath => "importPath"
  | .declaration => "declaration"
  | .constDecl => "constDecl"
  | .constSpec => "constSpec"
  | .identifierList => "identifierList"
  | .expressionList => "expressionList"
  | .typeDecl => "typeDecl"
  | .typeSpec => "typeSpec"
  | .aliasDecl => "aliasDecl"
  | .typeDef => "typeDef"
  | .typeParameters => "typeParameters"
  | .typeParameterDecl => "typeParameterDecl"
  | .typeElement => "typeElement"
  | .typeTerm => "typeTerm"
  | .functionDecl => "functionDecl"
  | .methodDecl => "methodDecl"
  | .receiver => "receiver"
  | .varDecl => "varDecl"
  | .varSpec => "varSpec"
  | .block => "block"
  | .statementList => "statementList"
  | .statement => "statement"
  | .simpleStmt => "simpleStmt"
  | .expressionStmt => "expressionStmt"
  | .sendStmt => "sendStmt"
  | .incDecStmt => "incDecStmt"
  | .assignment => "assignment"
  | .assignOp => "assign_op"
  | .shortVarDecl => "shortVarDecl"
  | .labeledStmt => "labeledStmt"
  | .returnStmt => "returnStmt"
  | .breakStmt => "breakStmt"
  | .continueStmt => "continueStmt"
  | .gotoStmt => "gotoStmt"
  | .fallthroughStmt => "fallthroughStmt"
  | .deferStmt => "deferStmt"
  | .ifStmt => "ifStmt"
  | .switchStmt => "switchStmt"
  | .exprSwitchStmt => "exprSwitchStmt"
  | .exprCaseClause => "exprCaseClause"
  | .exprSwitchCase => "exprSwitchCase"
  | .typeSwitchStmt => "typeSwitchStmt"
  | .typeSwitchGuard => "typeSwitchGuard"
  | .typeCaseClause => "typeCaseClause"
  | .typeSwitchCase => "typeSwitchCase"
  | .typeList => "typeList"
  | .selectStmt => "selectStmt"
  | .commClause => "commClause"
  | .commCase => "commCase"
  | .recvStmt => "recvStmt"
  | .forStmt => "forStmt"
  | .forClause => "forClause"
  | .rangeClause => "rangeClause"
  | .goStmt => "goStmt"
  | .type => "type_"
  | .typeArgs => "typeArgs"
  | .typeName => "typeName"
  | .typeLit => "typeLit"
  | .arrayType => "arrayType"
  | .arrayLength => "arrayLength"
  | .elementType => "elementType"
  | .pointerType => "pointerType"
  | .interfaceType => "interfaceType"
  | .sliceType => "sliceType"
  | .mapType => "mapType"
  | .channelType => "channelType"
  | .methodSpec => "methodSpec"
  | .functionType => "functionType"
  | .signature => "signature"
  | .result => "result"
  | .parameters => "parameters"
  | .parameterDecl => "parameterDecl"
  | .expression => "expression"
  | .primaryExpr => "primaryExpr"
  | .conversion => "conversion"
  | .operand => "operand"
  | .literal => "literal"
  | .basicLit => "basicLit"
  | .integer => "integer"
  | .operandName => "operandName"
  | .qualifiedIdent => "qualifiedIdent"
  | .compositeLit => "compositeLit"
  | .literalType => "literalType"
  | .literalValue => "literalValue"
  | .elementList => "elementList"
  | .keyedElement => "keyedElement"
  | .key => "key"
  | .element => "element"
  | .structType => "structType"
  | .fieldDecl => "fieldDecl"
  | .string => "string_"
  | .embeddedField => "embeddedField"
  | .functionLit => "functionLit"
  | .index => "index"
  | .slice => "slice_"
  | .typeAssertion => "typeAssertion"
  | .arguments => "arguments"
  | .methodExpr => "methodExpr"
  | .eos => "eos"

/-- The name as it stands in the name of an event. -/
def title (n : Category) : String := n.name.capitalize

def ofName? (s : String) : Option Category := all.find? fun n => n.name == s

def number (n : Category) : Nat := n.ctorIdx

end Category

end GoFlow
