import GoFlow.Grammar.Phrase

/-!
The grammar of Go. A statement, declaration or clause ends with a terminator, which may be left
out before a closing bracket.
-/

namespace GoFlow

namespace Phrase

def tok (k : Kind) : Phrase := .token none k

def cat (c : Category) : Phrase := .part none c 0

/-- One phrase, or a bracketed list of phrases that each end with a terminator. -/
def oneOrGroup (c : Category) : Phrase :=
  .choice [cat c, .seq [tok .lParen, .many (.seq [cat c, cat .eos]), tok .rParen]]

def listOf (p : Phrase) (separator : Kind) : List Phrase := [p, .many (.seq [tok separator, p])]

end Phrase

open Phrase

def Category.production : Category → Production
  | .sourceFile => .plain [.seq [cat .packageClause, cat .eos,
      .many (.seq [cat .importDecl, cat .eos]),
      .many (.seq [.choice [cat .functionDecl, cat .methodDecl, cat .declaration], cat .eos]),
      tok .eof]]
  | .packageClause => .plain [.seq [tok .kwPackage, .token (some .packageName) .identifier]]
  | .importDecl => .plain [.seq [tok .kwImport, oneOrGroup .importSpec]]
  | .importSpec => .plain [.seq [.maybe [.oneOf (some .importAlias) [.dot, .identifier]],
      cat .importPath]]
  | .importPath => .plain [cat .string]
  | .declaration => .plain [cat .constDecl, cat .typeDecl, cat .varDecl]
  | .constDecl => .plain [.seq [tok .kwConst, oneOrGroup .constSpec]]
  | .constSpec => .plain [.seq [cat .identifierList,
      .maybe [.seq [.maybe [cat .type], tok .assign, cat .expressionList]]]]
  | .identifierList => .plain [.seq (listOf (tok .identifier) .comma)]
  | .expressionList => .plain [.seq (listOf (cat .expression) .comma)]
  | .typeDecl => .plain [.seq [tok .kwType, oneOrGroup .typeSpec]]
  | .typeSpec => .plain [cat .aliasDecl, cat .typeDef]
  | .aliasDecl => .plain [.seq [tok .identifier, tok .assign, cat .type]]
  | .typeDef => .plain [.seq [tok .identifier, .maybe [cat .typeParameters], cat .type]]
  | .typeParameters => .plain [.seq ([tok .lBracket] ++ listOf (cat .typeParameterDecl) .comma ++
      [tok .rBracket])]
  | .typeParameterDecl => .plain [.seq [cat .identifierList, cat .typeElement]]
  | .typeElement => .plain [.seq (listOf (cat .typeTerm) .bitOr)]
  | .typeTerm => .plain [.seq [.maybe [tok .underlying], cat .type]]
  | .functionDecl => .plain [.seq [tok .kwFunc, tok .identifier, .maybe [cat .typeParameters],
      cat .signature, .maybe [cat .block]]]
  | .methodDecl => .plain [.seq [tok .kwFunc, cat .receiver, tok .identifier, cat .signature,
      .maybe [cat .block]]]
  | .receiver => .plain [cat .parameters]
  | .varDecl => .plain [.seq [tok .kwVar, oneOrGroup .varSpec]]
  | .varSpec => .plain [.seq [cat .identifierList, .choice [
      .seq [cat .type, .maybe [.seq [tok .assign, cat .expressionList]]],
      .seq [tok .assign, cat .expressionList]]]]
  | .block => .plain [.seq [tok .lCurly, .maybe [cat .statementList], tok .rCurly]]
  | .statementList => .plain [.oneOrMore (.seq [
      .choice [.maybe [tok .semi], .maybe [tok .eos], .bracketAhead],
      cat .statement, cat .eos])]
  | .statement => .plain [cat .declaration, cat .labeledStmt, cat .simpleStmt, cat .goStmt,
      cat .returnStmt, cat .breakStmt, cat .continueStmt, cat .gotoStmt, cat .fallthroughStmt,
      cat .block, cat .ifStmt, cat .switchStmt, cat .selectStmt, cat .forStmt, cat .deferStmt]
  | .simpleStmt => .plain [cat .sendStmt, cat .incDecStmt, cat .assignment, cat .expressionStmt,
      cat .shortVarDecl]
  | .expressionStmt => .plain [cat .expression]
  | .sendStmt => .plain [.seq [.part (some .channel) .expression 0, tok .receive,
      cat .expression]]
  | .incDecStmt => .plain [.seq [cat .expression, .oneOf none [.plusPlus, .minusMinus]]]
  | .assignment => .plain [.seq [cat .expressionList, cat .assignOp, cat .expressionList]]
  | .assignOp => .plain [.seq [.maybe [.oneOf none [.bitOr, .div, .mod, .lshift, .rshift,
      .bitClear, .plus, .minus, .caret, .star, .ampersand]], tok .assign]]
  | .shortVarDecl => .plain [.seq [cat .identifierList, tok .declareAssign, cat .expressionList]]
  | .labeledStmt => .plain [.seq [tok .identifier, tok .colon, .maybe [cat .statement]]]
  | .returnStmt => .plain [.seq [tok .kwReturn, .maybe [cat .expressionList]]]
  | .breakStmt => .plain [.seq [tok .kwBreak, .maybe [tok .identifier]]]
  | .continueStmt => .plain [.seq [tok .kwContinue, .maybe [tok .identifier]]]
  | .gotoStmt => .plain [.seq [tok .kwGoto, tok .identifier]]
  | .fallthroughStmt => .plain [tok .kwFallthrough]
  | .deferStmt => .plain [.seq [tok .kwDefer, cat .expression]]
  | .ifStmt => .plain [.seq [tok .kwIf,
      .choice [cat .expression, .seq [cat .eos, cat .expression],
        .seq [cat .simpleStmt, cat .eos, cat .expression]],
      cat .block,
      .maybe [.seq [tok .kwElse, .choice [cat .ifStmt, cat .block]]]]]
  | .switchStmt => .plain [cat .exprSwitchStmt, cat .typeSwitchStmt]
  | .exprSwitchStmt => .plain [.seq [tok .kwSwitch,
      .choice [.maybe [cat .expression],
        .seq [.maybe [cat .simpleStmt], cat .eos, .maybe [cat .expression]]],
      tok .lCurly, .many (cat .exprCaseClause), tok .rCurly]]
  | .exprCaseClause => .plain [.seq [cat .exprSwitchCase, tok .colon,
      .maybe [cat .statementList]]]
  | .exprSwitchCase => .plain [.seq [tok .kwCase, cat .expressionList], tok .kwDefault]
  | .typeSwitchStmt => .plain [.seq [tok .kwSwitch,
      .choice [cat .typeSwitchGuard, .seq [cat .eos, cat .typeSwitchGuard],
        .seq [cat .simpleStmt, cat .eos, cat .typeSwitchGuard]],
      tok .lCurly, .many (cat .typeCaseClause), tok .rCurly]]
  | .typeSwitchGuard => .plain [.seq [.maybe [.seq [tok .identifier, tok .declareAssign]],
      cat .primaryExpr, tok .dot, tok .lParen, tok .kwType, tok .rParen]]
  | .typeCaseClause => .plain [.seq [cat .typeSwitchCase, tok .colon,
      .maybe [cat .statementList]]]
  | .typeSwitchCase => .plain [.seq [tok .kwCase, cat .typeList], tok .kwDefault]
  | .typeList => .plain [.seq (listOf (.choice [cat .type, tok .nilLit]) .comma)]
  | .selectStmt => .plain [.seq [tok .kwSelect, tok .lCurly, .many (cat .commClause),
      tok .rCurly]]
  | .commClause => .plain [.seq [cat .commCase, tok .colon, .maybe [cat .statementList]]]
  | .commCase => .plain [.seq [tok .kwCase, .choice [cat .sendStmt, cat .recvStmt]],
      tok .kwDefault]
  | .recvStmt => .plain [.seq [.maybe [.seq [cat .expressionList, tok .assign],
        .seq [cat .identifierList, tok .declareAssign]],
      .part (some .recvExpr) .expression 0]]
  | .forStmt => .plain [.seq [tok .kwFor,
      .choice [.maybe [cat .expression], cat .forClause, .maybe [cat .rangeClause]],
      cat .block]]
  | .forClause => .plain [.seq [.maybe [.part (some .initStmt) .simpleStmt 0], cat .eos,
      .maybe [cat .expression], cat .eos, .maybe [.part (some .postStmt) .simpleStmt 0]]]
  | .rangeClause => .plain [.seq [.maybe [.seq [cat .expressionList, tok .assign],
        .seq [cat .identifierList, tok .declareAssign]],
      tok .kwRange, cat .expression]]
  | .goStmt => .plain [.seq [tok .kwGo, cat .expression]]
  | .type => .plain [.seq [cat .typeName, .maybe [cat .typeArgs]], cat .typeLit,
      .seq [tok .lParen, cat .type, tok .rParen]]
  | .typeArgs => .plain [.seq [tok .lBracket, cat .typeList, .maybe [tok .comma], tok .rBracket]]
  | .typeName => .plain [cat .qualifiedIdent, tok .identifier]
  | .typeLit => .plain [cat .arrayType, cat .structType, cat .pointerType, cat .functionType,
      cat .interfaceType, cat .sliceType, cat .mapType, cat .channelType]
  | .arrayType => .plain [.seq [tok .lBracket, cat .arrayLength, tok .rBracket,
      cat .elementType]]
  | .arrayLength => .plain [cat .expression]
  | .elementType => .plain [cat .type]
  | .pointerType => .plain [.seq [tok .star, cat .type]]
  | .interfaceType => .plain [.seq [tok .kwInterface, tok .lCurly,
      .many (.seq [.choice [cat .methodSpec, cat .typeElement], cat .eos]), tok .rCurly]]
  | .sliceType => .plain [.seq [tok .lBracket, tok .rBracket, cat .elementType]]
  | .mapType => .plain [.seq [tok .kwMap, tok .lBracket, cat .type, tok .rBracket,
      cat .elementType]]
  | .channelType => .plain [.seq [
      .choice [tok .kwChan, .seq [tok .kwChan, tok .receive], .seq [tok .receive, tok .kwChan]],
      cat .elementType]]
  | .methodSpec => .plain [.seq [tok .identifier, cat .parameters, cat .result],
      .seq [tok .identifier, cat .parameters]]
  | .functionType => .plain [.seq [tok .kwFunc, cat .signature]]
  | .signature => .plain [.seq [cat .parameters, .maybe [cat .result]]]
  | .result => .plain [cat .parameters, cat .type]
  | .parameters => .plain [.seq [tok .lParen,
      .maybe [.seq (listOf (cat .parameterDecl) .comma ++ [.maybe [tok .comma]])],
      tok .rParen]]
  | .parameterDecl => .plain [.seq [.maybe [cat .identifierList], .maybe [tok .ellipsis],
      cat .type]]
  | .expression => .grown
      [cat .primaryExpr,
       .seq [.oneOf (some .unaryOp) [.exclamation, .plus, .minus, .caret, .star, .ampersand,
         .receive], .part none .expression 6]]
      [(5, .seq [.oneOf (some .mulOp) [.div, .mod, .lshift, .rshift, .bitClear, .star,
         .ampersand], .part none .expression 6]),
       (4, .seq [.oneOf (some .addOp) [.bitOr, .plus, .minus, .caret],
         .part none .expression 5]),
       (3, .seq [.oneOf (some .relOp) [.equals, .notEquals, .less, .lessOrEquals, .greater,
         .greaterOrEquals], .part none .expression 4]),
       (2, .seq [tok .logicalAnd, .part none .expression 3]),
       (1, .seq [tok .logicalOr, .part none .expression 2])]
  | .primaryExpr => .grown
      [cat .operand, cat .conversion, cat .methodExpr]
      [(1, .choice [.seq [tok .dot, tok .identifier], cat .index, cat .slice,
         cat .typeAssertion, cat .arguments])]
  | .conversion => .plain [.seq [cat .type, tok .lParen, cat .expression, .maybe [tok .comma],
      tok .rParen]]
  | .operand => .plain [cat .literal, .seq [cat .operandName, .maybe [cat .typeArgs]],
      .seq [tok .lParen, cat .expression, tok .rParen]]
  | .literal => .plain [cat .basicLit, cat .compositeLit, cat .functionLit]
  | .basicLit => .plain [tok .nilLit, cat .integer, cat .string, tok .floatLit]
  | .integer => .plain [.oneOf none [.decimalLit, .binaryLit, .octalLit, .hexLit, .imaginaryLit,
      .runeLit]]
  | .operandName => .plain [tok .identifier]
  | .qualifiedIdent => .plain [.seq [tok .identifier, tok .dot, tok .identifier]]
  | .compositeLit => .plain [.seq [cat .literalType, cat .literalValue]]
  | .literalType => .plain [cat .structType, cat .arrayType,
      .seq [tok .lBracket, tok .ellipsis, tok .rBracket, cat .elementType], cat .sliceType,
      cat .mapType, .seq [cat .typeName, .maybe [cat .typeArgs]]]
  | .literalValue => .plain [.seq [tok .lCurly,
      .maybe [.seq [cat .elementList, .maybe [tok .comma]]], tok .rCurly]]
  | .elementList => .plain [.seq (listOf (cat .keyedElement) .comma)]
  | .keyedElement => .plain [.seq [.maybe [.seq [cat .key, tok .colon]], cat .element]]
  | .key => .plain [cat .expression, cat .literalValue]
  | .element => .plain [cat .expression, cat .literalValue]
  | .structType => .plain [.seq [tok .kwStruct, tok .lCurly,
      .many (.seq [cat .fieldDecl, cat .eos]), tok .rCurly]]
  | .fieldDecl => .plain [.seq [
      .choice [.seq [cat .identifierList, cat .type], cat .embeddedField],
      .maybe [.part (some .tag) .string 0]]]
  | .string => .plain [.oneOf none [.rawStringLit, .interpretedStringLit]]
  | .embeddedField => .plain [.seq [.maybe [tok .star], cat .typeName, .maybe [cat .typeArgs]]]
  | .functionLit => .plain [.seq [tok .kwFunc, cat .signature, cat .block]]
  | .index => .plain [.seq [tok .lBracket, cat .expression, tok .rBracket]]
  | .slice => .plain [.seq [tok .lBracket,
      .choice [.seq [.maybe [cat .expression], tok .colon, .maybe [cat .expression]],
        .seq [.maybe [cat .expression], tok .colon, cat .expression, tok .colon,
          cat .expression]],
      tok .rBracket]]
  | .typeAssertion => .plain [.seq [tok .dot, tok .lParen, cat .type, tok .rParen]]
  | .arguments => .plain [.seq [tok .lParen,
      .maybe [.seq [
        .choice [cat .expressionList,
          .seq [cat .type, .maybe [.seq [tok .comma, cat .expressionList]]]],
        .maybe [tok .ellipsis], .maybe [tok .comma]]],
      tok .rParen]]
  | .methodExpr => .plain [.seq [cat .type, tok .dot, tok .identifier]]
  | .eos => .plain [tok .semi, tok .eof, tok .eos, .bracketAhead]

end GoFlow
