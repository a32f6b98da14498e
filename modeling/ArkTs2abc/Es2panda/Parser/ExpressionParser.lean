import Mathlib.Data.Nat.Notation

/-!
# The expression parser

The parser reads unary expressions, and from there on looks at the next token: a binary operator
takes a whole expression as its right side, and is then put into the finished tree of that side,
at its root or along its left spine, by comparing precedences.

A token is what `ParsePrimaryExpression` or one of the other functions looks at; the text of an
identifier, of a member expression and of any other left-hand side expression that is not in
parentheses is one token. The functions are those for the extension JS and take fuel.

## Main definitions

* `Token`, `Expression` — tokens and syntax trees.
* `getOperatorPrecedence`, `shouldBinaryExpressionBeAmended` — what is compared.
* `parseExpression`, `parseAssignmentExpression`, `parseBinaryExpression` — the parser.
-/

namespace ArkTs2abc.Es2panda.Parser

/-- The binary tokens, in the order of `TokenType`. -/
inductive BinaryOperator where
  | nullishCoalescing
  | logicalOr
  | logicalAnd
  | bitwiseOr
  | bitwiseXor
  | bitwiseAnd
  | equal
  | notEqual
  | strictEqual
  | notStrictEqual
  | lessThan
  | lessThanEqual
  | greaterThan
  | greaterThanEqual
  | leftShift
  | rightShift
  | unsignedRightShift
  | plus
  | minus
  | multiply
  | divide
  | mod
  | keywIn
  | keywInstanceof
  | exponentiation
  deriving DecidableEq, Repr

inductive UnaryOperator where
  | minus
  | plus
  | tilde
  | exclamationMark
  | keywTypeof
  | keywVoid
  | keywDelete
  deriving DecidableEq, Repr

inductive UpdateOperator where
  | plusPlus
  | minusMinus
  deriving DecidableEq, Repr

inductive AssignmentOperator where
  | substitution
  | unsignedRightShiftEqual
  | rightShiftEqual
  | leftShiftEqual
  | plusEqual
  | minusEqual
  | multiplyEqual
  | divideEqual
  | modEqual
  | bitwiseAndEqual
  | bitwiseOrEqual
  | bitwiseXorEqual
  | logicalAndEqual
  | logicalOrEqual
  | logicalNullishEqual
  | exponentiationEqual
  deriving DecidableEq, Repr

inductive Token where
  | identifier (text : ℕ)
  | member (text : ℕ)
  /-- A literal, a call, a postfix update or another left-hand side expression. -/
  | operand (text : ℕ)
  | binary (op : BinaryOperator)
  | tilde
  | exclamationMark
  | keywTypeof
  | keywVoid
  | keywDelete
  | keywAwait
  | update (op : UpdateOperator)
  | assignment (op : AssignmentOperator)
  | leftParenthesis
  | rightParenthesis
  | questionMark
  | colon
  | comma
  | arrow
  /-- The body of an arrow function that is a block. -/
  | block (text : ℕ)
  deriving DecidableEq, Repr

mutual

/-- Expressions, each with the flag that `SetGrouped` sets. -/
inductive Expression where
  | identifier (grouped : Bool) (text : ℕ)
  | member (grouped : Bool) (text : ℕ)
  | operand (grouped : Bool) (text : ℕ)
  | unary (grouped : Bool) (op : UnaryOperator) (argument : Expression)
  | update (grouped : Bool) (op : UpdateOperator) (argument : Expression)
  | await (grouped : Bool) (argument : Expression)
  | binary (grouped : Bool) (op : BinaryOperator) (left right : Expression)
  | conditional (grouped : Bool) (test consequent alternate : Expression)
  | assignment (grouped : Bool) (op : AssignmentOperator) (left right : Expression)
  | arrowFunction (grouped : Bool) (params : Expressions) (body : Expression)
  | blockFunction (grouped : Bool) (params : Expressions) (block : ℕ)
  | sequence (grouped : Bool) (expressions : Expressions)
  deriving DecidableEq, Repr

inductive Expressions where
  | nil
  | cons (head : Expression) (tail : Expressions)
  deriving DecidableEq, Repr

end

inductive Failure where
  | syntaxError (message : String)
  | outOfFuel
  deriving DecidableEq, Repr

abbrev Parse (α : Type) := Except Failure α

def throwSyntaxError {α : Type} (message : String) : Parse α :=
  .error (.syntaxError message)

/-! ### What is compared -/

def getOperatorPrecedence : BinaryOperator → ℕ
  | .nullishCoalescing => 1
  | .logicalOr => 2
  | .logicalAnd | .bitwiseOr => 3
  | .bitwiseXor => 4
  | .bitwiseAnd => 5
  | .equal | .notEqual | .strictEqual | .notStrictEqual => 6
  | .lessThan | .lessThanEqual | .greaterThan | .greaterThanEqual | .keywInstanceof | .keywIn => 7
  | .leftShift | .rightShift | .unsignedRightShift => 8
  | .plus | .minus => 9
  | .multiply | .divide | .mod => 10
  | .exponentiation => 11

namespace BinaryOperator

/-- `BinaryExpression::IsLogical`, with the operators in the order of `TokenType`. -/
def isLogical : BinaryOperator → Bool
  | nullishCoalescing | logicalOr | logicalAnd => true
  | _ => false

end BinaryOperator

namespace UnaryOperator

def token : UnaryOperator → Token
  | minus => .binary .minus
  | plus => .binary .plus
  | tilde => .tilde
  | exclamationMark => .exclamationMark
  | keywTypeof => .keywTypeof
  | keywVoid => .keywVoid
  | keywDelete => .keywDelete

end UnaryOperator

namespace Token

/-- The unary operator that a token is, for the tokens of `Token::IsUnary` that make a
`UnaryExpression`. -/
def unaryOperator? : Token → Option UnaryOperator
  | binary .minus => some .minus
  | binary .plus => some .plus
  | tilde => some .tilde
  | exclamationMark => some .exclamationMark
  | keywTypeof => some .keywTypeof
  | keywVoid => some .keywVoid
  | keywDelete => some .keywDelete
  | _ => none

/-- `Token::IsUnary` -/
def isUnary : Token → Bool
  | update _ | keywAwait => true
  | token => token.unaryOperator?.isSome

end Token

namespace Expression

def isGrouped : Expression → Bool
  | identifier g _ | member g _ | operand g _ | unary g _ _ | update g _ _ | await g _
  | binary g _ _ _ | conditional g _ _ _ | assignment g _ _ _ | arrowFunction g _ _
  | blockFunction g _ _ | sequence g _ => g

def setGrouped : Expression → Expression
  | identifier _ n => identifier true n
  | member _ n => member true n
  | operand _ n => operand true n
  | unary _ op e => unary true op e
  | update _ op e => update true op e
  | await _ e => await true e
  | binary _ op l r => binary true op l r
  | conditional _ t c a => conditional true t c a
  | assignment _ op l r => assignment true op l r
  | arrowFunction _ p b => arrowFunction true p b
  | blockFunction _ p b => blockFunction true p b
  | sequence _ es => sequence true es

def isIdentifier : Expression → Bool
  | identifier _ _ => true
  | _ => false

def isMemberExpression : Expression → Bool
  | member _ _ => true
  | _ => false

def isUnaryExpression : Expression → Bool
  | unary _ _ _ => true
  | _ => false

def isAwaitExpression : Expression → Bool
  | await _ _ => true
  | _ => false

/-- `ConvertibleToAssignmentPattern`, for targets that are identifiers and members. -/
def convertibleToAssignmentPattern : Expression → Bool
  | assignment _ _ _ (assignment g op l r) => convertibleToAssignmentPattern (assignment g op l r)
  | _ => true

end Expression

/-- The test of a binary expression with the flag `grouped` and the operator `p`, when the operator
`operatorType` is put before it. -/
def shouldBinaryExpressionBeAmended (grouped : Bool) (p operatorType : BinaryOperator) : Bool :=
  getOperatorPrecedence p ≤ getOperatorPrecedence operatorType && !grouped &&
    (operatorType != .exponentiation || p != .exponentiation)

/-! ### Checks -/

def validateParenthesized (e : Expression) : Parse Unit :=
  match e with
  | .assignment .. =>
    if e.convertibleToAssignmentPattern then .ok ()
    else throwSyntaxError "Invalid left-hand side in assignment expression"
  | _ => .ok ()

def validateParenthesizedAll : Expressions → Parse Unit
  | .nil => .ok ()
  | .cons e es => do
    validateParenthesized e
    validateParenthesizedAll es

/-- The check at the start of `ParseAssignmentExpression`. -/
def validateGrouped (lhsExpression : Expression) (nextTokens : List Token) : Parse Unit :=
  if lhsExpression.isGrouped && nextTokens.head? != some .arrow then
    match lhsExpression with
    | .sequence _ es => validateParenthesizedAll es
    | e => validateParenthesized e
  else .ok ()

def validateLvalueAssignmentTarget : Expression → Parse Unit
  | .identifier .. | .member .. => .ok ()
  | _ => throwSyntaxError "Invalid left-hand side in assignment expression"

def validateArrowParameter : Expression → Parse Unit
  | .identifier .. => .ok ()
  | .assignment _ _ left right =>
    if right.isAwaitExpression then
      throwSyntaxError "await is not allowed in arrow function parameters"
    else if left.isIdentifier then .ok ()
    else throwSyntaxError "Unexpected ArrowParameter element"
  | _ => throwSyntaxError "Insufficient formal parameter in arrow function."

def validateArrowParameters : Expressions → Parse Unit
  | .nil => .ok ()
  | .cons e es => do
    validateArrowParameter e
    validateArrowParameters es

def convertToArrowParameter (e : Expression) : Parse Expressions :=
  match e with
  | .identifier .. | .assignment .. => do
    validateArrowParameter e
    .ok (.cons e .nil)
  | .sequence _ es => do
    validateArrowParameters es
    .ok es
  | _ => throwSyntaxError "Unexpected token, arrow (=>)"

/-! ### Trees of binary expressions -/

/-- The loop of `ParseBinaryExpression`, from a binary expression that is amended: the new
expression takes the place of the last left operand on the way that is not to be amended. -/
def amendLeft (left : Expression) (operatorType : BinaryOperator) : Expression → Expression
  | .binary grouped p (.binary grouped' q l m) r =>
    if shouldBinaryExpressionBeAmended grouped' q operatorType then
      .binary grouped p (amendLeft left operatorType (.binary grouped' q l m)) r
    else .binary grouped p (.binary false operatorType left (.binary grouped' q l m)) r
  | .binary grouped p l r => .binary grouped p (.binary false operatorType left l) r
  | e => e

/-- What `ParseBinaryExpression` makes of its left side, its operator and its right side, the test
of a conditional right side. -/
def attachLeft (left : Expression) (operatorType : BinaryOperator) (rightExpr : Expression) :
    Parse Expression :=
  match rightExpr with
  | .binary grouped p _ _ =>
    if shouldBinaryExpressionBeAmended grouped p operatorType then
      if (operatorType = .logicalOr ∨ operatorType = .logicalAnd) ∧ p = .nullishCoalescing then
        throwSyntaxError
          "Nullish coalescing operator ?? requires parens when mixing with logical operators."
      else .ok (amendLeft left operatorType rightExpr)
    else if operatorType = .nullishCoalescing ∧ p.isLogical ∧ ¬ grouped then
      throwSyntaxError
        "Nullish coalescing operator ?? requires parens when mixing with logical operators."
    else .ok (.binary false operatorType left rightExpr)
  | _ => .ok (.binary false operatorType left rightExpr)

/-! ### The parser -/

mutual

def parseExpression : ℕ → Bool → List Token → Parse (Expression × List Token)
  | 0, _, _ => .error .outOfFuel
  | fuel + 1, acceptComma, tokens => do
    let (unaryExpressionNode, tokens) ← parseUnaryOrPrefixUpdateExpression fuel tokens
    let (assignmentExpression, tokens) ←
      parseAssignmentExpression fuel unaryExpressionNode tokens
    match acceptComma, tokens with
    | true, .comma :: _ => do
      let (tail, tokens) ← parseSequenceExpression fuel tokens
      .ok (.sequence false (.cons assignmentExpression tail), tokens)
    | _, _ => .ok (assignmentExpression, tokens)

/-- The loop of `ParseSequenceExpression`. -/
def parseSequenceExpression : ℕ → List Token → Parse (Expressions × List Token)
  | 0, _ => .error .outOfFuel
  | _ + 1, .comma :: .rightParenthesis :: .arrow :: tokens =>
    -- a comma before the closing parenthesis of arrow function parameters
    .ok (.nil, .rightParenthesis :: .arrow :: tokens)
  | fuel + 1, .comma :: tokens => do
    let (expression, tokens) ← parseExpression fuel false tokens
    let (tail, tokens) ← parseSequenceExpression fuel tokens
    .ok (.cons expression tail, tokens)
  | _ + 1, tokens => .ok (.nil, tokens)

/-- `ParseLeftHandSideExpression`, down to `ParsePrimaryExpression` and
`ParseCoverParenthesizedExpressionAndArrowParameterList`. -/
def parseLeftHandSideExpression : ℕ → List Token → Parse (Expression × List Token)
  | 0, _ => .error .outOfFuel
  | _ + 1, .identifier n :: tokens => .ok (.identifier false n, tokens)
  | _ + 1, .member n :: tokens => .ok (.member false n, tokens)
  | _ + 1, .operand n :: tokens => .ok (.operand false n, tokens)
  | fuel + 1, .leftParenthesis :: .rightParenthesis :: tokens =>
    match tokens with
    | .arrow :: tokens => parseArrowFunctionExpressionBody fuel .nil tokens
    | _ => throwSyntaxError "Unexpected token"
  | fuel + 1, .leftParenthesis :: tokens => do
    let (expr, tokens) ← parseExpression fuel true tokens
    match tokens with
    | .rightParenthesis :: tokens => .ok (expr.setGrouped, tokens)
    | _ => throwSyntaxError "Unexpected token, expected ')'"
  | _ + 1, _ => throwSyntaxError "Primary expression expected"

def parseUnaryOrPrefixUpdateExpression : ℕ → List Token → Parse (Expression × List Token)
  | 0, _ => .error .outOfFuel
  | fuel + 1, [] => parseLeftHandSideExpression fuel []
  | fuel + 1, operatorType :: tokens =>
    if !operatorType.isUnary then parseLeftHandSideExpression fuel (operatorType :: tokens)
    else do
      let (argument, tokens) ←
        (if (tokens.head?.map Token.isUnary).getD false then
          parseUnaryOrPrefixUpdateExpression fuel tokens
        else parseLeftHandSideExpression fuel tokens)
      match operatorType with
      | .update op =>
        if argument.isIdentifier || argument.isMemberExpression then
          .ok (.update false op argument, tokens)
        else throwSyntaxError "Invalid left-hand side in prefix operation"
      | .keywAwait => .ok (.await false argument, tokens)
      | _ =>
        match operatorType.unaryOperator? with
        | some op =>
          if op = .keywDelete ∧ argument.isIdentifier then
            throwSyntaxError "Deleting local variable in strict mode"
          else .ok (.unary false op argument, tokens)
        | none => throwSyntaxError "Primary expression expected"

def parseAssignmentExpression : ℕ → Expression → List Token → Parse (Expression × List Token)
  | 0, _, _ => .error .outOfFuel
  | fuel + 1, lhsExpression, tokens => do
    validateGrouped lhsExpression tokens
    match tokens with
    | .questionMark :: tokens => do
      let (consequent, tokens) ← parseExpression fuel false tokens
      match tokens with
      | .colon :: tokens => do
        let (alternate, tokens) ← parseExpression fuel false tokens
        .ok (.conditional false lhsExpression consequent alternate, tokens)
      | _ => throwSyntaxError "Unexpected token, expected ':'"
    | .arrow :: tokens => do
      let params ← convertToArrowParameter lhsExpression
      parseArrowFunctionExpressionBody fuel params tokens
    | .binary op :: tokens => do
      let (binaryExpression, tokens) ← parseBinaryExpression fuel lhsExpression op tokens
      parseAssignmentExpression fuel binaryExpression tokens
    | .assignment op :: tokens => do
      validateLvalueAssignmentTarget lhsExpression
      let (assignmentExpression, tokens) ← parseExpression fuel false tokens
      .ok (.assignment false op lhsExpression assignmentExpression, tokens)
    | _ => .ok (lhsExpression, tokens)

def parseBinaryExpression :
    ℕ → Expression → BinaryOperator → List Token → Parse (Expression × List Token)
  | 0, _, _, _ => .error .outOfFuel
  | fuel + 1, left, operatorType, tokens => do
    if operatorType = .exponentiation ∧ left.isUnaryExpression ∧ ¬ left.isGrouped then
      throwSyntaxError ("Illegal expression. Wrap left hand side or entire " ++
        "exponentiation in parentheses.")
    let (rightExprNode, tokens) ← parseExpression fuel false tokens
    match rightExprNode with
    | .conditional false test consequent alternate => do
      let rightExpr ← attachLeft left operatorType test
      .ok (.conditional false rightExpr consequent alternate, tokens)
    | rightExpr => do
      let rightExpr ← attachLeft left operatorType rightExpr
      .ok (rightExpr, tokens)

/-- From behind the arrow. -/
def parseArrowFunctionExpressionBody : ℕ → Expressions → List Token →
    Parse (Expression × List Token)
  | 0, _, _ => .error .outOfFuel
  | _ + 1, params, .block n :: tokens => .ok (.blockFunction false params n, tokens)
  | fuel + 1, params, tokens => do
    let (body, tokens) ← parseExpression fuel false tokens
    .ok (.arrowFunction false params body, tokens)

end

end ArkTs2abc.Es2panda.Parser
