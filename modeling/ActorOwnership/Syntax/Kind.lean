/-! The kinds of syntax nodes. -/

namespace ActorOwnership.Syntax
set_option autoImplicit false

/-- What a syntax node is. A node of a kind that no rule asks for is `other`. -/
inductive Kind where
  | module | block | functionDefinition | classDefinition | decoratedDefinition | decorator
  | parameters | lambdaParameters | typedParameter | defaultParameter | typedDefaultParameter
  | listSplatPattern | dictionarySplatPattern | typeNote | expressionStatement | assignment
  | augmentedAssignment | returnStatement | ifStatement | whileStatement | forStatement
  | tryStatement | withStatement | raiseStatement | breakStatement | continueStatement
  | elifClause | elseClause | exceptClause | exceptGroupClause | finallyClause | withClause
  | withItem | asPattern | asPatternTarget | identifier | integer | float | string
  | concatenatedString | interpolation | trueLiteral | falseLiteral | noneLiteral | ellipsis
  | binaryOperator | booleanOperator | comparisonOperator | unaryOperator | notOperator
  | attribute | subscript | slice | call | argumentList | keywordArgument | listSplat
  | dictionarySplat | listDisplay | tupleDisplay | setDisplay | dictionaryDisplay | pair
  | expressionList | patternList | tuplePattern | listPattern | conditionalExpression
  | namedExpression | lambda_ | await_ | yield_ | parenthesizedExpression | listComprehension
  | setComprehension | dictionaryComprehension | generatorExpression | forInClause | ifClause
  | comment | lineContinuation
  | punctuation (text : String)
  | other (name : String)
  deriving DecidableEq, Repr, Inhabited

namespace Kind

/-- The grammar's names. -/
def names : List (String × Kind) :=
  [("module", .module), ("block", .block), ("function_definition", .functionDefinition),
   ("class_definition", .classDefinition), ("decorated_definition", .decoratedDefinition),
   ("decorator", .decorator), ("parameters", .parameters),
   ("lambda_parameters", .lambdaParameters), ("typed_parameter", .typedParameter),
   ("default_parameter", .defaultParameter), ("typed_default_parameter", .typedDefaultParameter),
   ("list_splat_pattern", .listSplatPattern),
   ("dictionary_splat_pattern", .dictionarySplatPattern), ("type", .typeNote),
   ("expression_statement", .expressionStatement), ("assignment", .assignment),
   ("augmented_assignment", .augmentedAssignment), ("return_statement", .returnStatement),
   ("if_statement", .ifStatement), ("while_statement", .whileStatement),
   ("for_statement", .forStatement), ("try_statement", .tryStatement),
   ("with_statement", .withStatement), ("raise_statement", .raiseStatement),
   ("break_statement", .breakStatement), ("continue_statement", .continueStatement),
   ("elif_clause", .elifClause), ("else_clause", .elseClause), ("except_clause", .exceptClause),
   ("except_group_clause", .exceptGroupClause), ("finally_clause", .finallyClause),
   ("with_clause", .withClause), ("with_item", .withItem), ("as_pattern", .asPattern),
   ("as_pattern_target", .asPatternTarget), ("identifier", .identifier), ("integer", .integer),
   ("float", .float), ("string", .string), ("concatenated_string", .concatenatedString),
   ("interpolation", .interpolation), ("true", .trueLiteral), ("false", .falseLiteral),
   ("none", .noneLiteral), ("ellipsis", .ellipsis), ("binary_operator", .binaryOperator),
   ("boolean_operator", .booleanOperator), ("comparison_operator", .comparisonOperator),
   ("unary_operator", .unaryOperator), ("not_operator", .notOperator), ("attribute", .attribute),
   ("subscript", .subscript), ("slice", .slice), ("call", .call),
   ("argument_list", .argumentList), ("keyword_argument", .keywordArgument),
   ("list_splat", .listSplat), ("dictionary_splat", .dictionarySplat), ("list", .listDisplay),
   ("tuple", .tupleDisplay), ("set", .setDisplay), ("dictionary", .dictionaryDisplay),
   ("pair", .pair), ("expression_list", .expressionList), ("pattern_list", .patternList),
   ("tuple_pattern", .tuplePattern), ("list_pattern", .listPattern),
   ("conditional_expression", .conditionalExpression), ("named_expression", .namedExpression),
   ("lambda", .lambda_), ("await", .await_), ("yield", .yield_),
   ("parenthesized_expression", .parenthesizedExpression),
   ("list_comprehension", .listComprehension), ("set_comprehension", .setComprehension),
   ("dictionary_comprehension", .dictionaryComprehension),
   ("generator_expression", .generatorExpression), ("for_in_clause", .forInClause),
   ("if_clause", .ifClause), ("comment", .comment), ("line_continuation", .lineContinuation)]

def marks : List String := ["(", ")", "[", "]", "\x7b", "\x7d", ",", ":"]

def ofName (name : String) : Kind :=
  match names.lookup name with
  | some k => k
  | none => if marks.contains name then .punctuation name else .other name

/-- Displays and patterns that list their elements. -/
def isCollection : Kind → Bool
  | .listDisplay | .tupleDisplay | .setDisplay | .dictionaryDisplay | .expressionList
  | .patternList | .tuplePattern | .listPattern => true
  | _ => false

/-- Wrappers without a meaning of their own. -/
def isWrapper : Kind → Bool
  | .await_ | .parenthesizedExpression => true
  | _ => false

/-- Names and access paths. -/
def isPath : Kind → Bool
  | .identifier | .attribute | .subscript => true
  | _ => false

/-- Literals, comments and lambdas, in which no reference is looked for. -/
def isInert : Kind → Bool
  | .string | .integer | .float | .trueLiteral | .falseLiteral | .noneLiteral | .comment
  | .lambda_ => true
  | _ => false

end Kind

end ActorOwnership.Syntax
