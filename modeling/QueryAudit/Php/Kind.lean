/-
  QueryAudit.Php.Kind — kinds of syntax nodes

  Every kind of node a PHP syntax tree has, with the name it is reported under. Words and
  punctuation of the source text are nodes too; their kind is the text of the token.
-/

namespace QueryAudit.Php

inductive Kind where
  | token (text : String)
  | program | text | phpTag | phpEndTag | textInterpolation | comment | error
  | namespaceDefinition | namespaceName | namespaceUseDeclaration | namespaceUseClause
  | namespaceAliasingClause | namespaceUseGroup | qualifiedName | relativeName | name
  | constDeclaration | constElement | classDeclaration | interfaceDeclaration
  | traitDeclaration | enumDeclaration | anonymousClass | baseClause | classInterfaceClause
  | declarationList | enumDeclarationList | enumCase | useDeclaration | useList
  | propertyDeclaration | propertyElement | methodDeclaration | abstractModifier
  | finalModifier | readonlyModifier | staticModifier | varModifier | visibilityModifier
  | referenceModifier | functionDefinition | formalParameters | simpleParameter
  | variadicParameter | propertyPromotionParameter | primitiveType | namedType | optionalType
  | unionType | intersectionType | typeList | compoundStatement | colonBlock | emptyStatement
  | expressionStatement | echoStatement | exitStatement | unsetStatement | returnStatement
  | breakStatement | continueStatement | gotoStatement | globalDeclaration
  | functionStaticDeclaration | staticVariableDeclaration | ifStatement | elseIfClause
  | elseClause | whileStatement | doStatement | forStatement | foreachStatement | pair
  | switchStatement | switchBlock | caseStatement | defaultStatement | tryStatement
  | catchClause | finallyClause | declareStatement | declareDirective | sequenceExpression
  | assignmentExpression | referenceAssignmentExpression | augmentedAssignmentExpression
  | binaryExpression | unaryOpExpression | updateExpression | castExpression | castType
  | conditionalExpression | errorSuppressionExpression | parenthesizedExpression
  | cloneExpression | objectCreationExpression | printIntrinsic | includeExpression
  | includeOnceExpression | requireExpression | requireOnceExpression | throwExpression
  | yieldExpression | matchExpression | matchBlock | matchConditionalExpression
  | matchConditionList | matchDefaultExpression | arrowFunction | anonymousFunction
  | anonymousFunctionUseClause | functionCallExpression | memberCallExpression
  | nullsafeMemberCallExpression | scopedCallExpression | memberAccessExpression
  | nullsafeMemberAccessExpression | scopedPropertyAccessExpression
  | classConstantAccessExpression | relativeScope | subscriptExpression | arguments | argument
  | variadicPlaceholder | variadicUnpacking | variableName | dynamicVariableName | byRef
  | listLiteral | arrayCreationExpression | arrayElementInitializer | integer | float | boolean
  | null | string | encapsedString | stringContent | escapeSequence | shellCommandExpression
  | attributeList | attributeGroup | attributeItem | namedLabelStatement
  | heredoc | heredocStart | heredocBody | heredocEnd | nowdoc | nowdocBody | nowdocString
  deriving DecidableEq, Repr, Inhabited

namespace Kind

def title : Kind → String
  | .token t => t
  | .program => "program"
  | .text => "text"
  | .phpTag => "php_tag"
  | .phpEndTag => "php_end_tag"
  | .textInterpolation => "text_interpolation"
  | .comment => "comment"
  | .error => "ERROR"
  | .namespaceDefinition => "namespace_definition"
  | .namespaceName => "namespace_name"
  | .namespaceUseDeclaration => "namespace_use_declaration"
  | .namespaceUseClause => "namespace_use_clause"
  | .namespaceAliasingClause => "namespace_aliasing_clause"
  | .namespaceUseGroup => "namespace_use_group"
  | .qualifiedName => "qualified_name"
  | .relativeName => "relative_name"
  | .name => "name"
  | .constDeclaration => "const_declaration"
  | .constElement => "const_element"
  | .classDeclaration => "class_declaration"
  | .interfaceDeclaration => "interface_declaration"
  | .traitDeclaration => "trait_declaration"
  | .enumDeclaration => "enum_declaration"
  | .anonymousClass => "anonymous_class"
  | .baseClause => "base_clause"
  | .classInterfaceClause => "class_interface_clause"
  | .declarationList => "declaration_list"
  | .enumDeclarationList => "enum_declaration_list"
  | .enumCase => "enum_case"
  | .useDeclaration => "use_declaration"
  | .useList => "use_list"
  | .propertyDeclaration => "property_declaration"
  | .propertyElement => "property_element"
  | .methodDeclaration => "method_declaration"
  | .abstractModifier => "abstract_modifier"
  | .finalModifier => "final_modifier"
  | .readonlyModifier => "readonly_modifier"
  | .staticModifier => "static_modifier"
  | .varModifier => "var_modifier"
  | .visibilityModifier => "visibility_modifier"
  | .referenceModifier => "reference_modifier"
  | .functionDefinition => "function_definition"
  | .formalParameters => "formal_parameters"
  | .simpleParameter => "simple_parameter"
  | .variadicParameter => "variadic_parameter"
  | .propertyPromotionParameter => "property_promotion_parameter"
  | .primitiveType => "primitive_type"
  | .namedType => "named_type"
  | .optionalType => "optional_type"
  | .unionType => "union_type"
  | .intersectionType => "intersection_type"
  | .typeList => "type_list"
  | .compoundStatement => "compound_statement"
  | .colonBlock => "colon_block"
  | .emptyStatement => "empty_statement"
  | .expressionStatement => "expression_statement"
  | .echoStatement => "echo_statement"
  | .exitStatement => "exit_statement"
  | .unsetStatement => "unset_statement"
  | .returnStatement => "return_statement"
  | .breakStatement => "break_statement"
  | .continueStatement => "continue_statement"
  | .gotoStatement => "goto_statement"
  | .globalDeclaration => "global_declaration"
  | .functionStaticDeclaration => "function_static_declaration"
  | .staticVariableDeclaration => "static_variable_declaration"
  | .ifStatement => "if_statement"
  | .elseIfClause => "else_if_clause"
  | .elseClause => "else_clause"
  | .whileStatement => "while_statement"
  | .doStatement => "do_statement"
  | .forStatement => "for_statement"
  | .foreachStatement => "foreach_statement"
  | .pair => "pair"
  | .switchStatement => "switch_statement"
  | .switchBlock => "switch_block"
  | .caseStatement => "case_statement"
  | .defaultStatement => "default_statement"
  | .tryStatement => "try_statement"
  | .catchClause => "catch_clause"
  | .finallyClause => "finally_clause"
  | .declareStatement => "declare_statement"
  | .declareDirective => "declare_directive"
  | .sequenceExpression => "sequence_expression"
  | .assignmentExpression => "assignment_expression"
  | .referenceAssignmentExpression => "reference_assignment_expression"
  | .augmentedAssignmentExpression => "augmented_assignment_expression"
  | .binaryExpression => "binary_expression"
  | .unaryOpExpression => "unary_op_expression"
  | .updateExpression => "update_expression"
  | .castExpression => "cast_expression"
  | .castType => "cast_type"
  | .conditionalExpression => "conditional_expression"
  | .errorSuppressionExpression => "error_suppression_expression"
  | .parenthesizedExpression => "parenthesized_expression"
  | .cloneExpression => "clone_expression"
  | .objectCreationExpression => "object_creation_expression"
  | .printIntrinsic => "print_intrinsic"
  | .includeExpression => "include_expression"
  | .includeOnceExpression => "include_once_expression"
  | .requireExpression => "require_expression"
  | .requireOnceExpression => "require_once_expression"
  | .throwExpression => "throw_expression"
  | .yieldExpression => "yield_expression"
  | .matchExpression => "match_expression"
  | .matchBlock => "match_block"
  | .matchConditionalExpression => "match_conditional_expression"
  | .matchConditionList => "match_condition_list"
  | .matchDefaultExpression => "match_default_expression"
  | .arrowFunction => "arrow_function"
  | .anonymousFunction => "anonymous_function"
  | .anonymousFunctionUseClause => "anonymous_function_use_clause"
  | .functionCallExpression => "function_call_expression"
  | .memberCallExpression => "member_call_expression"
  | .nullsafeMemberCallExpression => "nullsafe_member_call_expression"
  | .scopedCallExpression => "scoped_call_expression"
  | .memberAccessExpression => "member_access_expression"
  | .nullsafeMemberAccessExpression => "nullsafe_member_access_expression"
  | .scopedPropertyAccessExpression => "scoped_property_access_expression"
  | .classConstantAccessExpression => "class_constant_access_expression"
  | .relativeScope => "relative_scope"
  | .subscriptExpression => "subscript_expression"
  | .arguments => "arguments"
  | .argument => "argument"
  | .variadicPlaceholder => "variadic_placeholder"
  | .variadicUnpacking => "variadic_unpacking"
  | .variableName => "variable_name"
  | .dynamicVariableName => "dynamic_variable_name"
  | .byRef => "by_ref"
  | .listLiteral => "list_literal"
  | .arrayCreationExpression => "array_creation_expression"
  | .arrayElementInitializer => "array_element_initializer"
  | .integer => "integer"
  | .float => "float"
  | .boolean => "boolean"
  | .null => "null"
  | .string => "string"
  | .encapsedString => "encapsed_string"
  | .stringContent => "string_content"
  | .escapeSequence => "escape_sequence"
  | .shellCommandExpression => "shell_command_expression"
  | .attributeList => "attribute_list"
  | .attributeGroup => "attribute_group"
  | .attributeItem => "attribute"
  | .namedLabelStatement => "named_label_statement"
  | .heredoc => "heredoc"
  | .heredocStart => "heredoc_start"
  | .heredocBody => "heredoc_body"
  | .heredocEnd => "heredoc_end"
  | .nowdoc => "nowdoc"
  | .nowdocBody => "nowdoc_body"
  | .nowdocString => "nowdoc_string"

/-- The kind of a word or mark of the source text. Three words name types and literals alike. -/
def ofWord : String → Kind
  | "string" => string
  | "float" => float
  | "null" => null
  | word => token word

/-! ## Families of kinds. -/

def isClassLike : Kind → Bool
  | classDeclaration | traitDeclaration | interfaceDeclaration => true
  | _ => false

def isFunctionLike : Kind → Bool
  | methodDeclaration | functionDefinition => true
  | _ => false

def isMethodCall : Kind → Bool
  | memberCallExpression | nullsafeMemberCallExpression => true
  | _ => false

def isMemberAccess : Kind → Bool
  | memberAccessExpression | nullsafeMemberAccessExpression => true
  | _ => false

def isReference : Kind → Bool
  | variableName | memberAccessExpression | nullsafeMemberAccessExpression
  | scopedPropertyAccessExpression => true
  | _ => false

def isAssignment : Kind → Bool
  | assignmentExpression | referenceAssignmentExpression | augmentedAssignmentExpression => true
  | _ => false

def isPattern : Kind → Bool
  | listLiteral | arrayCreationExpression => true
  | _ => false

def isBlock : Kind → Bool
  | compoundStatement | colonBlock => true
  | _ => false

end Kind

end QueryAudit.Php
