import OperatorGrammar.Grammar.Declaration
import OperatorGrammar.Operation.Function

/-! # Bundled grammars

Three languages are declared here: arithmetic of real numbers with comparisons, boolean algebra,
and a small mixed language with a delimiter of three characters. -/

namespace OperatorGrammar

/-- Every named function as a clause. -/
def functionClauses : List Clause := Callable.functions.map fun c => .function c.name c

/-- Real arithmetic: bars for the absolute value, brackets for lists, multiplication where nothing
is written, and variables that are numbers. -/
def realClauses : List Clause :=
  [.parenthetical "(" ")", .parenthetical "|" "|", .parenthetical "[" "]",
    .argumentList "(" ",",
    .enclosure "|" .absolute, .enclosure "[" .list,
    .multary "," .list, .multary "or" .disjunction, .multary "and" .conjunction,
    .binary "==" .equal, .binary "!=" .notEqual, .binary "~=" .approxEqual,
    .binary "<" .less, .binary "<=" .lessEqual,
    .binary ">" .greater, .binary ">=" .greaterEqual,
    .multary "+" .add, .binary "-" .subtract, .multary "*" .multiply,
    .binary "/" .divide, .binary "%" .remainder, .binary "^" .power,
    .rightAssociative "^",
    .order [",", "or", "and", "==", "!=", "~=", "<", "<=", ">", ">=", "+", "-", "*", "/", "%", "^"],
    .preUnary "+" .identity, .preUnary "-" .negate, .preUnary "not" .negation,
    .postUnary "!" .factorial,
    .implicitOperator "*",
    .constant "pi" (.number Double.pi), .constant "e" (.number Double.euler),
    .constant "tau" (.number Double.tau),
    .defaultKind .number] ++ functionClauses

/-- Boolean algebra: several spellings of each connective, in any case, and conjunction where
nothing is written. -/
def booleanClauses : List Clause :=
  [.caseSensitive false,
    .parenthetical "(" ")",
    .argumentList "(" ",",
    .multary "," .list,
    .binary "<->" .equivalence, .binary "->" .implication,
    .multary "or" .disjunction, .multary "||" .disjunction, .binary "xor" .exclusive,
    .multary "and" .conjunction, .multary "&&" .conjunction,
    .binary "==" .equal, .binary "!=" .notEqual,
    .order [",", "<->", "->", "or", "||", "xor", "and", "&&", "==", "!="],
    .rightAssociative "->",
    .preUnary "not" .negation, .preUnary "!" .negation, .preUnary "~" .negation,
    .implicitOperator "and",
    .constant "true" (.bool true), .constant "false" (.bool false),
    .function "if" .choice,
    .defaultKind .bool]

/-- A small mixed language, whose second pair of delimiters begins and ends with operators. -/
def testClauses : List Clause :=
  [.parenthetical "(" ")", .parenthetical "/**" "*/", .parenthetical "[" "]",
    .argumentList "(" ",",
    .enclosure "[" .list,
    .multary "," .list, .multary "||" .disjunction, .multary "&&" .conjunction,
    .multary "+" .add, .binary "-" .subtract, .multary "*" .multiply,
    .binary "/" .divide, .binary "%" .remainder, .binary "^" .power,
    .rightAssociative "^",
    .order [",", "||", "&&", "+", "-", "*", "/", "%", "^"],
    .preUnary "+" .identity, .preUnary "-" .negate, .preUnary "!" .negation,
    .postUnary "!" .factorial,
    .implicitOperator "*"] ++ functionClauses

namespace Declaration

/-- The declaration of real arithmetic. -/
def real : Declaration := ofClauses realClauses

/-- The declaration of boolean algebra. -/
def boolean : Declaration := ofClauses booleanClauses

/-- The declaration of the small mixed language. -/
def test : Declaration := ofClauses testClauses

end Declaration

namespace Grammar

def real : Grammar := Declaration.real.assemble

def boolean : Grammar := Declaration.boolean.assemble

def test : Grammar := Declaration.test.assemble

end Grammar

end OperatorGrammar
