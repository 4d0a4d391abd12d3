import Lalr.Grammar.Replay

/-!
# Example grammars

Definitions of small grammars with left recursion, nesting, optional parts, and lookaheads that
merging mixes.
-/

namespace Lalr.Examples

open Definition

/-- Equations of sums: `A` is `E EQUAL E` or an identifier, and `E` a sum of identifiers and
numbers. -/
def equation : List Step :=
  [.terminal "EQUAL",
    .terminal "PLUS",
    .terminal "ID",
    .terminal "NUM",
    .nonterminal "A",
    .nonterminal "E",
    .nonterminal "T",
    .start 1,
    .rule 1 #[.nonterminal 2, .terminal 1, .nonterminal 2],
    .rule 1 #[.terminal 3],
    .rule 2 #[.nonterminal 2, .terminal 2, .nonterminal 3],
    .rule 2 #[.nonterminal 3],
    .rule 3 #[.terminal 4],
    .rule 3 #[.terminal 3]]

/-- Sums and products of numbers, with parentheses. -/
def arithmetic : List Step :=
  [.terminal "LPAREN",
    .terminal "RPAREN",
    .terminal "PLUS",
    .terminal "MINUS",
    .terminal "STAR",
    .terminal "SLASH",
    .terminal "NUM",
    .nonterminal "EXPR",
    .nonterminal "FACTOR",
    .nonterminal "TERM",
    .start 1,
    .rule 1 #[.nonterminal 1, .terminal 3, .nonterminal 2],
    .rule 1 #[.nonterminal 1, .terminal 4, .nonterminal 2],
    .rule 1 #[.nonterminal 2],
    .rule 2 #[.nonterminal 2, .terminal 5, .nonterminal 3],
    .rule 2 #[.nonterminal 2, .terminal 6, .nonterminal 3],
    .rule 2 #[.nonterminal 3],
    .rule 3 #[.terminal 7],
    .rule 3 #[.terminal 1, .nonterminal 1, .terminal 2]]

/-- Sums of products, the start symbol being the first nonterminal. -/
def sumOfProducts : List Step :=
  [.terminal "PLUS",
    .terminal "STAR",
    .terminal "A",
    .nonterminal "E",
    .nonterminal "T",
    .rule 1 #[.nonterminal 1, .terminal 1, .nonterminal 2],
    .rule 1 #[.nonterminal 2],
    .rule 2 #[.nonterminal 2, .terminal 2, .terminal 3],
    .rule 2 #[.terminal 3]]

/-- Parameter and return specifications. The grammar is LR(1), but merging states by their cores
mixes the lookaheads of the two reductions of `ID`. -/
def parameters : List Step :=
  [.terminal "COMMA",
    .terminal "COLON",
    .terminal "ID",
    .nonterminal "DEF",
    .nonterminal "PARAM_SPEC",
    .nonterminal "RETURN_SPEC",
    .nonterminal "TYPE",
    .nonterminal "NAME",
    .nonterminal "NAME_LIST",
    .rule 1 #[.nonterminal 2, .nonterminal 3, .terminal 1],
    .rule 2 #[.nonterminal 4],
    .rule 2 #[.nonterminal 6, .terminal 2, .nonterminal 4],
    .rule 3 #[.nonterminal 4],
    .rule 3 #[.nonterminal 5, .terminal 2, .nonterminal 4],
    .rule 4 #[.terminal 3],
    .rule 5 #[.terminal 3],
    .rule 6 #[.nonterminal 5],
    .rule 6 #[.nonterminal 5, .terminal 1, .nonterminal 6]]

/-- Sums with parentheses. -/
def nestedSum : List Step :=
  [.terminal "PLUS",
    .terminal "LPAREN",
    .terminal "RPAREN",
    .terminal "NUM",
    .nonterminal "E",
    .nonterminal "T",
    .rule 1 #[.nonterminal 1, .terminal 1, .nonterminal 2],
    .rule 1 #[.nonterminal 2],
    .rule 2 #[.terminal 2, .nonterminal 1, .terminal 3],
    .rule 2 #[.terminal 4]]

/-- Assignments through pointers: `S` is `L EQUAL R` or `R`, and `L` may be a dereferenced `R`. -/
def pointer : List Step :=
  [.terminal "EQUAL",
    .terminal "STAR",
    .terminal "ID",
    .nonterminal "S",
    .nonterminal "L",
    .nonterminal "R",
    .rule 1 #[.nonterminal 2, .terminal 1, .nonterminal 3],
    .rule 1 #[.nonterminal 3],
    .rule 2 #[.terminal 2, .nonterminal 3],
    .rule 2 #[.terminal 3],
    .rule 3 #[.nonterminal 2]]

/-- The same assignments with their rules in the opposite order. -/
def pointerReversed : List Step := pointer.take 6 ++ (pointer.drop 6).reverse

/-- Declarations that may follow those of `pointer`: lists of assignments, which nothing uses. -/
def unusedList : List Step :=
  [.terminal "SEMI",
    .nonterminal "LIST",
    .rule 4 #[],
    .rule 4 #[.nonterminal 4, .nonterminal 1, .terminal 4]]

/-- Statement lists with optional parts, where most lookaheads are inherited through nullable
suffixes. -/
def statements : List Step :=
  [.terminal "SEMI",
    .terminal "ID",
    .terminal "EQUAL",
    .terminal "LET",
    .terminal "MUT",
    .terminal "LBRACE",
    .terminal "RBRACE",
    .nonterminal "BLOCK",
    .nonterminal "STMTS",
    .nonterminal "STMT",
    .nonterminal "MUTABILITY",
    .nonterminal "INIT",
    .nonterminal "SEMI_OPT",
    .start 2,
    .rule 2 #[],
    .rule 2 #[.nonterminal 2, .nonterminal 3, .nonterminal 6],
    .rule 3 #[.terminal 4, .nonterminal 4, .terminal 2, .nonterminal 5],
    .rule 3 #[.nonterminal 1],
    .rule 3 #[.terminal 2],
    .rule 1 #[.terminal 6, .nonterminal 2, .terminal 7],
    .rule 4 #[],
    .rule 4 #[.terminal 5],
    .rule 5 #[],
    .rule 5 #[.terminal 3, .terminal 2],
    .rule 6 #[],
    .rule 6 #[.terminal 1]]

/-- A grammar whose nonterminals refer to each other and to themselves: `S` and `A` derive each
other and the empty string, `U` derives no string of terminals, and the end of the input is used as
a symbol. -/
def entangled : List Step :=
  [.terminal "X",
    .nonterminal "S",
    .nonterminal "A",
    .nonterminal "U",
    .rule 1 #[],
    .rule 1 #[.nonterminal 1],
    .rule 1 #[.nonterminal 2, .nonterminal 3],
    .rule 2 #[.nonterminal 1],
    .rule 2 #[.terminal endOfInput, .nonterminal 1],
    .rule 3 #[.nonterminal 3, .terminal 1],
    .rule 3 #[.terminal 1, .nonterminal 3]]

/-- A grammar in which nothing can follow `A`: the `U` behind it derives neither the empty string
nor a string that begins with a terminal. -/
def deadEnd : List Step :=
  [.terminal "X",
    .nonterminal "S",
    .nonterminal "A",
    .nonterminal "U",
    .rule 1 #[.nonterminal 2, .nonterminal 3],
    .rule 2 #[.terminal 1],
    .rule 3 #[.nonterminal 3]]

/-- A grammar in which the first closure looks at the item of `C` before its lookahead is complete:
`B` comes before `X` in `A`, and alone in `S`. -/
def lateLookahead : List Step :=
  [.terminal "X",
    .terminal "Y",
    .nonterminal "S",
    .nonterminal "A",
    .nonterminal "B",
    .nonterminal "C",
    .rule 1 #[.nonterminal 2],
    .rule 1 #[.nonterminal 3],
    .rule 2 #[.nonterminal 3, .terminal 1],
    .rule 3 #[.nonterminal 4],
    .rule 4 #[.terminal 2]]

/-- A grammar with a terminal whose name is the sign for an empty right-hand side. -/
def emptySign : List Step :=
  [.terminal "ε",
    .nonterminal "S",
    .rule 1 #[],
    .rule 1 #[.terminal 1],
    .rule 1 #[.nonterminal 1, .terminal 1]]

/-- A definition in which a step fails each check that a step can fail: names that are no
identifiers or taken, symbols that are not declared, and a rule that is there already. -/
def mistakes : List Step :=
  [.terminal "A",
    .terminal "A",
    .nonterminal "let",
    .nonterminal "S",
    .rule 2 #[],
    .rule 1 #[.terminal 1, .terminal 2],
    .rule 1 #[.terminal 1],
    .nonterminal "A",
    .start 0,
    .rule 1 #[.terminal 1],
    .terminal "B",
    .rule 1 #[.nonterminal 0],
    .rule 1 #[.terminal 2, .nonterminal 1],
    .start 1]

end Lalr.Examples
