import StackLang.Lexeme
/-!
What can be wrong with a source text, and how it is said.
-/

namespace StackLang.Source

/-- The classes of diagnostics. `other` holds a number that no class has. -/
inductive ErrorKind where
  | lexical
  | grammar
  | topLevel
  | duplicate
  | noEntry
  | other (code : Nat)
  deriving DecidableEq, Repr

namespace ErrorKind

def ofCode : Nat → ErrorKind
  | 0 => .lexical
  | 1 => .grammar
  | 2 => .topLevel
  | 3 => .duplicate
  | 4 => .noEntry
  | n => .other n

def text : ErrorKind → String
  | .lexical => "lex error"
  | .grammar => "parse error"
  | .topLevel => "top-level instruction"
  | .duplicate => "duplicate identifier"
  | .noEntry => "missing entry point"
  | .other n => "ErrorKind(" ++ toString n ++ ")"

end ErrorKind

def diagnose (pos : Pos) (kind : ErrorKind) (what : String) : String :=
  pos.heading ++ kind.text ++ ": " ++ what

/-- Why a text cannot be divided into tokens. -/
inductive LexCause where
  | unreadable (reason : String)
  | strayByte
  | bangAlone
  | atAlone
  | integerRange (lit : String)
  | badWidth (digits lit : String)
  | stringOpen
  | charOpen
  | charEmpty
  | charWide
  | escapeOpen
  | escapeUnknown (c : Char)
  deriving DecidableEq, Repr

/-- The kinds of declarations. -/
inductive DeclKind where
  | proc
  | inline
  | memory
  deriving DecidableEq, Repr

/-- What a declaration is called in diagnostics about its name. -/
def DeclKind.noun : DeclKind → String
  | .proc => "procedure"
  | .inline => "inline"
  | .memory => "memory"

/-- The parts of a program that hold a sequence of instructions. -/
inductive Region where
  | body (kind : DeclKind) (name : String)
  | ifCondition
  | ifBody
  | elifCondition
  | elifBody
  | elseBody
  | whileCondition
  | whileBody
  deriving DecidableEq, Repr

def Region.text : Region → String
  | .body kind name => kind.noun ++ " " ++ name
  | .ifCondition => "if condition"
  | .ifBody => "if body"
  | .elifCondition => "elif condition"
  | .elifBody => "elif body"
  | .elseBody => "else body"
  | .whileCondition => "while condition"
  | .whileBody => "while body"

/-- How deep conditionals and loops may stand inside each other. -/
def maxNesting : Nat := 512

/-- The name of the procedure in which a program starts. -/
def entryPoint : String := "main"

/-- Why a source text is refused. -/
inductive Cause where
  | lex (cause : LexCause)
  | nameExpected (kind : DeclKind) (found : Lexeme)
  | doExpected (name : String) (found : Lexeme)
  | sizeExpected (name : String) (found : Lexeme)
  | memoryOpen (name : String) (found : Lexeme)
  | blockOpen (region : Region)
  | nestedDeclaration (word : Token)
  | tooDeep
  | unexpected (found : Lexeme)
  | unexpectedAtTop (found : Lexeme)
  | instructionAtTop (found : Lexeme)
  | redeclared (name : String) (earlier : Pos)
  | noEntry
  deriving DecidableEq, Repr

def LexCause.text : LexCause → String
  | .unreadable reason => "error reading source file: " ++ reason
  | .strayByte => "invalid UTF-8 encoding"
  | .bangAlone => "expected '=' or a byte width after '!'"
  | .atAlone => "expected a byte width after '@'"
  | .integerRange lit => "integer literal " ++ lit ++ " does not fit in 64 bits"
  | .badWidth digits lit =>
    "unsupported width " ++ digits ++ " in " ++ lit ++ "; expected 1, 2, 4 or 8"
  | .stringOpen => "string literal not terminated"
  | .charOpen => "character literal not terminated"
  | .charEmpty => "empty character literal"
  | .charWide => "character literal must be a single byte"
  | .escapeOpen => "escape sequence not terminated"
  | .escapeUnknown c => "unknown escape sequence \\" ++ c.toString

namespace Cause

def kind : Cause → ErrorKind
  | .lex _ => .lexical
  | .instructionAtTop _ => .topLevel
  | .redeclared _ _ => .duplicate
  | .noEntry => .noEntry
  | _ => .grammar

def text : Cause → String
  | .lex cause => cause.text
  | .nameExpected kind found =>
    "expected " ++ kind.noun ++ " name, found " ++ found.described
  | .doExpected name found =>
    "expected do after procedure name " ++ name ++ ", found " ++ found.described
  | .sizeExpected name found =>
    "expected positive size for memory " ++ name ++ ", found " ++ found.described
  | .memoryOpen name found =>
    "expected end to close memory " ++ name ++ ", found " ++ found.described
  | .blockOpen region => "unexpected end of file in " ++ region.text
  | .nestedDeclaration word => word.text ++ " declaration inside a block"
  | .tooDeep => "blocks nested deeper than " ++ toString maxNesting ++ " levels"
  | .unexpected found => "unexpected " ++ found.described
  | .unexpectedAtTop found => "unexpected " ++ found.described ++ " at top level"
  | .instructionAtTop found => found.described ++ " outside of a declaration"
  | .redeclared name earlier =>
    name ++ " redeclared; previous declaration at " ++ earlier.text
  | .noEntry => "no procedure named " ++ entryPoint

end Cause

/-- A refusal of a source text: the cause and its place. -/
structure Error where
  pos : Pos
  cause : Cause
  deriving DecidableEq, Repr

def Error.message (e : Error) : String :=
  diagnose e.pos e.cause.kind e.cause.text

end StackLang.Source
