import StackLang.Pipeline
import StackLang.Source.Parser
/-!
Source texts compiled to assembly.
-/

namespace StackLang

/-- What a compilation can be asked for. Without the pass that expands inlines, the generator
replaces them. -/
structure CompileSettings where
  skipInline : Bool := false
  passes : PassSettings := {}
  target : Target.Settings := {}

/-- What a compilation gives: the tokens, the program after all passes and its assembly. -/
structure Compiled where
  tokens : List Lexeme
  program : Program
  assembly : String

/-- Compiles tokens. The listings made on the way are given back in any case. -/
def compileLexemes (s : CompileSettings) (file : String) (tokens : List Lexeme) :
    Except Failure Compiled × String :=
  match (Source.parseTokens file tokens).result with
  | .error e => (.error (.source e), "")
  | .ok program =>
    let passes := if s.skipInline then [] else usualPasses
    match runPasses s.passes passes { program } with
    | (g, some f) => (.error f, g.listings)
    | (g, none) =>
      match g.program.assemble s.target with
      | .error f => (.error f, g.listings)
      | .ok assembly => (.ok { tokens, program := g.program, assembly }, g.listings)

def compile (s : CompileSettings) (file : String) (bytes : List UInt8) :
    Except Failure Compiled × String :=
  match Source.tokenize file bytes with
  | .error e => (.error (.source e), "")
  | .ok tokens => compileLexemes s file tokens

end StackLang
