import StackLang.Inline.Expansion
import StackLang.Target.Generate
import StackLang.Verify
/-!
Everything that can go wrong on the way from a source text to assembly.
-/

namespace StackLang

/-- Whether something happens before or after a pass. -/
inductive Moment where
  | before
  | after
  deriving DecidableEq, Repr

def Moment.text : Moment → String
  | .before => "before"
  | .after => "after"

/-- Why compilation stops. `malformed` is for programs that no parser gives: a body or block is
absent where it is needed, or a system call takes more values than there are registers. -/
inductive Failure where
  | source (e : Source.Error)
  | cycle (c : Cycle)
  | generation (pos : Pos) (cause : Target.Cause)
  | depth (n : Int)
  | verification (violations : List Violation)
  | passVerification (moment : Moment) (pass : String) (violations : List Violation)
  | passListing (moment : Moment) (pass : String) (reason : String)
  | writing (reason : String)
  | passFailed (reason : String)
  | malformed
  deriving DecidableEq, Repr

namespace Failure

/-- The diagnostic for a failure. A malformed program has none. -/
def message : Failure → String
  | .source e => e.message
  | .cycle c => c.message
  | .generation pos cause => Target.generationMessage pos cause.text
  | .depth n => "codegen: invalid return stack depth " ++ toString n
  | .verification vs => verificationMessage vs
  | .passVerification moment pass vs =>
    "verify " ++ moment.text ++ " " ++ pass ++ ": " ++ verificationMessage vs
  | .passListing moment pass reason => "dump " ++ moment.text ++ " " ++ pass ++ ": " ++ reason
  | .writing reason => reason
  | .passFailed reason => reason
  | .malformed => ""

def ofHalt : Halt → Failure
  | .cycle c => .cycle c
  | .absentBody => .malformed

def ofRefusal : Target.Refusal → Failure
  | .depth n => .depth n
  | .fault (.refused pos cause) => .generation pos cause
  | .fault (.cycle c) => .cycle c
  | .fault .absentBody => .malformed
  | .fault .registers => .malformed

end Failure

/-- Where listings go: they are kept, or every attempt to write fails for a reason. -/
inductive Sink where
  | keeps
  | fails (reason : String)
  deriving DecidableEq, Repr

namespace Program

def verify (p : Program) (expanded : Bool) : Except Failure Unit :=
  match p.violations expanded with
  | [] => .ok ()
  | vs => .error (.verification vs)

def assemble (p : Program) (s : Target.Settings) : Except Failure String :=
  match Target.generate p s with
  | .ok lines => .ok (Target.renderLines lines)
  | .error r => .error (.ofRefusal r)

end Program

end StackLang
