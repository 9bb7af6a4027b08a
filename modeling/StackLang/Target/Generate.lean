import StackLang.Target.Lowering
/-!
Programs turned into assembly.
-/

namespace StackLang.Target

/-- The number of nested calls a program can make unless something else is asked for. -/
def defaultDepth : Int := 1024

/-- The most nested calls a program can be given: the depth is compared with a register as a
signed number of 32 bits. -/
def maxDepth : Int := Int32.maxValue.toInt

def platform : String := "linux/amd64"

def objectFormat : String := "elf64"

/-- What the generator can be asked for: the number of nested calls, where zero stands for the
usual number, and comments that show the instructions. -/
structure Settings where
  depth : Int := 0
  comments : Bool := false
  deriving DecidableEq, Repr

def Settings.usual : Settings :=
  { depth := defaultDepth, comments := true }

/-- Why there is no assembly. -/
inductive Refusal where
  | depth (n : Int)
  | fault (f : Fault)
  deriving DecidableEq, Repr

def Settings.actualDepth (s : Settings) : Int :=
  if s.depth = 0 then defaultDepth else s.depth

/-- The assembly of a program. Inlines are searched for cycles before any is used. -/
def generate (p : Program) (s : Settings) : Except Refusal (List Line) :=
  let depth := s.actualDepth
  if depth < 0 ∨ maxDepth < depth then .error (.depth depth)
  else if p.entry?.isNone then .error (.fault (.refused ⟨p.file, 0, 0⟩ .noEntry))
  else
    match p.checkCycles with
    | .error c => .error (.fault (.cycle c))
    | .ok () =>
      match (procsLines p depth s.comments p.procDecls).run {} with
      | .error f => .error (.fault f)
      | .ok (lines, pool) =>
        .ok (header p.file s.comments ++ routines ++ lines ++ memorySection p.memoryDecls ++
          dataSection depth s.comments pool.strings)

end StackLang.Target
