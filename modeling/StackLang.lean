import StackLang.Editor.Session
import StackLang.Main
import StackLang.Proofs.Compile
import StackLang.Proofs.Target.Correctness
import StackLang.Proofs.Inline.Cycles
import StackLang.Proofs.Inline.Unfolding
import StackLang.Proofs.Target.Mangling
import StackLang.Proofs.Target.Scoping
import StackLang.Proofs.Target.Pieces
import StackLang.Proofs.Target.Closure
import StackLang.Proofs.Machine.Calls
import StackLang.Proofs.Target.Printing
import StackLang.Proofs.Target.Bodies
import StackLang.Proofs.Target.CallSequence
import StackLang.Proofs.Target.ReturnStack
import StackLang.Proofs.Target.CallDiscipline
import StackLang.Proofs.Source.Stopping
import StackLang.Proofs.Target.Resolution
import StackLang.Proofs.Relocation.Layout
import StackLang.Proofs.Listing
import StackLang.Proofs.Inline.Halting
import StackLang.Proofs.Source.Completion
import StackLang.Proofs.Source.Spacing
import StackLang.Proofs.Editor.Occurrences
import StackLang.Proofs.Editor.Navigation
import StackLang.Proofs.Source.Respacing
import StackLang.Proofs.Target.Strings
import StackLang.Proofs.Comments
import StackLang.Proofs.Source.Literals
import StackLang.Proofs.Trees
import StackLang.Proofs.Toolchain.Footprint
import StackLang.Proofs.Target.Numerals
import StackLang.Proofs.Project.Nearest
