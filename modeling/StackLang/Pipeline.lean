import StackLang.Failure
import StackLang.Listing.Outline
/-!
Passes over a program, run one after another, with the program listed and its rules checked before
and after each one on demand.
-/

namespace StackLang

/-- A pass: a name, and what it makes of a program. -/
structure Pass where
  name : String
  apply : Program → Program × Option Failure

def inlinePassName : String := "inline"

def inlinePass : Pass where
  name := inlinePassName
  apply p :=
    let (p, halt) := p.expandInlines
    (p, halt.map .ofHalt)

def usualPasses : List Pass :=
  [inlinePass]

/-- What is wanted around passes. A listing is wanted for the pass of a given name, or for every
pass if the name is a star. -/
structure PassSettings where
  listBefore : String := ""
  listAfter : String := ""
  verify : Bool := false
  sink : Sink := .keeps

/-- Where passes have got to: the program, the listings, the names of the passes applied, and
whether inlines have been expanded. -/
structure Progress where
  program : Program
  listings : String := ""
  applied : List String := []
  expanded : Bool := false

def wantsListing (pattern name : String) : Bool :=
  pattern == "*" || pattern == name

def Progress.list (s : PassSettings) (moment : Moment) (pattern name : String) (g : Progress) :
    Progress × Option Failure :=
  if wantsListing pattern name then
    match s.sink with
    | .fails reason => (g, some (.passListing moment name reason))
    | .keeps =>
      ({ g with listings := g.listings ++ "--- " ++ moment.text ++ " " ++ name ++ " ---\n" ++
           g.program.outline ++ "\n" }, none)
  else (g, none)

/-- Checks the rules of the program if that is wanted. -/
def Progress.check? (s : PassSettings) (moment : Moment) (name : String) (g : Progress) :
    Option Failure :=
  if s.verify then
    match g.program.violations g.expanded with
    | [] => none
    | vs => some (.passVerification moment name vs)
  else none

def Progress.apply (pass : Pass) (g : Progress) : Progress × Option Failure :=
  let (program, failure) := pass.apply g.program
  let g := { g with program, applied := g.applied ++ [pass.name] }
  match failure with
  | some f => (g, some f)
  | none => ({ g with expanded := g.expanded || pass.name == inlinePassName }, none)

def andThen (r : Progress × Option Failure) (f : Progress → Progress × Option Failure) :
    Progress × Option Failure :=
  match r with
  | (g, none) => f g
  | (g, some e) => (g, some e)

/-- Applies a pass with everything that is wanted around it. -/
def Progress.runPass (s : PassSettings) (pass : Pass) (g : Progress) :
    Progress × Option Failure :=
  let checked (moment : Moment) (g : Progress) := (g, g.check? s moment pass.name)
  andThen (g.list s .before s.listBefore pass.name) fun g =>
    andThen (checked .before g) fun g =>
      andThen (g.apply pass) fun g =>
        andThen (checked .after g) (Progress.list s .after s.listAfter pass.name)

/-- Applies passes in order. The first failure stops them. -/
def runPasses (s : PassSettings) : List Pass → Progress → Progress × Option Failure
  | [], g => (g, none)
  | pass :: rest, g => andThen (g.runPass s pass) (runPasses s rest)

end StackLang
