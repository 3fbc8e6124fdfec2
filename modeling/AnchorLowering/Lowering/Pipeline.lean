import AnchorLowering.Lowering.AccountAccess
import AnchorLowering.Lowering.Diagnostic
import AnchorLowering.Lowering.ProgramCall
import AnchorLowering.Lowering.Statement

/-!
# The pipeline

A body is lowered by seven steps in a fixed order, each assuming the shapes that the steps before
it leave. A step is a function of the context and the body; it fails only if two of its edits
overlap.
-/

namespace AnchorLowering.Lowering

open Source

inductive Step where
  | sequences
  | access
  | state
  | calls
  | assertions
  | diagnostics
  | layout
  deriving DecidableEq

namespace Step

/-- The steps in the order in which they run. -/
def all : List Step := [sequences, access, state, calls, assertions, diagnostics, layout]

def name : Step → Text
  | sequences => "bounded_sequences"
  | access => "context"
  | state => "state_fields"
  | calls => "cpi"
  | assertions => "assertions"
  | diagnostics => "diagnostics"
  | layout => "format"

def ofName? (name : Text) : Option Step := all.find? (·.name == name)

def run (s : Step) (c : Context) (body : Text) : Except Overlap Text :=
  match s with
  | sequences => .ok (lowerSequences c body)
  | access => .ok (lowerAccess body)
  | state => .ok (lowerState c body)
  | calls => lowerProgramCalls c body
  | assertions => lowerAssertions body
  | diagnostics => lowerDiagnostics c body
  | layout => .ok (layOut body)

end Step

/-- Runs steps one after the other. -/
def runSteps (steps : List Step) (c : Context) (body : Text) : Except Overlap Text :=
  steps.foldlM (fun body s => s.run c body) body

/-- Lowers a body by all steps. -/
def lowerBody (c : Context) (body : Text) : Except Overlap Text := runSteps Step.all c body

end AnchorLowering.Lowering
