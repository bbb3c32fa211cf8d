/-!
# Saga definitions

`Builder.Build` (`data/saga/definition.go`): an ordered list of stages, each a step or a parallel
group, with the index of the first stage that holds the pivot. What a step does is left to its
callbacks; here it is known by its name and flags.
-/

namespace GoAtlas.Saga

structure Step where
  name : String
  compensation : Bool
  pivot : Bool
  readOnly : Bool
  deriving DecidableEq

structure Stage where
  name : String
  steps : List Step
  deriving DecidableEq

def Stage.hasPivot (st : Stage) : Bool := st.steps.any Step.pivot

/-- How strictly a missing compensation is treated. -/
inductive Policy where
  | warn | enforce | disabled
  deriving DecidableEq

structure Definition where
  name : String
  stages : List Stage
  /-- The first stage with the pivot, or the number of stages. -/
  pivotIdx : Nat
  /-- The compensatable steps without a compensation. -/
  missing : List String
  policy : Policy

inductive BuildErr where
  | emptyDefinition
  | noCompensation (steps : List String)
  deriving DecidableEq

def pivotIndex (stages : List Stage) : Nat := stages.findIdx Stage.hasPivot

def missingSteps (stages : List Stage) : List String :=
  ((stages.take (pivotIndex stages)).flatMap Stage.steps).filterMap fun s =>
    if !s.compensation && !s.readOnly then some s.name else none

/-- `Builder.Build`. -/
def build (name : String) (stages : List Stage) (policy : Policy) : Except BuildErr Definition :=
  if stages.isEmpty then .error .emptyDefinition
  else if policy = .enforce ∧ missingSteps stages ≠ [] then
    .error (.noCompensation (missingSteps stages))
  else .ok ⟨name, stages, pivotIndex stages, missingSteps stages, policy⟩

namespace Definition

def stepsAt (d : Definition) (stage : Nat) : List Step :=
  ((d.stages[stage]?).map Stage.steps).getD []

def compensates (d : Definition) (stage step : Nat) : Bool :=
  ((d.stepsAt stage)[step]?).any Step.compensation

end Definition

end GoAtlas.Saga
