import ObjectInference.Analysis.Run

/-!
Sessions: one analysis of one bound program.

A session gathers evidence with `analyze` and answers questions from it. It
starts on the memory that earlier sessions over the program have left, less the
parameters worked out from their calls.
-/

namespace ObjectInference

structure Session where
  program : Program
  options : Options
  state : State
deriving DecidableEq, Repr

namespace Session

/-- Continue from the calls recorded by an earlier session. -/
def resume (p : Program) (m : Memory) (options : Options) (calls : CallLog) : Session :=
  { program := p, options, state := .start m.clearParameters calls options }

/-- A session without recorded calls. -/
def start (p : Program) (m : Memory) (options : Options) : Session :=
  resume p m options {}

def run {α : Type} (s : Session) (x : Infer α) : Except Interrupt α × Session :=
  match x s.state with
  | .ok a state => (.ok a, { s with state })
  | .error e state => (.error e, { s with state })

/-- Analyse every scope of the module: the counts of the session so far. -/
def analyze (s : Session) : Except Interrupt Stats × Session :=
  s.run do
    Infer.analyze s.program s.options s.program.module (fun _ => true) (fun _ => true)
    return (← get).stats

def returnedObject (s : Session) (f : ObjectId) : Except Interrupt (Option ObjectId) × Session :=
  s.run (Infer.returned s.program s.program.evaluate f none)

def returnedObjectFor (s : Session) (f : ObjectId) (arguments : List ObjectId) :
    Except Interrupt (Option ObjectId) × Session :=
  s.run (Infer.returned s.program s.program.evaluate f (some (.objects arguments)))

/-- The objects of a function's ordinary parameters in the latest recorded
call, unknown without one. -/
def parameterObjects (s : Session) (f : ObjectId) : List ObjectId :=
  let params := s.program.parameters s.state.objects f
  match s.state.calls.latest f with
  | some record => ordinaryObjects params record
  | none => placeholders params

end Session

end ObjectInference
