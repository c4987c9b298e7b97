/-!
Guards against runaway recursion.

A guard brackets a computation that is known by a key: `enter` before it,
`leave` after it. While a key is being visited a second `enter` of it is a
cycle. Besides, a guard bounds how many keys are visited at once and how often
`enter` is tried in all. The answer of `enter` is an `Entry`, and its order of
checks is fixed: attempts, depth, cycle, room.
-/

namespace ObjectInference

/-- Where the count of attempts stops growing. -/
def Guard.maxCount : Nat := 4294967295

/-- How many keys one guard visits at most when nothing else is said. -/
def Guard.defaultRoom : Nat := 10000

/-- Named pairs of limits. -/
inductive Profile where
  /-- Chains of return inferences, keyed by function. -/
  | returnInference
  /-- Chains of assigned names, keyed by scope and name. -/
  | nameResolution
  | custom (maxDepth maxIterations : Nat)
deriving DecidableEq, Repr

namespace Profile

def maxDepth : Profile → Nat
  | returnInference => 50
  | nameResolution => 200
  | custom d _ => d

def maxIterations : Profile → Nat
  | returnInference => 100000
  | nameResolution => 100000
  | custom _ i => i

end Profile

/-- What comes of an attempt to enter. -/
inductive Entry where
  | entered
  | cycle
  | depthExceeded
  | iterationExceeded
deriving DecidableEq, Repr

namespace Entry

def isEntered (e : Entry) : Bool := e = .entered

def isCycle (e : Entry) : Bool := e = .cycle

/-- A limit was in the way. -/
def isExceeded (e : Entry) : Bool := e = .depthExceeded || e = .iterationExceeded

def isDenied (e : Entry) : Bool := !e.isEntered

end Entry

/-- Misuse of a guard. -/
inductive GuardFault where
  /-- The key left is not being visited. -/
  | notVisiting
  /-- The guard was dropped while keys were still being visited. -/
  | stillVisiting (count : Nat)
deriving DecidableEq, Repr

def GuardFault.message : GuardFault → String
  | notVisiting =>
    "RecursionGuard::leave() called with a key that is not in the visiting set. " ++
    "This indicates a double-leave or a leave without a matching enter()."
  | stillVisiting count =>
    "RecursionGuard dropped with " ++ toString count ++ " active entries still in the " ++
    "visiting set. This indicates leaked enter() calls without matching leave() calls."

structure Guard (κ : Type) where
  /-- The keys being visited, latest first. -/
  visiting : List κ := []
  depth : Nat := 0
  /-- Attempts to enter since the guard was made or reset. -/
  iterations : Nat := 0
  maxDepth : Nat
  maxIterations : Nat
  maxVisiting : Nat := Guard.defaultRoom
  /-- Some attempt met a limit; kept until a reset. -/
  exceeded : Bool := false
deriving DecidableEq, Repr

namespace Guard

variable {κ : Type}

def ofProfile (p : Profile) : Guard κ :=
  { maxDepth := p.maxDepth, maxIterations := p.maxIterations }

def isActive (g : Guard κ) : Bool := 0 < g.depth

def isVisiting [DecidableEq κ] (g : Guard κ) (k : κ) : Bool := k ∈ g.visiting

def tried (g : Guard κ) : Guard κ :=
  { g with iterations := min (g.iterations + 1) maxCount }

def markExceeded (g : Guard κ) : Guard κ :=
  { g with exceeded := true }

/-- Forget every key and count, and keep the limits. -/
def reset (g : Guard κ) : Guard κ :=
  { g with visiting := [], depth := 0, iterations := 0, exceeded := false }

/-- A guard with nothing being visited starts its counts anew. -/
def refresh (g : Guard κ) : Guard κ :=
  if g.isActive then g else g.reset

/-- Start visiting a key without a check. -/
def visit (g : Guard κ) (k : κ) : Guard κ :=
  { g with visiting := k :: g.visiting, depth := g.depth + 1 }

/-- Try to start visiting a key. -/
def enter [DecidableEq κ] (g : Guard κ) (k : κ) : Entry × Guard κ :=
  let g := g.tried
  if g.maxIterations < g.iterations then (.iterationExceeded, g.markExceeded)
  else if g.maxDepth ≤ g.depth then (.depthExceeded, g.markExceeded)
  else if g.isVisiting k then (.cycle, g)
  else if g.maxVisiting ≤ g.visiting.length then (.depthExceeded, g.markExceeded)
  else (.entered, g.visit k)

def leave [DecidableEq κ] (g : Guard κ) (k : κ) : Except GuardFault (Guard κ) :=
  if g.isVisiting k then .ok { g with visiting := g.visiting.erase k, depth := g.depth - 1 }
  else .error .notVisiting

/-- Run a computation that does not touch the guard between entering and
leaving a key, or give the reason why the key was denied. -/
def within [DecidableEq κ] {α : Type} (g : Guard κ) (k : κ) (run : Unit → α) :
    Except GuardFault (Except Entry α × Guard κ) :=
  match g.enter k with
  | (.entered, g) => (g.leave k).map fun g => (.ok (run ()), g)
  | (denied, g) => .ok (.error denied, g)

/-- Give a guard up, which is a fault while keys are being visited. -/
def drop (g : Guard κ) : Except GuardFault Unit :=
  if g.visiting.isEmpty then .ok () else .error (.stillVisiting g.visiting.length)

/-- How many more keys may be visited on top of the present ones. -/
def room (g : Guard κ) : Nat :=
  min (g.maxDepth - g.refresh.depth) (g.maxVisiting - g.refresh.visiting.length)

end Guard

end ObjectInference
