import ObjectInference.Table
import ObjectInference.Object

/-!
The log of simulated calls: what each function was called with, as far as
call sites have been analysed.

Calls are grouped by function, functions standing in the order of their first
call and the calls of one function in the order they were met. The total is
counted apart.
-/

namespace ObjectInference

/-- The argument objects of one call, one per parameter. -/
abbrev CallRecord := List ObjectId

structure CallLog where
  byFunction : Table ObjectId (List CallRecord) := .empty
  size : Nat := 0
deriving DecidableEq, Repr

namespace CallLog

def empty : CallLog := {}

def isEmpty (l : CallLog) : Bool := l.size = 0

/-- Every call of a function, oldest first. -/
def calls (l : CallLog) (f : ObjectId) : List CallRecord :=
  (l.byFunction.get? f).getD []

def latest (l : CallLog) (f : ObjectId) : Option CallRecord :=
  (l.calls f).getLast?

/-- The functions called, in the order of their first call. -/
def functions (l : CallLog) : List ObjectId :=
  l.byFunction.keys

def record (l : CallLog) (f : ObjectId) (r : CallRecord) : CallLog :=
  { byFunction := l.byFunction.insert f (l.calls f ++ [r]), size := l.size + 1 }

def clear (_ : CallLog) : CallLog := .empty

@[simp] theorem calls_empty (f : ObjectId) : empty.calls f = [] := rfl

@[simp] theorem calls_record (l : CallLog) (f g : ObjectId) (r : CallRecord) :
    (l.record f r).calls g = if f = g then l.calls f ++ [r] else l.calls g := by
  by_cases h : f = g <;> simp [calls, record, h]

end CallLog

end ObjectInference
