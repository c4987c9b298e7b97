import ObjectInference.Object
import ObjectInference.Table

/-!
What has been seen going into containers.

A container has a slot for its elements (the keys, if it is a dict), one for
the values of a dict, and one for each position of a tuple. The first known
object seen for a slot stays in it; later evidence and the unknown object
change nothing. Only `forget` takes evidence away, all that one container has.
-/

namespace ObjectInference

/-- What part of a container a piece of evidence is about. -/
inductive Slot where
  /-- Elements of a list or tuple, keys of a dict. -/
  | element
  /-- Values of a dict. -/
  | value
  | item (position : Nat)
deriving DecidableEq, Repr

structure Evidence where
  slots : Table (ObjectId × Slot) ObjectId := .empty
deriving DecidableEq, Repr

namespace Evidence

def empty : Evidence := {}

def get? (e : Evidence) (container : ObjectId) (slot : Slot) : Option ObjectId :=
  e.slots.get? (container, slot)

/-- See an object go into a slot. -/
def add (e : Evidence) (container : ObjectId) (slot : Slot) (o : ObjectId) : Evidence :=
  if o.isKnown then ⟨e.slots.insertNew (container, slot) o⟩ else e

def forget (e : Evidence) (container : ObjectId) : Evidence :=
  ⟨e.slots.restrict fun k => k.1 != container⟩

def forgetAll (e : Evidence) (containers : List ObjectId) : Evidence :=
  containers.foldl forget e

@[simp] theorem get?_empty (c : ObjectId) (slot : Slot) : empty.get? c slot = none := rfl

theorem get?_add (e : Evidence) (c c' : ObjectId) (slot slot' : Slot) (o : ObjectId) :
    (e.add c slot o).get? c' slot' =
      if o.isKnown ∧ c = c' ∧ slot = slot' then some ((e.get? c slot).getD o)
      else e.get? c' slot' := by
  unfold add get?
  by_cases h : o.isKnown = true <;> simp [h, Table.get?_insertNew]

@[simp] theorem get?_forget (e : Evidence) (c c' : ObjectId) (slot : Slot) :
    (e.forget c).get? c' slot = if c = c' then none else e.get? c' slot := by
  by_cases h : c = c'
  · simp [forget, get?, h]
  · simp [forget, get?, h, Ne.symm h]

end Evidence

end ObjectInference
