import ObjectInference.Tree.Basic

/-!
Inferred objects: what a value of the analysed program is known to be.

An object is known by its number, its position in the store. The store holds
every object once and only ever grows at its end, so a number handed out keeps
its meaning. Number zero is the unknown object, which stands for the absence of
evidence, and a number that was never handed out reads as unknown. The built-in
classes and functions come next and have fixed numbers.
-/

namespace ObjectInference

abbrev ObjectId := Nat

abbrev ScopeId := Nat

namespace ObjectId

/-- No evidence. -/
def unknown : ObjectId := 0

def isKnown (o : ObjectId) : Bool := o != unknown

end ObjectId

/-- Classes that need no definition in the source. -/
inductive BuiltinClass where
  | int
  | float
  | str
  | bool
  | noneType
  | list
  | dict
  | tuple
deriving DecidableEq, Repr

namespace BuiltinClass

def all : List BuiltinClass :=
  [int, float, str, bool, noneType, list, dict, tuple]

def name : BuiltinClass → String
  | int => "int"
  | float => "float"
  | str => "str"
  | bool => "bool"
  | noneType => "NoneType"
  | list => "list"
  | dict => "dict"
  | tuple => "tuple"

/-- Every scope sees the class under its name. -/
def isGlobal : BuiltinClass → Bool
  | noneType => false
  | _ => true

/-- Containers have an instance per place of creation. The others are values
and share one instance. -/
def isContainer : BuiltinClass → Bool
  | list => true
  | dict => true
  | tuple => true
  | _ => false

def object : BuiltinClass → ObjectId
  | int => 1
  | float => 2
  | str => 3
  | bool => 4
  | noneType => 5
  | list => 6
  | dict => 7
  | tuple => 8

def ofLiteral : Literal → BuiltinClass
  | .int _ => int
  | .float _ => float
  | .str _ => str
  | .bool _ => bool
  | .none => noneType

end BuiltinClass

/-- Functions whose result follows from their arguments alone. -/
inductive BuiltinFunction where
  | len
  | listAppend
  | listSetItem
  | listGetItem
  | dictSetItem
  | dictGetItem
deriving DecidableEq, Repr

namespace BuiltinFunction

def all : List BuiltinFunction :=
  [len, listAppend, listSetItem, listGetItem, dictSetItem, dictGetItem]

def name : BuiltinFunction → String
  | len => "len"
  | listAppend => "append"
  | listSetItem => "__setitem__"
  | listGetItem => "__getitem__"
  | dictSetItem => "__setitem__"
  | dictGetItem => "__getitem__"

/-- The class whose method the function is. -/
def owner : BuiltinFunction → Option BuiltinClass
  | len => none
  | listAppend => some .list
  | listSetItem => some .list
  | listGetItem => some .list
  | dictSetItem => some .dict
  | dictGetItem => some .dict

/-- Methods that are called for what they put into their receiver. -/
def mutatesReceiver : BuiltinFunction → Bool
  | listAppend => true
  | listSetItem => true
  | dictSetItem => true
  | _ => false

/-- The names of the parameters, a method's receiver first. -/
def paramNames : BuiltinFunction → List String
  | len => ["obj"]
  | listAppend => ["self", "value"]
  | listSetItem => ["self", "key", "value"]
  | listGetItem => ["self", "key"]
  | dictSetItem => ["self", "key", "value"]
  | dictGetItem => ["self", "key"]

def object : BuiltinFunction → ObjectId
  | len => 9
  | listAppend => 10
  | listSetItem => 11
  | listGetItem => 12
  | dictSetItem => 13
  | dictGetItem => 14

end BuiltinFunction

inductive Object where
  | unknown
  | module (scope : ScopeId)
  | function (scope : ScopeId)
  | cls (scope : ScopeId)
  | builtinClass (c : BuiltinClass)
  | builtinFunction (f : BuiltinFunction)
  /-- An instance made at a place of the source. The shared instance of a class
  has no place. -/
  | inst (cls : ObjectId) (site : NodeRef)
  /-- A generator of elements. -/
  | generator (element : ObjectId)
deriving DecidableEq, Repr

/-- What an object is when it is called. -/
inductive ObjectKind where
  | unknown
  | function
  | builtinFunction
  | cls
  | inst
  | module
deriving DecidableEq, Repr

def ObjectKind.isFunction : ObjectKind → Bool
  | function => true
  | builtinFunction => true
  | _ => false

def Object.kind : Object → ObjectKind
  | unknown => .unknown
  | module _ => .module
  | function _ => .function
  | cls _ => .cls
  | builtinClass _ => .cls
  | builtinFunction _ => .builtinFunction
  | inst .. => .inst
  | generator _ => .inst

structure ObjectStore where
  objects : Array Object
deriving DecidableEq, Repr

namespace ObjectStore

/-- The unknown object and the built-in ones. -/
def initial : ObjectStore :=
  ⟨#[.unknown] ++ (BuiltinClass.all.map Object.builtinClass).toArray
    ++ (BuiltinFunction.all.map Object.builtinFunction).toArray⟩

def size (st : ObjectStore) : Nat := st.objects.size

def get (st : ObjectStore) (o : ObjectId) : Object :=
  (st.objects[o]?).getD .unknown

/-- The number of an object, new objects getting the next one. -/
def intern (st : ObjectStore) (object : Object) : ObjectId × ObjectStore :=
  match st.objects.findIdx? (· = object) with
  | some o => (o, st)
  | none => (st.size, ⟨st.objects.push object⟩)

def kind (st : ObjectStore) (o : ObjectId) : ObjectKind :=
  (st.get o).kind

/-- The scope that a module, function or class owns. -/
def scopeOf? (st : ObjectStore) (o : ObjectId) : Option ScopeId :=
  match st.get o with
  | .module scope => some scope
  | .function scope => some scope
  | .cls scope => some scope
  | _ => none

def classOf? (st : ObjectStore) (o : ObjectId) : Option ObjectId :=
  match st.get o with
  | .inst c _ => some c
  | _ => none

def builtinClassOf? (st : ObjectStore) (o : ObjectId) : Option BuiltinClass :=
  match (st.classOf? o).map st.get with
  | some (.builtinClass c) => some c
  | _ => none

theorem get_initial_class (c : BuiltinClass) : initial.get c.object = .builtinClass c := by
  cases c <;> rfl

theorem get_initial_function (f : BuiltinFunction) :
    initial.get f.object = .builtinFunction f := by
  cases f <;> rfl

end ObjectStore

end ObjectInference
