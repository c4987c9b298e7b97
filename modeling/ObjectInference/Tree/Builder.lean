import ObjectInference.Tree.Basic

/-!
Building a syntax tree step by step.

Each operation appends one node or a few and gives the position of the node
asked for; its arguments are positions of nodes built before. Names are
interned on the way, in the order in which the operation meets them.
-/

namespace ObjectInference

/-- A tree under construction with the texts its atoms come from. -/
structure Builder where
  tree : Tree := {}
  atoms : Interner := Interner.new.internCommon
deriving DecidableEq, Repr

/-- A step of construction. -/
abbrev Build := StateM Builder

namespace Build

def atom (text : String) : Build Atom :=
  modifyGet fun b =>
    let (a, atoms) := b.atoms.intern text
    (a, { b with atoms })

def add (node : Node) : Build NodeId :=
  modifyGet fun b =>
    let (i, tree) := b.tree.add node
    (i, { b with tree })

/-! ### Statements -/

def module (body : List NodeRef) : Build NodeId :=
  add (.module body)

def param (name : String) : Build ParamDecl := do
  return { name := ← atom name, kind := .positional, default := none }

def paramWithDefault (name : String) (default : NodeRef) : Build ParamDecl := do
  return { ← param name with default }

def varArgs (name : String) : Build ParamDecl := do
  return { ← param name with kind := .varArgs }

def kwArgs (name : String) : Build ParamDecl := do
  return { ← param name with kind := .kwArgs }

/-- A function with the given declarations and no decorators. -/
def functionWith (name : String) (params : List ParamDecl) (body : List NodeRef) :
    Build NodeId := do
  add (.functionDef (← atom name) params [] body)

/-- A function with ordinary parameters only. -/
def function (name : String) (params : List String) (body : List NodeRef) : Build NodeId := do
  functionWith name (← params.mapM param) body

def classDef (name : String) (bases body : List NodeRef) : Build NodeId := do
  add (.classDef (← atom name) bases body)

def returnValue (value : NodeRef) : Build NodeId :=
  add (.returnStatement value)

def returnNone : Build NodeId :=
  returnValue none

def assign (targets : List NodeRef) (value : NodeRef) : Build NodeId :=
  add (.assign targets value)

def name (id : String) : Build NodeId := do
  add (.name (← atom id))

def assignName (id : String) (value : NodeRef) : Build NodeId := do
  assign [some (← name id)] value

def exprStatement (value : NodeRef) : Build NodeId :=
  add (.exprStatement value)

def ifStatement (test : NodeRef) (body orelse : List NodeRef) : Build NodeId :=
  add (.ifStatement test body orelse)

def whileLoop (test : NodeRef) (body : List NodeRef) : Build NodeId :=
  add (.whileLoop test body [])

def forLoop (target iter : NodeRef) (body : List NodeRef) : Build NodeId :=
  add (.forLoop target iter body [])

def pass : Build NodeId :=
  add .pass

/-! ### Expressions -/

def keyword (entry : String × NodeRef) : Build NodeId := do
  add (.keyword (← atom entry.1) entry.2)

/-- A call with named arguments, which are made in order before the call. -/
def callWith (func : NodeRef) (args : List NodeRef) (keywords : List (String × NodeRef)) :
    Build NodeId := do
  let keywords ← keywords.mapM keyword
  add (.call func args (keywords.map some))

def call (func : NodeRef) (args : List NodeRef) : Build NodeId :=
  callWith func args []

def callName (callee : String) (args : List NodeRef) : Build NodeId := do
  call (some (← name callee)) args

def attr (value : NodeRef) (name : String) : Build NodeId := do
  add (.attr value (← atom name))

def methodCall (receiver : NodeRef) (method : String) (args : List NodeRef) :
    Build NodeId := do
  call (some (← attr receiver method)) args

/-- A subscript with a plain index. -/
def subscript (value index : NodeRef) : Build NodeId := do
  add (.subscript value (some (← add (.index index))))

/-- A subscript with a slice of no step. -/
def slice (value lower upper : NodeRef) : Build NodeId := do
  add (.subscript value (some (← add (.slice lower upper none))))

def tuple (elements : List NodeRef) : Build NodeId :=
  add (.tuple elements)

def list (elements : List NodeRef) : Build NodeId :=
  add (.list elements)

def dict (entries : List (NodeRef × NodeRef)) : Build NodeId :=
  add (.dict (entries.map Prod.fst) (entries.map Prod.snd))

def int (value : Int) : Build NodeId :=
  add (.literal (.int value))

def float (bits : UInt64) : Build NodeId :=
  add (.literal (.float bits))

def str (value : String) : Build NodeId :=
  add (.literal (.str value))

def bool (value : Bool) : Build NodeId :=
  add (.literal (.bool value))

def noneLiteral : Build NodeId :=
  add (.literal .none)

def yieldValue (value : NodeRef) : Build NodeId :=
  add (.yield value)

end Build

end ObjectInference
