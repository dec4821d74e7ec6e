import CilMethod.Handle
import CilMethod.Metadata.Attributes
import CilMethod.Metadata.Token

/-!
# Types and methods

A method body needs little of the program around it: the method it belongs to, the type that
declares the method, and the types of its local variables. The graph keeps these. Types are
numbered in the order they were added, and each is registered under its full name, by which types
are told apart: adding a type whose full name is taken gives back the type that has it (`add`), so a
type once added is never replaced. Methods are numbered in the order they were added, and each is
listed with the type that declares it.
-/

namespace CilMethod

structure TypeDef where
  nameSpace : String := ""
  name : String := ""
  /-- Only `System.Object`, interfaces and the global type have none. -/
  base : Option TypeId := none
  /-- A value type gets its `this` passed by reference. -/
  isValueType : Bool := false
  /-- Zero if none is assigned yet. -/
  token : Token := .zero
  /-- The methods that the type declares, in the order they were added. -/
  methods : Array MethodId := #[]
  deriving DecidableEq, Inhabited

/-- The name after its namespace and a point; a type without a namespace has only its name. -/
def TypeDef.fullName (t : TypeDef) : String :=
  if t.nameSpace = "" then t.name else t.nameSpace ++ "." ++ t.name

/-- Do two types have the same namespace and the same name? -/
def TypeDef.sameName (t u : TypeDef) : Bool :=
  t.nameSpace == u.nameSpace && t.name == u.name

structure MethodDef where
  /-- Missing as long as no type declares the method. -/
  declaringType : Option TypeId := none
  name : String := ""
  attributes : MethodAttributes := ⟨0⟩
  /-- Zero if none is assigned yet. -/
  token : Token := .zero
  deriving DecidableEq, Inhabited

/-- A parameter of a method. -/
structure Parameter where
  name : String
  /-- Position among the arguments; `this` is number zero of an instance method. -/
  sequence : Nat
  attributes : ParameterAttributes
  type : TypeId
  isByRef : Bool
  deriving DecidableEq

structure TypeGraph where
  types : Array TypeDef := #[]
  /-- The names that types are registered under, the oldest first. -/
  keys : List (String × TypeId) := []
  methods : Array MethodDef := #[]
  deriving DecidableEq, Inhabited

/-- The types every program has. -/
structure CoreTypes where
  object : TypeId
  boolean : TypeId
  int32 : TypeId
  int64 : TypeId
  double : TypeId
  string : TypeId
  exception : TypeId
  deriving DecidableEq

namespace TypeGraph

def empty : TypeGraph := {}

/-- The type with a number. A number that the graph has not given out stands for a type without a
name. -/
def typeDef (g : TypeGraph) (id : TypeId) : TypeDef := g.types.getD id.index {}

def fullName (g : TypeGraph) (id : TypeId) : String := (g.typeDef id).fullName

/-- The type that is registered under a name. -/
def lookup? (g : TypeGraph) (name : String) : Option TypeId := g.keys.lookup name

/-- Adds a type and registers it under its full name, unless that is taken: then the type that has
it is the answer. -/
def add (g : TypeGraph) (t : TypeDef) : TypeId × TypeGraph :=
  match g.lookup? t.fullName with
  | some id => (id, g)
  | none =>
    let id : TypeId := ⟨g.types.size⟩
    (id, { g with types := g.types.push t, keys := g.keys ++ [(t.fullName, id)] })

/-- Adds a method, also to the methods of the type that declares it. -/
def addMethod (g : TypeGraph) (m : MethodDef) : MethodId × TypeGraph :=
  let id : MethodId := ⟨g.methods.size⟩
  let types := match m.declaringType with
    | some t => g.types.modify t.index fun d => { d with methods := d.methods.push id }
    | none => g.types
  (id, { g with types, methods := g.methods.push m })

/-- Adds the core types. -/
def addCore (g : TypeGraph) : CoreTypes × TypeGraph :=
  let (object, g) := g.add { nameSpace := "System", name := "Object" }
  let (valueType, g) := g.add { nameSpace := "System", name := "ValueType", base := some object }
  let value (name : String) : TypeDef :=
    { nameSpace := "System", name, base := some valueType, isValueType := true }
  let (boolean, g) := g.add (value "Boolean")
  let (int32, g) := g.add (value "Int32")
  let (int64, g) := g.add (value "Int64")
  let (double, g) := g.add (value "Double")
  let (string, g) := g.add { nameSpace := "System", name := "String", base := some object }
  let (exception, g) := g.add { nameSpace := "System", name := "Exception", base := some object }
  ({ object, boolean, int32, int64, double, string, exception }, g)

/-- The text of a method: the type that declares it, two colons and its name. -/
def methodText (g : TypeGraph) (m : MethodDef) : String :=
  match m.declaringType with
  | some t => g.fullName t ++ "::" ++ m.name
  | none => m.name

/-- The text of a parameter: its type, with an ampersand if it is passed by reference, and its
name. -/
def parameterText (g : TypeGraph) (p : Parameter) : String :=
  g.fullName p.type ++ (if p.isByRef then "&" else "") ++ " " ++ p.name

end TypeGraph

/-- A full name cut at its last point, into the namespace and the name. -/
def splitFullName (fullName : String) : String × String :=
  let cs := fullName.toList.reverse
  match cs.dropWhile (· != '.') with
  | [] => ("", fullName)
  | _ :: rest =>
    (String.ofList rest.reverse, String.ofList (cs.takeWhile (· != '.')).reverse)

end CilMethod
