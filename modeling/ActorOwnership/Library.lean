import ActorOwnership.Expression

/-! What is known of callees without a body: which arguments their result may alias and which
arguments they store into their receiver. -/

namespace ActorOwnership
set_option autoImplicit false

/-- A library callee. Without `returnAliases` the result may alias every argument and the receiver. -/
structure LibrarySpec where
  returnAliases : Option (List Int) := none
  returnFromReceiver : Bool := false
  flowsIntoReceiver : List Int := []
  description : String := ""
  deriving DecidableEq, Repr, Inhabited

namespace LibrarySpec

/-- The result is unrelated to receiver and arguments. -/
def returnsFresh (s : LibrarySpec) : Bool :=
  s.returnAliases == some [] && !s.returnFromReceiver

def fresh (description : String) : LibrarySpec := ⟨some [], false, [], description⟩

def aliases (args : List Int) (description : String) : LibrarySpec :=
  ⟨some args, false, [], description⟩

/-- The result comes from the receiver, or aliases one of `args`. -/
def takes (args : List Int) (description : String) : LibrarySpec :=
  ⟨some args, true, [], description⟩

def stores (args : List Int) (description : String) : LibrarySpec :=
  ⟨some [], false, args, description⟩

end LibrarySpec

/-- Specifications by name, the first one of a name counting. -/
abbrev Library := List (String × LibrarySpec)

namespace Library

def find? (l : Library) (name : String) : Option LibrarySpec := l.lookup name

/-- Types whose methods stand in for a method of an unknown object, in the order of search. -/
def receiverTypes : List String := ["list", "dict", "set", "str", "bytes", "object"]

/-- What follows the last dot. -/
def lastComponent (name : String) : String :=
  String.ofList (name.toList.reverse.takeWhile (· ≠ '.')).reverse

/-- The specification of a name, or of a method with the same last component. -/
def specOf (l : Library) (name : String) : Option LibrarySpec :=
  match l.find? name with
  | some s => some s
  | none =>
    if name.toList.contains '.' then
      receiverTypes.findSome? fun t => l.find? (t ++ "." ++ lastComponent name)
    else none

/-- The specification of a call; a call on an object is looked up as a method. -/
def callSpec (l : Library) (i : Invocation) : Option LibrarySpec :=
  if i.receiver.isSome then l.specOf ("object." ++ i.name) else l.specOf i.name

open LibrarySpec in
def builtins : Library :=
  [("len", fresh "Length"),
   ("str", fresh "String conversion"),
   ("repr", fresh "Representation"),
   ("int", fresh "Integer conversion"),
   ("float", fresh "Float conversion"),
   ("bool", fresh "Truth value"),
   ("hash", fresh "Hash value"),
   ("id", fresh "Identity"),
   ("isinstance", fresh "Type check"),
   ("print", fresh "Print"),
   ("range", fresh "Range"),
   ("sum", fresh "Sum"),
   ("any", fresh "Any"),
   ("all", fresh "All"),
   ("format", fresh "Format"),
   ("copy.deepcopy", fresh "Deep copy"),
   ("deepcopy", fresh "Deep copy"),
   ("copy.copy", aliases [0] "Shallow copy keeps element references"),
   ("list", aliases [0] "List copy keeps element references"),
   ("dict", aliases [0] "Dict copy keeps value references"),
   ("tuple", aliases [0] "Tuple of elements"),
   ("min", aliases [0, 1] "Minimum element"),
   ("max", aliases [0, 1] "Maximum element"),
   ("sorted", aliases [0] "Sorted copy keeps element references")]

open LibrarySpec in
def containers : Library :=
  [("list.append", stores [0] "Append element"),
   ("list.insert", stores [1] "Insert element"),
   ("list.extend", stores [0] "Extend with elements"),
   ("set.add", stores [0] "Add element"),
   ("dict.update", stores [0] "Update entries"),
   ("dict.setdefault", ⟨some [1], true, [1], "Set default entry"⟩),
   ("list.pop", takes [] "Remove element"),
   ("dict.pop", takes [1] "Remove entry"),
   ("dict.get", takes [1] "Entry lookup"),
   ("dict.items", takes [] "Entry view"),
   ("dict.values", takes [] "Value view"),
   ("dict.keys", fresh "Key view"),
   ("list.index", fresh "Element index"),
   ("list.count", fresh "Element count"),
   ("list.clear", fresh "Clear"),
   ("dict.clear", fresh "Clear"),
   ("str.format", fresh "String format"),
   ("str.join", fresh "String join")]

open LibrarySpec in
def loggers : Library :=
  [("object.debug", fresh "Logger call"),
   ("object.info", fresh "Logger call"),
   ("object.warning", fresh "Logger call"),
   ("object.error", fresh "Logger call"),
   ("object.exception", fresh "Logger call")]

def standard : Library := builtins ++ containers ++ loggers

end Library

end ActorOwnership
