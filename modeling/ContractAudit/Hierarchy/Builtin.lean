import ContractAudit.Hierarchy.ClassInfo

/-!
The types that every program has: the hierarchy of exceptions, and the interfaces that programs
commonly implement. They have no file, and their methods have no docblock, so they permit no
exception.
-/
namespace ContractAudit.Builtin

def method (owner : String) (name : String) (params : List String) (result : String) :
    MethodInfo where
  name
  declaringClass := owner
  sourceOwner := owner
  visibility := .publicly
  isStatic := false
  isAbstract := true
  doc := none
  returnType := some (Signature.parse result)
  params := params.map fun p => ⟨p, some (Signature.parse "mixed")⟩
  lines := none
  file := none

def interface (name : String) (parents : List String) (methods : List MethodInfo) :
    ClassInfo where
  name
  kind := .interfaceType
  parent := none
  interfaces := parents
  traits := []
  isAbstract := true
  file := none
  context := .global
  methods

def concrete (name : String) (parent : Option String) (interfaces : List String) : ClassInfo where
  name
  kind := .classType
  parent
  interfaces
  traits := []
  isAbstract := false
  file := none
  context := .global
  methods := []

def below (parent : String) (names : List String) : List ClassInfo :=
  names.map fun n => concrete n (some parent) []

def classes : List ClassInfo := [
  interface "Stringable" [] [method "Stringable" "__toString" [] "string"],
  interface "Traversable" [] [],
  interface "Iterator" ["Traversable"] [
    method "Iterator" "current" [] "mixed",
    method "Iterator" "key" [] "mixed",
    method "Iterator" "next" [] "void",
    method "Iterator" "rewind" [] "void",
    method "Iterator" "valid" [] "bool"],
  interface "IteratorAggregate" ["Traversable"] [
    method "IteratorAggregate" "getIterator" [] "Traversable"],
  interface "ArrayAccess" [] [
    method "ArrayAccess" "offsetExists" ["offset"] "bool",
    method "ArrayAccess" "offsetGet" ["offset"] "mixed",
    method "ArrayAccess" "offsetSet" ["offset", "value"] "void",
    method "ArrayAccess" "offsetUnset" ["offset"] "void"],
  interface "Countable" [] [method "Countable" "count" [] "int"],
  interface "JsonSerializable" [] [method "JsonSerializable" "jsonSerialize" [] "mixed"],
  interface "UnitEnum" [] [],
  interface "BackedEnum" ["UnitEnum"] [],
  interface "Throwable" ["Stringable"] [],
  concrete "Closure" none [],
  concrete "stdClass" none [],
  concrete "Generator" none ["Iterator"],
  concrete "ArrayIterator" none ["Iterator", "ArrayAccess", "Countable"],
  concrete "Exception" none ["Throwable"],
  concrete "Error" none ["Throwable"]] ++
  below "Exception" ["ErrorException"] ++
  below "Error" ["TypeError"] ++
  below "TypeError" ["ArgumentCountError"] ++
  below "Error" ["ValueError", "ArithmeticError"] ++
  below "ArithmeticError" ["DivisionByZeroError"] ++
  below "Error" ["AssertionError", "UnhandledMatchError", "CompileError"] ++
  below "CompileError" ["ParseError"] ++
  below "Exception" ["JsonException", "LogicException"] ++
  below "LogicException" ["BadFunctionCallException"] ++
  below "BadFunctionCallException" ["BadMethodCallException"] ++
  below "LogicException" [
    "DomainException", "InvalidArgumentException", "LengthException", "OutOfRangeException"] ++
  below "Exception" ["RuntimeException"] ++
  below "RuntimeException" [
    "OutOfBoundsException", "OverflowException", "RangeException", "UnderflowException",
    "UnexpectedValueException"]

/-- Is this the name of a built-in type, whatever its letter case? -/
def isName (name : String) : Bool := classes.any (Text.same ·.name name)

end ContractAudit.Builtin
