import Flowgraph.Symbols.Manifest

/-! # The core library

The classes and functions that every library can refer to, and the names that
lowering depends on.
-/

namespace Flowgraph.Symbols

def objectClass : String := "Object"

def closureClass : String := "_Closure"

def contextClass : String := "_Context"

def listClass : String := "List"

def mapClass : String := "Map"

def stringClass : String := "String"

def assertionErrorClass : String := "_AssertionError"

def literalFactory : String := "_fromLiteral"

def interpolateFunction : String := "_interpolate"

def interpolateOneFunction : String := "_interpolateSingle"

def assertionFactory : String := "_create"

def identicalFunction : String := "identical"

def instanceOfFunction : String := "_instanceOf"

def asFunction : String := "_as"

def equalsOperator : String := "=="

def Manifest.core : Manifest :=
  { classes :=
      [{ name := objectClass
         methods := [{ name := equalsOperator, parameters := 1 }, { name := "toString" },
           { name := instanceOfFunction, parameters := 3 }, { name := asFunction, parameters := 2 }] },
       { name := "Null", super := objectClass },
       { name := "bool", super := objectClass },
       { name := "num", super := objectClass },
       { name := "int", super := "num" },
       { name := "double", super := "num" },
       { name := stringClass, super := objectClass
         methods := [{ name := "length", access := .getter },
           { name := interpolateFunction, isStatic := true, parameters := 1 },
           { name := interpolateOneFunction, isStatic := true, parameters := 1 }] },
       { name := "Symbol", super := objectClass },
       { name := "Type", super := objectClass },
       { name := "Function", super := objectClass },
       { name := closureClass, super := "Function" },
       { name := contextClass, super := objectClass },
       { name := "Iterator", super := objectClass
         methods := [{ name := "moveNext" }, { name := "current", access := .getter }] },
       { name := "Iterable", super := objectClass
         methods := [{ name := "iterator", access := .getter }] },
       { name := listClass, super := "Iterable"
         factories := [{ name := literalFactory, parameters := 1 }]
         methods := [{ name := "length", access := .getter }, { name := "add", parameters := 1 }] },
       { name := mapClass, super := objectClass
         factories := [{ name := literalFactory, parameters := 1 }] },
       { name := "StackTrace", super := objectClass },
       { name := "Error", super := objectClass, constructors := [{ name := "" }] },
       { name := "Exception", super := objectClass },
       { name := assertionErrorClass, super := "Error"
         factories := [{ name := assertionFactory, parameters := 1 }] }]
    functions :=
      [{ name := "print", parameters := 1 },
       { name := identicalFunction, parameters := 2, intrinsic := identicalFunction }] }

end Flowgraph.Symbols
