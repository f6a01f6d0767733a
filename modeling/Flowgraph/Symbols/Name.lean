/-! # Mangled names

Accessors, field initializers and constructors share the namespace of ordinary
functions under names that no source text can spell.
-/

namespace Flowgraph.Symbols

def getterMark : String := "get:"

def setterMark : String := "set:"

def initializerMark : String := "init:"

def getterName (name : String) : String := getterMark ++ name

def setterName (name : String) : String := setterMark ++ name

def initializerName (name : String) : String := initializerMark ++ name

/-- `Point.` is the unnamed constructor, `Point.origin` a named one. Factories
share the namespace of constructors. -/
def constructorName (className name : String) : String := className ++ "." ++ name

def hasMark (mark name : String) : Bool := mark.toList.isPrefixOf name.toList

def isGetterName (name : String) : Bool := hasMark getterMark name

def isSetterName (name : String) : Bool := hasMark setterMark name

def unmangle (name : String) : String :=
  match [getterMark, setterMark, initializerMark].find? (hasMark · name) with
  | some mark => String.ofList (name.toList.drop mark.length)
  | none => name

def qualify (owner : Option String) (name : String) : String := owner.getD "" ++ "::" ++ name

end Flowgraph.Symbols
