import Cool.Diagnostic.Basic
import Cool.Name

/-! What can be wrong with the features of a class. -/

namespace Cool.Members

/-- How an override differs from the method it overrides. -/
inductive Mismatch where
  | count (expected found : Nat)
  | argument (index : Nat) (expectedName expectedType foundName foundType : Name)
  | result (expected found : Name)
deriving DecidableEq, Repr

inductive Problem where
  | attributeOverride (name parent : Name)
  | attributeNamedSelf
  | duplicateAttribute (name : Name)
  | attributeType (name type : Name)
  | duplicateMethod (name : Name)
  | formalSelfType (name : Name)
  | formalType (name type : Name)
  | formalNamedSelf
  | duplicateFormal (name : Name)
  | returnType (type : Name)
  /-- A method differs from that of the parent class, which `definer` declares at a place. -/
  | override (method parent : Name) (mismatch : Mismatch) (definer : Name) (declared : Span)
deriving DecidableEq, Repr

namespace Mismatch

def message (method parent : Name) : Mismatch → String
  | count expected found =>
    "invalid method override, method " ++ method.text ++ " signature in parent class " ++
      parent.text ++ " has " ++ toString expected ++ " arguments but " ++ toString found ++ " found"
  | argument i expectedName expectedType foundName foundType =>
    "invalid method override, arg #" ++ toString i ++ "[" ++ expectedName.text ++
      "] of parent class " ++ parent.text ++ " expects type " ++ expectedType.text ++
      " while arg #" ++ toString i ++ "[" ++ foundName.text ++ "] has type " ++ foundType.text
  | result expected found =>
    "invalid method override, method " ++ method.text ++ " returns " ++ expected.text ++
      " in parent class " ++ parent.text ++ " but " ++ found.text ++ " found"

end Mismatch

namespace Problem

def code : Problem → Code
  | attributeOverride _ _ => .attributeOverride
  | attributeNamedSelf => .attributeName
  | duplicateAttribute _ => .duplicateAttribute
  | attributeType _ _ => .attributeType
  | duplicateMethod _ => .duplicateMethod
  | formalSelfType _ => .formalType
  | formalType _ _ => .formalType
  | formalNamedSelf => .formalName
  | duplicateFormal _ => .duplicateFormal
  | returnType _ => .returnType
  | override _ _ _ _ _ => .overrideMismatch

def message : Problem → String
  | attributeOverride x parent =>
    "cannot override attribute " ++ x.text ++ " from parent class " ++ parent.text
  | attributeNamedSelf => "invalid attribute name " ++ Name.self.text
  | duplicateAttribute x => "duplicate attribute name " ++ x.text
  | attributeType x t =>
    "attribute " ++ x.text ++ " is declared with undefined type " ++ t.text
  | duplicateMethod m => "duplicated method " ++ m.text
  | formalSelfType x =>
    "argument " ++ x.text ++ " is declared as invalid argument type " ++ Name.selfType.text
  | formalType x t =>
    "argument " ++ x.text ++ " is declared with undefined argument type " ++ t.text
  | formalNamedSelf => "invalid argument name " ++ Name.self.text
  | duplicateFormal x => "duplicated argument name " ++ x.text
  | returnType t => "undefined return type " ++ t.text
  | override method parent mismatch _ _ => mismatch.message method parent

/-- Advice on a type that is not defined. -/
def declareHelp (type : Name) : String :=
  "declare a class named " ++ type.text ++ " or use an existing type"

def help : Problem → String
  | attributeType _ t | formalType _ t | returnType t => declareHelp t
  | override method parent _ _ _ =>
    "an override must repeat the signature of " ++ parent.text ++ "." ++ method.text ++ " exactly"
  | _ => ""

/-- Points at the overridden declaration when its place is known. -/
def notes : Problem → List String
  | override method _ _ definer declared =>
    if declared.isValid then
      [definer.text ++ "." ++ method.text ++ " is declared at " ++ declared.text]
    else []
  | _ => []

end Problem

def diagnostic (r : Report Problem) : Diagnostic where
  stage := .features
  code := r.problem.code
  message := r.problem.message
  span := r.span
  notes := r.problem.notes
  help := r.problem.help

end Cool.Members
