import Cool.Diagnostic.Basic
import Cool.Name
import Cool.Text.Quoted

/-! What can be wrong with the classes of a program before their features are looked at. -/

namespace Cool.Hierarchy

inductive Problem where
  | duplicate (name : Name)
  /-- A class takes the name of the self type. -/
  | reserved
  | illegalParent (parent : Name)
  | undefinedParent (parent : Name)
  /-- The parents of `name` run into a cycle at `member`. -/
  | cycle (name member : Name)
deriving DecidableEq, Repr

namespace Problem

def code : Problem → Code
  | duplicate _ => .duplicateClass
  | reserved => .reservedClass
  | illegalParent _ => .illegalParent
  | undefinedParent _ => .undefinedParent
  | cycle _ _ => .inheritanceCycle

def message : Problem → String
  | duplicate c => "Class " ++ c.text ++ " is already defined"
  | reserved => Text.quote Name.selfType.text ++ " cannot be used as a class name"
  | illegalParent p => "cannot inherit from " ++ p.text
  | undefinedParent p => "cannot inherit from undefined class " ++ p.text
  | cycle c m => "class " ++ c.text ++ ": cyclic class inheritance with class (" ++ m.text ++ ")"

end Problem

def diagnostic (r : Report Problem) : Diagnostic where
  stage := .classes
  code := r.problem.code
  message := r.problem.message
  span := r.span

end Cool.Hierarchy
