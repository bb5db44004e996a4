import Cool.Tree.Basic

/-! What can be wrong with the types of expressions. -/

namespace Cool.Typing

/-- The sides of a binary operator. -/
inductive Side where
  | left
  | right
deriving DecidableEq, Repr

def Side.text : Side → String
  | left => "left"
  | right => "right"

/-- The name of an operator in messages. -/
def operatorName : BinaryOp → String
  | .plus => "addition"
  | .sub => "subtraction"
  | .mul => "multiplication"
  | .divide => "division"
  | .lt => "less than"
  | .leq => "less than or equal"
  | .eq | .unknown _ => ""

inductive Problem where
  | newUndefined (type : Name)
  | undefinedVariable (name : Name)
  | assignSelf
  | assignUndefined (name : Name)
  | assignMismatch (found expected : Name)
  | argumentCount (owner method : Name) (expected found : Nat)
  | argumentMismatch (index : Nat) (formal expected found : Name)
  | undefinedMethod (method cls : Name)
  | staticSelfType
  | staticUndefined (target : Name)
  | staticReceiver (found target : Name)
  | predicate (found : Name)
  | duplicateGuard (guard : Name)
  | guardSelfType (name : Name)
  | guardUndefined (name guard : Name)
  | branchNamedSelf
  | letUndefined (name type : Name)
  | letMismatch (found name type : Name)
  | letNamedSelf
  | equality (left right : Name)
  | operand (side : Side) (op : BinaryOp) (found : Name)
  | negation (found : Name)
  | complement (found : Name)
  | methodBody (found declared : Name)
  | attributeInit (found declared : Name)
deriving DecidableEq, Repr

namespace Problem

def code : Problem → Code
  | newUndefined _ => .undefinedClass
  | undefinedVariable _ => .undefinedIdentifier
  | assignSelf => .reservedName
  | assignUndefined _ => .cannotAssign
  | assignMismatch _ _ => .cannotAssign
  | argumentCount _ _ _ _ => .argumentCount
  | argumentMismatch _ _ _ _ => .typeMismatch
  | undefinedMethod _ _ => .undefinedMethod
  | staticSelfType => .invalidOperation
  | staticUndefined _ => .undefinedClass
  | staticReceiver _ _ => .typeMismatch
  | predicate _ => .typeMismatch
  | duplicateGuard _ => .duplicateBranch
  | guardSelfType _ => .invalidOperation
  | guardUndefined _ _ => .undefinedClass
  | branchNamedSelf => .reservedName
  | letUndefined _ _ => .undefinedClass
  | letMismatch _ _ _ => .typeMismatch
  | letNamedSelf => .reservedName
  | equality _ _ => .invalidOperation
  | operand _ _ _ => .invalidOperation
  | negation _ => .invalidOperation
  | complement _ => .invalidOperation
  | methodBody _ _ => .typeMismatch
  | attributeInit _ _ => .typeMismatch

/-- One argument, or several. -/
def argumentWord (n : Nat) : String :=
  if n = 1 then "argument" else "arguments"

def message : Problem → String
  | newUndefined t => "cannot create an object of undefined type " ++ t.text
  | undefinedVariable x => "undefined variable " ++ x.text
  | assignSelf => "invalid assignment to reserved name " ++ Name.self.text
  | assignUndefined x => "invalid assignment to undefined variable " ++ x.text
  | assignMismatch found expected =>
    "invalid assignment expression of type " ++ found.text ++ " on variable of type " ++
      expected.text
  | argumentCount owner m expected found =>
    "invalid method " ++ owner.text ++ "." ++ m.text ++ " call: expected " ++ toString expected ++
      " " ++ argumentWord expected ++ " but got " ++ toString found
  | argumentMismatch i formal expected found =>
    "invalid argument #" ++ toString i ++ "[" ++ formal.text ++ "]: expected expression of type " ++
      expected.text ++ " but got an expression of type " ++ found.text
  | undefinedMethod m c =>
    "invalid method call on undefined method " ++ m.text ++ " for class " ++ c.text
  | staticSelfType =>
    "invalid static dispatch: cannot dispatch from type " ++ Name.selfType.text
  | staticUndefined c => "invalid static dispatch: undefined class " ++ c.text
  | staticReceiver found target =>
    "invalid static dispatch: caller of type " ++ found.text ++ " is not a subclass of " ++
      target.text
  | predicate found =>
    "predicate should be of type " ++ Name.bool.text ++ " but there is an expression of type " ++
      found.text ++ " instead"
  | duplicateGuard t => "duplicate type case check for type " ++ t.text
  | guardSelfType x =>
    "case branch " ++ x.text ++ " cannot be declared with type " ++ Name.selfType.text
  | guardUndefined x t =>
    "case branch " ++ x.text ++ " is declared with undefined type " ++ t.text
  | branchNamedSelf => "invalid reserved variable name in case branch: " ++ Name.self.text
  | letUndefined x t =>
    "variable " ++ x.text ++ " in let is declared with undefined type " ++ t.text
  | letMismatch found x t =>
    "invalid initialization expression of type " ++ found.text ++ " for variable " ++ x.text ++
      " of type " ++ t.text
  | letNamedSelf => "invalid reserved variable name in let: " ++ Name.self.text
  | equality left right =>
    "invalid equality comparison left hand side expression of type " ++ left.text ++
      " cannot be compared with expression of type " ++ right.text
  | operand side op found =>
    "expected expression of type " ++ Name.int.text ++ " on the " ++ side.text ++
      " hand side of " ++ operatorName op ++ " but found expression of type " ++ found.text ++
      " instead"
  | negation found =>
    "expected expression of type " ++ Name.int.text ++
      " on negation but found expression of type " ++ found.text ++ " instead"
  | complement found =>
    "expected expression of type " ++ Name.bool.text ++
      " on not but found expression of type " ++ found.text ++ " instead"
  | methodBody found declared =>
    "invalid method body return type " ++ found.text ++ " is not a subtype of " ++ declared.text
  | attributeInit found declared =>
    "invalid init expression of type " ++ found.text ++ " is not a subtype of " ++ declared.text

end Problem

def diagnostic (r : Report Problem) : Diagnostic where
  stage := .typecheck
  code := r.problem.code
  message := r.problem.message
  span := r.span

end Cool.Typing
