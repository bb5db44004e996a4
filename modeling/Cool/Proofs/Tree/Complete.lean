import Cool.Tree.Basic

/-! Two properties of trees. A tree is written out if it could be read from a document: no part is
missing and every operator has a name. It is complete if only variables and attributes do without an
expression, which is their initializer, and every case has a branch. -/

namespace Cool

mutual

/-- Whether an expression is there with all its parts. -/
def Expr.isComplete : Expr → Bool
  | .missing | .noExpr _ => false
  | .block _ body => Expr.allComplete body
  | .assign _ _ value => value.isComplete
  | .dispatch _ receiver _ args => receiver.isComplete && Expr.allComplete args
  | .staticDispatch _ receiver _ _ args => receiver.isComplete && Expr.allComplete args
  | .cond _ pred onTrue onFalse => pred.isComplete && onTrue.isComplete && onFalse.isComplete
  | .loop _ pred body => pred.isComplete && body.isComplete
  | .caseOf _ scrutinee branches =>
    scrutinee.isComplete && !branches.isEmpty && Branch.allComplete branches
  | .letIn _ _ _ init body => (init.isAbsent || init.isComplete) && body.isComplete
  | .binary _ _ left right => left.isComplete && right.isComplete
  | .unary _ _ operand => operand.isComplete
  | .int _ _ | .string _ _ | .bool _ _ | .new _ _ | .object _ _ => true
termination_by structural e => e

def Expr.allComplete : List Expr → Bool
  | [] => true
  | e :: rest => e.isComplete && Expr.allComplete rest
termination_by structural es => es

def Branch.allComplete : List Branch → Bool
  | [] => true
  | .mk _ _ _ body :: rest => body.isComplete && Branch.allComplete rest
termination_by structural bs => bs

end

mutual

/-- Whether no part of an expression is missing and all its operators have names. -/
def Expr.isWritten : Expr → Bool
  | .missing => false
  | .noExpr _ => true
  | .block _ body => Expr.allWritten body
  | .assign _ _ value => value.isWritten
  | .dispatch _ receiver _ args => receiver.isWritten && Expr.allWritten args
  | .staticDispatch _ receiver _ _ args => receiver.isWritten && Expr.allWritten args
  | .cond _ pred onTrue onFalse => pred.isWritten && onTrue.isWritten && onFalse.isWritten
  | .loop _ pred body => pred.isWritten && body.isWritten
  | .caseOf _ scrutinee branches => scrutinee.isWritten && Branch.allWritten branches
  | .letIn _ _ _ init body => init.isWritten && body.isWritten
  | .binary _ op left right => op.tag?.isSome && left.isWritten && right.isWritten
  | .unary _ op operand => op.tag?.isSome && operand.isWritten
  | .int _ _ | .string _ _ | .bool _ _ | .new _ _ | .object _ _ => true
termination_by structural e => e

def Expr.allWritten : List Expr → Bool
  | [] => true
  | e :: rest => e.isWritten && Expr.allWritten rest
termination_by structural es => es

def Branch.allWritten : List Branch → Bool
  | [] => true
  | .mk _ _ _ body :: rest => body.isWritten && Branch.allWritten rest
termination_by structural bs => bs

end

/-- Whether the expression of a feature is there. That of an attribute may be left out. -/
def Feature.isComplete : Feature → Bool
  | .method m => m.body.isComplete
  | .attr a => a.init.isAbsent || a.init.isComplete

/-- Whether the expression of a feature is written out. -/
def Feature.isWritten : Feature → Bool
  | .method m => m.body.isWritten
  | .attr a => a.init.isWritten

theorem Expr.not_isAbsent {e : Expr} (he : e.isComplete = true) : e.isAbsent = false := by
  cases e <;> simp_all [Expr.isComplete, Expr.isAbsent]

end Cool
