import Cool.Document.Decode

/-! Where a node stands in a document matters to its errors only: the same node read further below
gives the same tree, or the same error with a longer path. -/

namespace Cool.Document

variable {α β : Type}

/-- An error of a part as it is told from further above. -/
def Error.under (above : Path) : Error → Error
  | malformed => malformed
  | wrongType path => wrongType (above ++ path)
  | missingField path key => missingField (above ++ path) key
  | unknownKind path what kind => unknownKind (above ++ path) what kind
  | nullNode path => nullNode (above ++ path)
  | emptyInteger path => emptyInteger (above ++ path)
  | invalidInteger path token => invalidInteger (above ++ path) token

/-- The first reading is the second one, with its errors told from further above. -/
def Moved (above : Path) (x y : Except Error α) : Prop :=
  x = y.mapError (Error.under above)

namespace Moved

variable {above : Path}

theorem ok (a : α) : Moved above (.ok a) (.ok a) :=
  rfl

theorem error {e e' : Error} (he : e' = e.under above) :
    Moved above (.error e' : Except Error α) (.error e) := by
  rw [he]
  rfl

theorem bind {x y : Except Error α} {f g : α → Except Error β} (hxy : Moved above x y)
    (hfg : ∀ a, Moved above (f a) (g a)) : Moved above (x >>= f) (y >>= g) := by
  cases hxy
  cases y with
  | error e => rfl
  | ok a => exact hfg a

theorem isOk {x y : Except Error α} (hxy : Moved above x y) : x.isOk = y.isOk := by
  cases hxy
  cases y with
  | error e => rfl
  | ok a => rfl

theorem eq_error {x y : Except Error α} {e : Error} (hxy : Moved above x y) (hx : x = .error e) :
    ∃ e', y = .error e' ∧ e = e'.under above := by
  cases hxy
  cases y with
  | error e' =>
      cases hx
      exact ⟨e', rfl, rfl⟩
  | ok a => cases hx

/-- A list is moved with its elements. -/
theorem decodeAll {decode : Path → α → Except Error β} {as : List α} (path : Path) (i : Nat)
    (hdecode : ∀ path, ∀ a ∈ as, Moved above (decode (above ++ path) a) (decode path a)) :
    Moved above (decodeAll (above ++ path) decode i as) (decodeAll path decode i as) := by
  induction as generalizing i with
  | nil => exact ok []
  | cons a as ih =>
      obtain ⟨ha, has⟩ := List.forall_mem_cons.mp fun a ha path => hdecode path a ha
      rw [Document.decodeAll, Document.decodeAll, List.append_assoc]
      refine (ha _).bind fun b => ?_
      exact (ih (i + 1) fun path a hmem => has a hmem path).bind fun bs => ok (b :: bs)

end Moved

variable (above path : Path) (ms : Members) (file : String)

theorem text_moved (key : String) :
    Moved above (text (above ++ path) ms key) (text path ms key) := by
  unfold text
  split
  · exact .ok _
  · rw [List.append_assoc]
    exact .error rfl
  · exact .error rfl

theorem optionalText_moved (key : String) :
    Moved above (optionalText (above ++ path) ms key) (optionalText path ms key) := by
  unfold optionalText
  split
  · exact .ok _
  · rw [List.append_assoc]
    exact .error rfl
  · exact .ok _

theorem name_moved (key : String) :
    Moved above (name (above ++ path) ms key) (name path ms key) := by
  unfold name
  rw [show text (above ++ path) ms key = _ from text_moved above path ms key]
  cases text path ms key with
  | error e => exact .error rfl
  | ok s => exact .ok _

theorem span_moved : Moved above (span file (above ++ path) ms) (span file path ms) := by
  unfold span
  rw [List.append_assoc]
  split
  · exact .ok _
  · split
    · exact .ok _
    · exact .error rfl
  · exact .error rfl

theorem integerToken_moved :
    Moved above (integerToken (above ++ path) ms) (integerToken path ms) := by
  unfold integerToken
  split
  · exact .error rfl
  · split
    · exact .error rfl
    · split
      · exact .ok _
      · exact .error rfl

theorem boolean_moved : Moved above (boolean (above ++ path) ms) (boolean path ms) := by
  unfold boolean
  split
  · exact .error rfl
  · exact .ok _
  · rw [List.append_assoc]
    exact .error rfl

theorem children_moved (key : String) :
    Moved above (children (above ++ path) ms key) (children path ms key) := by
  unfold children
  split
  · exact .ok _
  · exact .ok _
  · rw [List.append_assoc]
    exact .error rfl

theorem asObject_moved (j : Json) : Moved above (asObject (above ++ path) j) (asObject path j) := by
  cases j with
  | object text ms => exact .ok ms
  | _ => exact .error rfl

mutual

theorem expr_moved (above : Path) (file : String) (path : Path) (j : Json) :
    Moved above (expr file (above ++ path) j) (expr file path j) := by
  cases j with
  | object whole ms =>
      unfold expr
      refine (text_moved above path ms "kind").bind fun kind => ?_
      refine (span_moved above path ms file).bind fun place => ?_
      dsimp only
      split
      · refine (exprField_moved above file path ms "left").bind fun left => ?_
        exact (exprField_moved above file path ms "right").bind fun right => .ok _
      · exact (exprField_moved above file path ms "expr").bind fun operand => .ok _
      · exact .ok _
      · exact (exprList_moved above file path ms "body").bind fun body => .ok _
      · refine (name_moved above path ms "name").bind fun target => ?_
        exact (exprField_moved above file path ms "value").bind fun value => .ok _
      · refine (exprField_moved above file path ms "receiver").bind fun receiver => ?_
        refine (name_moved above path ms "method").bind fun method => ?_
        exact (exprList_moved above file path ms "args").bind fun args => .ok _
      · refine (exprField_moved above file path ms "receiver").bind fun receiver => ?_
        refine (name_moved above path ms "method").bind fun method => ?_
        refine (exprList_moved above file path ms "args").bind fun args => ?_
        exact (name_moved above path ms "type").bind fun target => .ok _
      · refine (exprField_moved above file path ms "pred").bind fun pred => ?_
        refine (exprField_moved above file path ms "then").bind fun onTrue => ?_
        exact (exprField_moved above file path ms "else").bind fun onFalse => .ok _
      · refine (exprField_moved above file path ms "pred").bind fun pred => ?_
        exact (exprField_moved above file path ms "body").bind fun body => .ok _
      · refine (exprField_moved above file path ms "expr").bind fun scrutinee => ?_
        exact (branchList_moved above file path ms).bind fun branches => .ok _
      · refine (name_moved above path ms "name").bind fun bound => ?_
        refine (name_moved above path ms "type").bind fun type => ?_
        refine (initializer_moved above file path ms place).bind fun init => ?_
        exact (exprField_moved above file path ms "body").bind fun body => .ok _
      · exact (integerToken_moved above path ms).bind fun token => .ok _
      · exact (text_moved above path ms "value").bind fun value => .ok _
      · exact (boolean_moved above path ms).bind fun value => .ok _
      · exact (name_moved above path ms "type").bind fun type => .ok _
      · exact (name_moved above path ms "name").bind fun bound => .ok _
      · exact .error rfl
  | _ =>
      unfold expr
      exact .error rfl
termination_by sizeOf j
decreasing_by all_goals exact Json.sizeOf_members_lt _ _

theorem exprField_moved (above : Path) (file : String) (path : Path) (ms : Members) (key : String) :
    Moved above (exprField file (above ++ path) ms key) (exprField file path ms key) := by
  unfold exprField
  split
  · exact .error rfl
  · rw [List.append_assoc]
    exact expr_moved above file _ _
termination_by sizeOf ms

theorem initializer_moved (above : Path) (file : String) (path : Path) (ms : Members)
    (owner : Span) :
    Moved above (initializer file (above ++ path) ms owner) (initializer file path ms owner) := by
  unfold initializer
  split
  · exact .ok _
  · rw [List.append_assoc]
    exact expr_moved above file _ _
termination_by sizeOf ms

theorem exprList_moved (above : Path) (file : String) (path : Path) (ms : Members) (key : String) :
    Moved above (exprList file (above ++ path) ms key) (exprList file path ms key) := by
  unfold exprList
  rw [List.append_assoc]
  refine (children_moved above path ms key).bind fun items => ?_
  exact .decodeAll _ 0 fun path v _ => expr_moved above file path v.1
termination_by sizeOf ms
decreasing_by exact v.2

theorem branchList_moved (above : Path) (file : String) (path : Path) (ms : Members) :
    Moved above (branchList file (above ++ path) ms) (branchList file path ms) := by
  unfold branchList
  rw [List.append_assoc]
  refine (children_moved above path ms "branches").bind fun items => ?_
  exact .decodeAll _ 0 fun path v _ => branch_moved above file path v.1
termination_by sizeOf ms
decreasing_by exact v.2

theorem branch_moved (above : Path) (file : String) (path : Path) (j : Json) :
    Moved above (branch file (above ++ path) j) (branch file path j) := by
  cases j with
  | object whole ms =>
      unfold branch
      refine (span_moved above path ms file).bind fun place => ?_
      refine (name_moved above path ms "name").bind fun bound => ?_
      refine (name_moved above path ms "type").bind fun type => ?_
      exact (exprField_moved above file path ms "body").bind fun body => .ok _
  | _ =>
      unfold branch
      exact .error rfl
termination_by sizeOf j
decreasing_by all_goals exact Json.sizeOf_members_lt _ _

end

theorem formal_moved (j : Json) :
    Moved above (formal file (above ++ path) j) (formal file path j) := by
  unfold formal
  refine (asObject_moved above path j).bind fun ms => ?_
  refine (span_moved above path ms file).bind fun place => ?_
  refine (name_moved above path ms "name").bind fun parameter => ?_
  exact (name_moved above path ms "type").bind fun type => .ok _

theorem feature_moved (j : Json) :
    Moved above (feature file (above ++ path) j) (feature file path j) := by
  unfold feature
  refine (asObject_moved above path j).bind fun ms => ?_
  refine (text_moved above path ms "kind").bind fun kind => ?_
  refine (span_moved above path ms file).bind fun place => ?_
  refine (name_moved above path ms "name").bind fun member => ?_
  split
  · refine (name_moved above path ms "type").bind fun type => ?_
    exact (initializer_moved above file path ms place).bind fun init => .ok _
  · refine (name_moved above path ms "return").bind fun result => ?_
    refine (children_moved above path ms "formals").bind fun items => ?_
    rw [List.append_assoc]
    refine (Moved.decodeAll _ 0 fun path v _ => formal_moved above path file v.1).bind
      fun formals => ?_
    exact (exprField_moved above file path ms "body").bind fun body => .ok _
  · exact .error rfl

theorem classDecl_moved (j : Json) :
    Moved above (classDecl file (above ++ path) j) (classDecl file path j) := by
  unfold classDecl
  refine (asObject_moved above path j).bind fun ms => ?_
  refine (span_moved above path ms file).bind fun place => ?_
  refine (name_moved above path ms "name").bind fun className => ?_
  refine (optionalText_moved above path ms "parent").bind fun parent => ?_
  refine (children_moved above path ms "features").bind fun items => ?_
  rw [List.append_assoc]
  exact (Moved.decodeAll _ 0 fun path v _ => feature_moved above path file v.1).bind
    fun features => .ok _

end Cool.Document
