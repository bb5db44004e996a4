import Cool.Proofs.Lowering.Derivation
import Cool.Tree.Walk
import Mathlib.Data.List.Nodup

/-! The identifiers of a module. They are made of components with a dot between them, and the
components tell them apart. -/

namespace Cool

namespace Name

/-- Whether a name is made of letters, digits and underscores. -/
def isIdentifier : Name → Bool
  | .anonymous => false
  | .named s => !s.toList.isEmpty && s.toList.all fun c => c.isAlphanum || c = '_'

/-- Whether a name is one of a class: it starts with an upper-case letter. -/
def isClassName (n : Name) : Bool :=
  n.isIdentifier && n.text.toList.head?.any Char.isUpper

theorem text_inj {a b : Name} (ha : a.isIdentifier = true) (hb : b.isIdentifier = true)
    (hab : a.text = b.text) : a = b := by
  cases a with
  | anonymous => cases ha
  | named s =>
      cases b with
      | anonymous => cases hb
      | named t => exact congrArg named hab

theorem not_mem_text {n : Name} (hn : n.isIdentifier = true) {c : Char}
    (hc : (c.isAlphanum || c = '_') = false) : c ∉ n.text.toList := by
  cases n with
  | anonymous => cases hn
  | named s =>
      intro hmem
      simp only [isIdentifier, Bool.and_eq_true, List.all_eq_true] at hn
      have hall := hn.2 c hmem
      rw [hc] at hall
      cases hall

end Name

/-- Whether the name a node gives is an identifier, and starts with an upper-case letter if it is
the name of a class. -/
def Node.isNamed : Node → Bool
  | .classDecl c => c.name.isClassName
  | .method m => m.name.isIdentifier
  | .attr a => a.name.isIdentifier
  | .formal f => f.name.isIdentifier
  | .branch b => b.name.isIdentifier
  | .expr (.letIn _ x _ _ _) => x.isIdentifier
  | .program _ | .expr _ => true

namespace Lowering

/-! ## Numbers -/

/-- The number that digits are read as. -/
def readNat (digits : List Char) : Nat :=
  Nat.ofDigitChars 10 digits 0

theorem readNat_natRepr (n : Nat) : readNat (toString n).toList = n := by
  rw [readNat, Nat.toString_eq_repr, Nat.toList_repr]
  exact Nat.ofDigitChars_toDigits (by decide) (by decide)

theorem natRepr_injective {a b : Nat} (hab : toString a = toString b) : a = b := by
  rw [← readNat_natRepr a, hab, readNat_natRepr]

theorem not_mem_natRepr {n : Nat} {c : Char} (hc : c.isDigit = false) :
    c ∉ (toString n).toList := by
  rw [Nat.toString_eq_repr, Nat.toList_repr]
  intro hmem
  rw [Nat.isDigit_of_mem_toDigits (by decide) (by decide) hmem] at hc
  cases hc

theorem natRepr_ne {n : Nat} {w : String} (hw : w.toList.any (fun c => !c.isDigit) = true) :
    (toString n).toList ≠ w.toList := by
  intro heq
  obtain ⟨c, hc, hdigit⟩ := List.any_eq_true.mp hw
  exact not_mem_natRepr (by simpa using hdigit) (heq ▸ hc)

theorem intRepr_injective {a b : Int} (hab : toString a = toString b) : a = b := by
  have hminus : ∀ n k : Nat, n.repr ≠ "-" ++ k.repr := by
    intro n k heq
    have hmem : '-' ∈ (toString n).toList := by
      rw [Nat.toString_eq_repr, heq]
      simp
    exact not_mem_natRepr (by decide) hmem
  simp only [Int.toString_eq_repr, Int.repr_eq_if] at hab
  split at hab
  · split at hab
    · have hnat := natRepr_injective hab
      omega
    · exact absurd hab (hminus _ _)
  · split at hab
    · exact absurd hab.symm (hminus _ _)
    · have hnat := natRepr_injective ((String.append_right_inj "-").mp hab)
      omega

theorem not_mem_intRepr {c : Char} (hc : c.isDigit = false) (hminus : c ≠ '-') (n : Int) :
    c ∉ (toString n).toList := by
  simp only [Int.toString_eq_repr, Int.repr_eq_if]
  split
  · exact not_mem_natRepr hc
  · rw [String.toList_append, List.mem_append, not_or]
    exact ⟨fun hmem => hminus (List.mem_singleton.mp hmem), not_mem_natRepr hc⟩

theorem dot_not_mem_intRepr (n : Int) : '.' ∉ (toString n).toList :=
  not_mem_intRepr (by decide) (by decide) n

/-! ## Components -/

/-- The components of an identifier. -/
def components (x : String) : List (List Char) :=
  x.toList.splitOn '.'

theorem components_of_not_mem {x : String} (hx : '.' ∉ x.toList) : components x = [x.toList] :=
  List.splitOn_eq_singleton hx

theorem components_suffix (x : String) {y z : String} (hy : y = "." ++ z) :
    components (x ++ y) = components x ++ components z := by
  unfold components
  rw [hy, String.toList_append, String.toList_append]
  exact List.splitOn_append_cons_self _ _

theorem components_append (x y : String) :
    components (x ++ "." ++ y) = components x ++ components y := by
  rw [String.append_assoc, components_suffix x rfl]

theorem components_between (x y : String) {k z : String} (hk : k = "." ++ z ++ ".") :
    components (x ++ k ++ y) = components x ++ (components z ++ components y) := by
  have hassoc : x ++ k ++ y = x ++ ("." ++ (z ++ "." ++ y)) := by
    simp only [hk, String.append_assoc]
  rw [hassoc, components_suffix x rfl, components_append]

theorem components_natRepr (n : Nat) : components (toString n) = [(toString n).toList] :=
  components_of_not_mem (not_mem_natRepr (by decide))

theorem components_text {x : Name} (hx : x.isIdentifier = true) :
    components x.text = [x.text.toList] :=
  components_of_not_mem (Name.not_mem_text hx (by decide))

/-- The first component of the identifiers that belong to a class. -/
def classChars (c : Name) : List Char :=
  '$' :: c.text.toList

theorem classChars_inj {a b : Name} (ha : a.isIdentifier = true) (hb : b.isIdentifier = true)
    (hab : classChars a = classChars b) : a = b :=
  Name.text_inj ha hb (String.toList_inj.mp (List.cons.inj hab).2)

theorem components_class {c : Name} (hc : c.isIdentifier = true) :
    components ("$" ++ c.text) = [classChars c] := by
  rw [components_of_not_mem]
  · simp [classChars]
  · rw [String.toList_append, List.mem_append, not_or]
    exact ⟨by decide, Name.not_mem_text hc (by decide)⟩

/-! ## Functions -/

/-- What a function is to the class it belongs to. -/
inductive Role where
  | new
  | newVirtual
  | init
  | helper (x : String)
  | generic (method : Name)
  | implementation (method : Name)
  /-- Lifted from the binding with a number. -/
  | binding (i : Nat)
  /-- Lifted from the case with a number. -/
  | select (i : Nat)
  /-- Lifted from a branch of the case with a number. -/
  | branch (i j : Nat)
deriving DecidableEq

namespace Role

/-- The name of a function of a class. -/
def id (c : Name) : Role → String
  | new => newFunc c
  | newVirtual => newVirtualFunc c
  | init => initFunc c
  | helper x => "$" ++ c.text ++ ".helper." ++ x
  | generic x => "$" ++ c.text ++ "." ++ x.text ++ ".generic"
  | implementation x => perClassFunc c x
  | binding i => liftedId c "let" i
  | select i => liftedId c "case" i
  | branch i j => branchId (liftedId c "case" i) j

theorem branchId_eq {c : Name} {name : String} {k : Nat} (hname : name = liftedId c "case" k)
    (i : Nat) : branchId name i = (branch k i).id c :=
  congrArg (branchId · i) hname

/-- The number of the expression a function is lifted from. -/
def number? : Role → Option Nat
  | binding i | select i | branch i _ => some i
  | _ => none

/-- The components of the name of a function after its class. -/
def parts : Role → List (List Char)
  | new => ["new".toList]
  | newVirtual => ["new".toList, "virtual".toList]
  | init => ["init".toList]
  | helper x => ["helper".toList, x.toList]
  | generic x => [x.text.toList, "generic".toList]
  | implementation x => [x.text.toList, "implementation".toList]
  | binding i => ["let".toList, (toString i).toList]
  | select i => ["case".toList, (toString i).toList]
  | branch i j => ["case".toList, (toString i).toList, "branch".toList, (toString j).toList]

/-- The roles whose names can be told apart. -/
def Proper : Role → Prop
  | helper x => '.' ∉ x.toList ∧ x ≠ "virtual" ∧ x ≠ "generic" ∧ x ≠ "implementation"
  | generic x | implementation x => x.isIdentifier = true
  | _ => True

instance : DecidablePred Proper
  | helper _ => inferInstanceAs (Decidable (_ ∧ _))
  | generic _ | implementation _ => inferInstanceAs (Decidable (_ = _))
  | new | newVirtual | init | binding _ | select _ | branch _ _ => inferInstanceAs (Decidable True)

theorem components_id {c : Name} (hc : c.isIdentifier = true) {r : Role} (hr : r.Proper) :
    components (r.id c) = classChars c :: r.parts := by
  cases r with
  | new =>
      rw [id, newFunc, components_suffix _ (z := "new") (by decide), components_class hc]
      rfl
  | newVirtual =>
      rw [id, newVirtualFunc, components_suffix _ (z := "new.virtual") (by decide),
        components_class hc]
      rfl
  | init =>
      rw [id, initFunc, components_suffix _ (z := "init") (by decide), components_class hc]
      rfl
  | helper x =>
      rw [id, components_between _ _ (z := "helper") (by decide), components_class hc,
        components_of_not_mem hr.1]
      rfl
  | generic x =>
      rw [id, components_suffix _ (z := "generic") (by decide), components_append,
        components_class hc, components_text hr]
      rfl
  | implementation x =>
      rw [id, perClassFunc, components_suffix _ (z := "implementation") (by decide),
        components_append, components_class hc, components_text hr]
      rfl
  | binding i | select i =>
      rw [id, liftedId, components_append, components_append, components_class hc,
        components_natRepr]
      rfl
  | branch i j =>
      rw [id, branchId, components_between _ _ (z := "branch") (by decide), liftedId,
        components_append, components_append, components_class hc, components_natRepr,
        components_natRepr]
      rfl

/-- The role that the components of a name after its class are those of. -/
def ofParts : List (List Char) → Role
  | [x] => if x = "new".toList then new else init
  | [x, y] =>
      if y = "virtual".toList then newVirtual
      else if y = "generic".toList then generic (.named (.ofList x))
      else if y = "implementation".toList then implementation (.named (.ofList x))
      else if x = "let".toList then binding (readNat y)
      else if x = "case".toList then select (readNat y)
      else helper (.ofList y)
  | [_, x, _, y] => branch (readNat x) (readNat y)
  | _ => init

theorem ofParts_parts {r : Role} (hr : r.Proper) : ofParts r.parts = r := by
  have hnamed : ∀ x : Name, x.isIdentifier = true → .named (.ofList x.text.toList) = x := by
    intro x hx
    cases x with
    | anonymous => cases hx
    | named s => exact congrArg Name.named (String.ofList_toList)
  cases r with
  | new | newVirtual | init => rfl
  | helper x =>
      obtain ⟨-, hvirtual, hgeneric, himplementation⟩ := hr
      have hne : ∀ w, x ≠ w → x.toList ≠ w.toList := fun w hw heq => hw (String.toList_inj.mp heq)
      rw [parts, ofParts, if_neg (hne _ hvirtual), if_neg (hne _ hgeneric),
        if_neg (hne _ himplementation), if_neg (by decide), if_neg (by decide),
        String.ofList_toList]
  | generic x =>
      rw [parts, ofParts, if_neg (by decide), if_pos rfl, hnamed x hr]
  | implementation x =>
      rw [parts, ofParts, if_neg (by decide), if_neg (by decide), if_pos rfl, hnamed x hr]
  | binding i =>
      rw [parts, ofParts, if_neg (natRepr_ne (by decide)), if_neg (natRepr_ne (by decide)),
        if_neg (natRepr_ne (by decide)), if_pos rfl, readNat_natRepr]
  | select i =>
      rw [parts, ofParts, if_neg (natRepr_ne (by decide)), if_neg (natRepr_ne (by decide)),
        if_neg (natRepr_ne (by decide)), if_neg (by decide), if_pos rfl, readNat_natRepr]
  | branch i j => rw [parts, ofParts, readNat_natRepr, readNat_natRepr]

/-- The name of a function tells its class and its role. -/
theorem id_inj {c c' : Name} (hc : c.isIdentifier = true) (hc' : c'.isIdentifier = true)
    {r r' : Role} (hr : r.Proper) (hr' : r'.Proper) (h : r.id c = r'.id c') : c = c' ∧ r = r' := by
  have hcomponents := congrArg components h
  rw [components_id hc hr, components_id hc' hr'] at hcomponents
  obtain ⟨hclass, hparts⟩ := List.cons.inj hcomponents
  refine ⟨classChars_inj hc hc' hclass, ?_⟩
  rw [← ofParts_parts hr, hparts, ofParts_parts hr']

end Role

end Lowering

end Cool
