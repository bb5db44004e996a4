import Cool.Lowering.Expr
import Mathlib.Tactic.Tauto

/-! Lowering in the forms its callers use: one equation for each way a variable is read, and for
each kind of operator. -/

namespace Cool.Lowering

open Wat

namespace Site

variable {site : Site}

theorem binding_of_lookup {x : Name} {b : Binding} (hb : site.scope.lookup x = some b) :
    site.binding x = .ok b := by
  rw [Site.binding, hb]

theorem read_self : site.read .self = .ok ⟨[getLocal selfLocal], site.current⟩ :=
  rfl

theorem read_field {x t c : Name} (hx : x ≠ .self)
    (hb : site.scope.lookup x = some ⟨.field, t⟩) (hc : site.attributeClass x = .ok c) :
    site.read x = .ok ⟨[getLocal selfLocal,
      .plain (.structGet (classType site.current) (fieldId x)) []], c⟩ := by
  rw [Site.read, if_neg hx, binding_of_lookup hb]
  change (site.attributeClass x >>= fun c => _) = _
  rw [hc]
  rfl

theorem read_local {x t : Name} (hx : x ≠ .self)
    (hb : site.scope.lookup x = some ⟨.local, t⟩) :
    site.read x = (site.layout t).map fun c => ⟨[getLocal (localId x)], c⟩ := by
  rw [Site.read, if_neg hx, binding_of_lookup hb]
  change (site.layout t >>= fun c => _) = _
  cases site.layout t with
  | ok c => rfl
  | error f => rfl

/-- The code that compares two values of a type: by content if it is a builtin one. -/
def equality (site : Site) (t : Name) (l r : Code) : Code :=
  if t = .int ∨ t = .bool then boxed (site.unboxed t l ++ site.unboxed t r ++ [.plain .eq []]) .bool
  else if t = .string then
    boxed (site.coerced t l ++ site.coerced t r ++ [.plain (.call stringEqualsFunc) []]) .bool
  else boxed (l.instrs ++ r.instrs ++ [.plain (.call objectEqualsFunc) []]) .bool

/-- The code of an operator on two integers. -/
def integerCode (site : Site) (op : BinaryOp) (instr : Op) (l r : Code) : Code :=
  boxed (site.unboxed .int l ++ site.unboxed .int r ++ [.plain instr []])
    (if op.isArithmetic then .int else .bool)

end Site

variable {site : Site}

theorem lower_equality (m : Mark) (left right : Expr) :
    lower site (.binary m .eq left right) = (do
      let t ← typeOf left
      let l ← lower site left
      let r ← lower site right
      return site.equality t l r) := by
  rw [lower]
  unfold Site.equality
  congr
  funext t
  congr
  funext l
  congr
  funext r
  split
  · rfl
  · split
    · rfl
    · rfl

theorem lower_integer {op : BinaryOp} {instr : Op} (hop : integerOp? op = some instr) (m : Mark)
    (left right : Expr) :
    lower site (.binary m op left right) = (do
      let l ← lower site left
      let r ← lower site right
      return site.integerCode op instr l r) := by
  have hne : op ≠ .eq := by
    rintro rfl
    cases hop
  rw [lower, hop]
  · rfl
  · exact hne
  · rintro i rfl
    cases hop

theorem type_of_typeOf {e : Expr} {t : Name} (h : typeOf e = .ok t) : e.type = t := by
  unfold typeOf at h
  split at h
  · cases h
  · exact Except.ok.inj h

/-- The value a variable starts with. -/
def initial (site : Site) (type declared : Name) (init : Expr) : Lower (List Instr) :=
  if init.isAbsent then List.singleton <$> liftM (site.defaultValue type)
  else site.coerced declared <$> lower site init

theorem lower_let (m : Mark) (x type : Name) (init body : Expr) :
    lower site (.letIn m x type init body) = (do
      let declared ← site.layout type
      let first ← initial site type declared init
      let tmp ← freshTemp (valueType declared)
      let name ← liftedName site.current "let"
      let value ← site.layout m.type
      let back ← site.liftBinding name x type value
        ((site.bind x type).coerced value <$> lower (site.bind x type) body)
      noteAssigned (back.map (·.1))
      return ⟨first ++ [.plain (.localSet tmp) []] ++ site.liftedArgs x type (getLocal tmp) ++
        callLifted name back, value⟩) := by
  rw [lower]
  unfold initial
  congr
  funext declared
  split
  · rfl
  · rfl

/-- The branches of a case in the form in which they are ordered and lifted. -/
def armOf (site : Site) (value : Name) (b : Branch) : Arm :=
  ⟨b.name, b.type, (site.bind b.name b.type).coerced value <$>
    lower (site.bind b.name b.type) b.body⟩

theorem lowerBranches_eq_map (value : Name) (bs : List Branch) :
    lowerBranches site value bs = bs.map (armOf site value) := by
  induction bs with
  | nil => rw [lowerBranches, List.map_nil]
  | cons b bs ih =>
      obtain ⟨span, x, guard, body⟩ := b
      rw [lowerBranches, ih]
      rfl

/-! ## Branches in order -/

theorem mem_insertByDepth {α : Type} {depth : α → Nat} {a b : α} {as : List α} :
    b ∈ insertByDepth depth a as ↔ b = a ∨ b ∈ as := by
  induction as with
  | nil => simp [insertByDepth]
  | cons c as ih =>
      rw [insertByDepth]
      split
      · rw [List.mem_cons]
      · rw [List.mem_cons, ih, List.mem_cons]
        tauto

theorem mem_deepestFirst {α : Type} {depth : α → Nat} {b : α} {as : List α} :
    b ∈ deepestFirst depth as ↔ b ∈ as := by
  induction as with
  | nil => rfl
  | cons a as ih => rw [deepestFirst, mem_insertByDepth, ih, List.mem_cons]

theorem insertByDepth_map {α β : Type} (depth : β → Nat) (f : α → β) (a : α) (as : List α) :
    insertByDepth depth (f a) (as.map f) = (insertByDepth (fun a => depth (f a)) a as).map f := by
  induction as with
  | nil => rfl
  | cons b as ih =>
      rw [List.map_cons, insertByDepth, insertByDepth]
      split
      · rfl
      · rw [ih, List.map_cons]

theorem deepestFirst_map {α β : Type} (depth : β → Nat) (f : α → β) (as : List α) :
    deepestFirst depth (as.map f) = (deepestFirst (fun a => depth (f a)) as).map f := by
  induction as with
  | nil => rfl
  | cons a as ih => rw [List.map_cons, deepestFirst, deepestFirst, ih, insertByDepth_map]

theorem armOrder_lowerBranches (h : Hierarchy) (value : Name) (bs : List Branch) :
    armOrder h (lowerBranches site value bs) =
      (deepestFirst (fun b => h.depth b.type) bs).map (armOf site value) := by
  rw [armOrder, lowerBranches_eq_map, deepestFirst_map]
  rfl

end Cool.Lowering
