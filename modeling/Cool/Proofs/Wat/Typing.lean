import Cool.Proofs.Hierarchy.Validity
import Cool.Wat.Module
import Mathlib.Data.List.Forall2
import Mathlib.Logic.Relation

/-! When code is valid. An instruction takes its operands from the end of a list of types, the
operand stack, and puts its results there. A function is valid if its body, run from the empty
stack, leaves exactly what the function declares. -/

namespace Cool.Wat

def TypeDef.name : TypeDef → String
  | bytes name | func name _ _ | struct name _ _ => name

/-- The name under which functions see an import. -/
def Import.id : Import → String
  | tag _ id _ | func _ id _ => id

/-! ## What a module declares -/

namespace Module

variable (m : Module)

def Defines (t : String) : Prop :=
  ∃ d ∈ m.types, d.name = t

/-- Whether a type is declared as an extension of another. -/
def DeclaresSub (t u : String) : Prop :=
  ∃ fields, .struct t (some u) fields ∈ m.types

/-- Whether a type extends another, directly or through others. -/
def Extends : String → String → Prop :=
  Relation.ReflTransGen m.DeclaresSub

def HasStruct (t : String) (fields : List Field) : Prop :=
  ∃ super, .struct t super fields ∈ m.types

def HasGlobal (g : String) (t : ValType) : Prop :=
  ∃ d ∈ m.globals, d.name = g ∧ d.type = t

/-- Whether a function of the given name and type is defined or imported. -/
def HasFunc (f : String) (params results : List ValType) : Prop :=
  (∃ d ∈ m.funcs, d.name = f ∧ d.params.map (·.2) = params ∧ d.results = results) ∨
    ((∃ field, .func field f params ∈ m.imports) ∧ results = [])

def HasTag (x : String) (params : List ValType) : Prop :=
  ∃ field, .tag field x params ∈ m.imports

/-- Whether the type of a value refers to a defined type. -/
def HasValType : ValType → Prop
  | .i32 => True
  | .ref _ t => m.Defines t

/-- Whether each name stands for one thing: among the types, the globals, the functions and the
fields of every object type. -/
structure NamesDistinct : Prop where
  types : (m.types.map (·.name)).Nodup
  globals : (m.globals.map (·.name)).Nodup
  funcs : (m.imports.map (·.id) ++ m.funcs.map (·.name)).Nodup
  fields : ∀ t fields, m.HasStruct t fields → (fields.map (·.name)).Nodup

end Module

/-! ## Looking things up -/

namespace Module

def type? (m : Module) (t : String) : Option TypeDef :=
  m.types.find? (·.name = t)

def global? (m : Module) (g : String) : Option Global :=
  m.globals.find? (·.name = g)

/-- The definitions of a function. -/
def definitions (m : Module) (f : String) : List Func :=
  m.funcs.filter (·.name = f)

variable {m : Module} (hm : m.NamesDistinct)

include hm

theorem NamesDistinct.type?_of_mem {t : TypeDef} (ht : t ∈ m.types) : m.type? t.name = some t :=
  find?_of_nodup_map hm.types ht

theorem NamesDistinct.global?_of_mem {g : Global} (hg : g ∈ m.globals) :
    m.global? g.name = some g :=
  find?_of_nodup_map hm.globals hg

theorem NamesDistinct.definitions_of_mem {f : Func} (hf : f ∈ m.funcs) :
    m.definitions f.name = [f] :=
  filter_of_nodup_map (List.nodup_append'.mp hm.funcs).2.1 hf

end Module

/-! ## Types of values -/

/-- A value of one type may stand where another is needed: a reference may be known not to be null,
and may be to an extension. -/
inductive Subtype (m : Module) : ValType → ValType → Prop where
  | i32 : Subtype m .i32 .i32
  | ref {n n' t t'} : (n' = false → n = false) → m.Extends t t' →
      Subtype m (.ref n t) (.ref n' t')

abbrev Subtypes (m : Module) : List ValType → List ValType → Prop :=
  List.Forall₂ (Subtype m)

/-! ## Instructions -/

/-- What the code of a function refers to: the module, and its parameters and locals. -/
structure CodeContext where
  module : Module
  locals : List (String × ValType)

/-- The labels in scope, the innermost first, with what a branch to them takes along. -/
abbrev Labels := List (String × List ValType)

/-- What an instruction takes and leaves. -/
inductive OpType (Γ : CodeContext) : Op → List ValType → List ValType → Prop where
  | localGet {x t} : (x, t) ∈ Γ.locals → OpType Γ (.localGet x) [] [t]
  | localSet {x t} : (x, t) ∈ Γ.locals → OpType Γ (.localSet x) [t] []
  | localTee {x t} : (x, t) ∈ Γ.locals → OpType Γ (.localTee x) [t] [t]
  | globalGet {g t} : Γ.module.HasGlobal g t → OpType Γ (.globalGet g) [] [t]
  | call {f params results} : Γ.module.HasFunc f params results →
      OpType Γ (.call f) params results
  | callRef {t params results} : .func t params results ∈ Γ.module.types →
      OpType Γ (.callRef t) (params ++ [.ref true t]) results
  | structNew {t fields} : Γ.module.HasStruct t fields →
      OpType Γ (.structNew t) (fields.map (·.type)) [.ref false t]
  | structGet {t fields f} : Γ.module.HasStruct t fields → f ∈ fields →
      OpType Γ (.structGet t f.name) [.ref true t] [f.type]
  | structSet {t fields f} : Γ.module.HasStruct t fields → f ∈ fields → f.isMutable = true →
      OpType Γ (.structSet t f.name) [.ref true t, f.type] []
  | refNull {t} : Γ.module.Defines t → OpType Γ (.refNull t) [] [.ref true t]
  | refCast {n t source} : Γ.module.Defines t → Subtype Γ.module (.ref n t) source →
      OpType Γ (.refCast (.ref n t)) [source] [.ref n t]
  | refTest {n t source} : Γ.module.Defines t → Subtype Γ.module (.ref n t) source →
      OpType Γ (.refTest (.ref n t)) [source] [.i32]
  | refIsNull {t} : OpType Γ .refIsNull [.ref true t] [.i32]
  | refAsNonNull {t} : OpType Γ .refAsNonNull [.ref true t] [.ref false t]
  | const {n} : OpType Γ (.const n) [] [.i32]
  | eqz : OpType Γ .eqz [.i32] [.i32]
  | integers {op} : op ∈ [Op.add, .sub, .mul, .divS, .ltS, .leS, .eq] →
      OpType Γ op [.i32, .i32] [.i32]
  | drop {t} : OpType Γ .drop [t] []

/-- What an instruction takes that never goes on to the next one. -/
inductive LeavesType (Γ : CodeContext) (labels : Labels) : Op → List ValType → Prop where
  | br {l ts} : labels.lookup l = some ts → LeavesType Γ labels (.br l) ts
  | throw {x params} : Γ.module.HasTag x params → LeavesType Γ labels (.throw x) params

mutual

/-- How an instruction changes the operand stack. -/
inductive Types (Γ : CodeContext) :
    Labels → Instr → List ValType → List ValType → Prop where
  | plain {labels op operands ts base found needed given} :
      TypesAll Γ labels operands ts (base ++ found) → OpType Γ op needed given →
      Subtypes Γ.module found needed →
      Types Γ labels (.plain op operands) ts (base ++ given)
  | brIf {labels l operands ts base found needed} :
      TypesAll Γ labels operands ts (base ++ found ++ [.i32]) →
      labels.lookup l = some needed → Subtypes Γ.module found needed →
      Types Γ labels (.plain (.brIf l) operands) ts (base ++ needed)
  | leaves {labels op operands ts base found needed us} :
      TypesAll Γ labels operands ts (base ++ found) → LeavesType Γ labels op needed →
      Subtypes Γ.module found needed →
      Types Γ labels (.plain op operands) ts us
  | whenTrue {labels test body ts base} :
      TypesAll Γ labels [test] ts (base ++ [.i32]) → TypesAll Γ labels body [] [] →
      Types Γ labels (.whenTrue test body) ts base
  | ifElse {labels result onTrue onFalse base} :
      Γ.module.HasValType result → TypesAll Γ labels onTrue [] [result] →
      TypesAll Γ labels onFalse [] [result] →
      Types Γ labels (.ifElse result onTrue onFalse) (base ++ [.i32]) (base ++ [result])
  | block {labels label results body ts} :
      (∀ t ∈ results, Γ.module.HasValType t) →
      TypesAll Γ ((label, results) :: labels) body [] results →
      Types Γ labels (.block label results body) ts (ts ++ results)
  | loop {labels label body ts} :
      TypesAll Γ ((label, []) :: labels) body [] [] →
      Types Γ labels (.loop label body) ts ts

/-- How instructions change the operand stack one after the other. -/
inductive TypesAll (Γ : CodeContext) :
    Labels → List Instr → List ValType → List ValType → Prop where
  | nil {labels ts us} : Subtypes Γ.module ts us → TypesAll Γ labels [] ts us
  | cons {labels i is ts us vs} : Types Γ labels i ts us → TypesAll Γ labels is us vs →
      TypesAll Γ labels (i :: is) ts vs

end

/-- When a function is valid in a module. Its locals start with a default value, so each must be of
a type that has one. -/
structure Func.Valid (m : Module) (f : Func) : Prop where
  slots_nodup : ((f.params ++ f.locals).map (·.1)).Nodup
  slots_defined : ∀ s ∈ f.params ++ f.locals, m.HasValType s.2
  results_defined : ∀ t ∈ f.results, m.HasValType t
  locals_default : ∀ s ∈ f.locals, ∀ t, s.2 ≠ .ref false t
  signature_matches : ∀ t, f.signature = some t →
    .func t (f.params.map (·.2)) f.results ∈ m.types
  body_typed : TypesAll ⟨m, f.params ++ f.locals⟩ [] f.body [] f.results

/-! ## Subtyping -/

section

variable {m : Module}

theorem Subtype.refl (t : ValType) : Subtype m t t := by
  cases t with
  | i32 => exact .i32
  | ref n t => exact .ref id .refl

theorem Subtype.trans {t u v : ValType} (htu : Subtype m t u) (huv : Subtype m u v) :
    Subtype m t v := by
  cases htu with
  | i32 => exact huv
  | ref hn ht =>
      cases huv with
      | ref hn' ht' => exact .ref (fun h => hn (hn' h)) (ht.trans ht')

theorem Subtypes.refl (ts : List ValType) : Subtypes m ts ts :=
  List.forall₂_same.mpr fun t _ => .refl t

theorem Subtypes.trans {ts us vs : List ValType} (htu : Subtypes m ts us)
    (huv : Subtypes m us vs) : Subtypes m ts vs := by
  induction htu generalizing vs with
  | nil => exact huv
  | cons htu _ ih =>
      cases huv with
      | cons huv hrest => exact .cons (htu.trans huv) (ih hrest)

theorem Subtypes.append {ts us ts' us' : List ValType} (h : Subtypes m ts us)
    (h' : Subtypes m ts' us') : Subtypes m (ts ++ ts') (us ++ us') :=
  List.rel_append h h'

theorem Subtypes.split {base rest ts : List ValType} (h : Subtypes m ts (base ++ rest)) :
    ∃ base' rest', ts = base' ++ rest' ∧ Subtypes m base' base ∧ Subtypes m rest' rest := by
  induction base generalizing ts with
  | nil => exact ⟨[], ts, rfl, .nil, h⟩
  | cons t base ih =>
      cases h with
      | @cons u _ us _ hut hrest =>
          obtain ⟨base', rest', rfl, hbase, hrest⟩ := ih hrest
          exact ⟨u :: base', rest', rfl, .cons hut hbase, hrest⟩

theorem Subtypes.singleton {t u : ValType} (h : Subtype m t u) : Subtypes m [t] [u] :=
  .cons h .nil

end

/-! ## Stacks -/

section

variable {Γ : CodeContext}

mutual

/-- What lies below the operands of an instruction stays as it is. -/
theorem Types.frame (base : List ValType) : ∀ {labels : Labels} {i : Instr} {ts us : List ValType},
    Types Γ labels i ts us → Types Γ labels i (base ++ ts) (base ++ us)
  | _, _, _, _, .plain hoperands hop hsub => by
      have hframe := TypesAll.frame base hoperands
      rw [← List.append_assoc] at hframe ⊢
      exact .plain hframe hop hsub
  | _, _, _, _, .brIf hoperands hlabel hsub => by
      have hframe := TypesAll.frame base hoperands
      rw [← List.append_assoc, ← List.append_assoc] at hframe
      rw [← List.append_assoc]
      exact .brIf hframe hlabel hsub
  | _, _, _, _, .leaves hoperands hop hsub => by
      have hframe := TypesAll.frame base hoperands
      rw [← List.append_assoc] at hframe
      exact .leaves hframe hop hsub
  | _, _, _, _, .whenTrue htest hbody => by
      have hframe := TypesAll.frame base htest
      rw [← List.append_assoc] at hframe
      exact .whenTrue hframe hbody
  | _, _, _, _, .ifElse hresult htrue hfalse => by
      rw [← List.append_assoc, ← List.append_assoc]
      exact .ifElse hresult htrue hfalse
  | _, _, _, _, .block hresults hbody => by
      rw [← List.append_assoc]
      exact .block hresults hbody
  | _, _, _, _, .loop hbody => .loop hbody

theorem TypesAll.frame (base : List ValType) :
    ∀ {labels : Labels} {is : List Instr} {ts us : List ValType},
      TypesAll Γ labels is ts us → TypesAll Γ labels is (base ++ ts) (base ++ us)
  | _, _, _, _, .nil hsub => .nil ((Subtypes.refl base).append hsub)
  | _, _, _, _, .cons hi his => .cons (hi.frame base) (his.frame base)

end

mutual

/-- An instruction may be given subtypes of the operands it was checked with. -/
theorem Types.weaken : ∀ {labels : Labels} {i : Instr} {ts us ts' : List ValType},
    Types Γ labels i ts us → Subtypes Γ.module ts' ts →
    ∃ us', Types Γ labels i ts' us' ∧ Subtypes Γ.module us' us
  | _, _, _, _, _, .plain hoperands hop hsub, h =>
      ⟨_, .plain (hoperands.weaken h) hop hsub, .refl _⟩
  | _, _, _, _, _, .brIf hoperands hlabel hsub, h =>
      ⟨_, .brIf (hoperands.weaken h) hlabel hsub, .refl _⟩
  | _, _, _, _, _, .leaves hoperands hop hsub, h =>
      ⟨_, .leaves (hoperands.weaken h) hop hsub, .refl _⟩
  | _, _, _, _, _, .whenTrue htest hbody, h => ⟨_, .whenTrue (htest.weaken h) hbody, .refl _⟩
  | _, _, _, _, _, .ifElse hresult htrue hfalse, h => by
      obtain ⟨base', rest, rfl, hbase, hrest⟩ := h.split
      cases hrest with
      | cons htest hnil =>
          cases htest
          cases hnil
          exact ⟨_, .ifElse hresult htrue hfalse, hbase.append (.refl _)⟩
  | _, _, _, _, _, .block hresults hbody, h =>
      ⟨_, .block hresults hbody, h.append (.refl _)⟩
  | _, _, _, _, _, .loop hbody, h => ⟨_, .loop hbody, h⟩

theorem TypesAll.weaken : ∀ {labels : Labels} {is : List Instr} {ts us ts' : List ValType},
    TypesAll Γ labels is ts us → Subtypes Γ.module ts' ts → TypesAll Γ labels is ts' us
  | _, _, _, _, _, .nil hsub, h => .nil (h.trans hsub)
  | _, _, _, _, _, .cons hi his, h => by
      obtain ⟨us', hi', hus⟩ := hi.weaken h
      exact .cons hi' (his.weaken hus)

end

theorem TypesAll.append {labels : Labels} {is js : List Instr} {ts us vs : List ValType}
    (his : TypesAll Γ labels is ts us) (hjs : TypesAll Γ labels js us vs) :
    TypesAll Γ labels (is ++ js) ts vs := by
  induction is generalizing ts with
  | nil =>
      cases his with
      | nil hsub => exact hjs.weaken hsub
  | cons i is ih =>
      cases his with
      | cons hi his => exact .cons hi (ih his)

/-! ## Code that may stand under any labels -/

/-- How code that leaves through no label from outside changes the operand stack. -/
def CodeContext.Runs (Γ : CodeContext) (is : List Instr) (ts us : List ValType) : Prop :=
  ∀ labels, TypesAll Γ labels is ts us

namespace CodeContext.Runs

variable {is js : List Instr} {ts us vs found needed given : List ValType} {o : Op}

theorem nil (ts : List ValType) : Γ.Runs [] ts ts :=
  fun _ => .nil (.refl ts)

theorem append (his : Γ.Runs is ts us) (hjs : Γ.Runs js us vs) : Γ.Runs (is ++ js) ts vs :=
  fun labels => (his labels).append (hjs labels)

theorem cons {i : Instr} (hi : Γ.Runs [i] ts us) (his : Γ.Runs is us vs) :
    Γ.Runs (i :: is) ts vs :=
  hi.append his

theorem frame (his : Γ.Runs is ts us) (base : List ValType) :
    Γ.Runs is (base ++ ts) (base ++ us) :=
  fun labels => (his labels).frame base

/-- Code that starts from the empty stack puts its results on any other. -/
theorem push (his : Γ.Runs is [] us) (base : List ValType) : Γ.Runs is base (base ++ us) := by
  have hframe := his.frame base
  rwa [List.append_nil] at hframe

theorem subsume (his : Γ.Runs is ts us) (hsub : Subtypes Γ.module us vs) : Γ.Runs is ts vs := by
  have hnil : Γ.Runs [] us vs := fun _ => .nil hsub
  have happend := his.append hnil
  rwa [List.append_nil] at happend

/-- An instruction with its operands written inside it. -/
theorem folded {operands : List Instr} (hoperands : Γ.Runs operands ts found)
    (hop : OpType Γ o needed given) (hsub : Subtypes Γ.module found needed) :
    Γ.Runs [.plain o operands] ts given := by
  intro labels
  have htypes : Types Γ labels (.plain o operands) ts ([] ++ given) :=
    .plain (hoperands labels) hop hsub
  exact .cons htypes (.nil (.refl _))

/-- An instruction whose operands are on the stack. -/
theorem op (hop : OpType Γ o needed given) (hsub : Subtypes Γ.module found needed) :
    Γ.Runs [.plain o []] found given :=
  .folded (.nil _) hop hsub

theorem getLocal {x : String} {t : ValType} (hx : (x, t) ∈ Γ.locals) :
    Γ.Runs [getLocal x] [] [t] :=
  .op (.localGet hx) .nil

theorem const (n : Int32) : Γ.Runs [const n] [] [.i32] :=
  .op .const .nil

/-- Instructions that each put one value on the stack. -/
theorem pushes {ts : List ValType} (his : List.Forall₂ (fun i t => Γ.Runs [i] [] [t]) is ts) :
    Γ.Runs is [] ts := by
  induction his with
  | nil => exact .nil []
  | cons hi _ ih => exact hi.cons (ih.push [_])

theorem pushes_map {α : Type} {as : List α} {f : α → Instr} {t : α → ValType}
    (has : ∀ a ∈ as, Γ.Runs [f a] [] [t a]) : Γ.Runs (as.map f) [] (as.map t) := by
  refine pushes ?_
  rw [List.forall₂_map_left_iff, List.forall₂_map_right_iff, List.forall₂_same]
  exact has

theorem ifElse {result : ValType} {onTrue onFalse : List Instr}
    (hresult : Γ.module.HasValType result) (htrue : Γ.Runs onTrue [] [result])
    (hfalse : Γ.Runs onFalse [] [result]) :
    Γ.Runs [.ifElse result onTrue onFalse] [.i32] [result] := by
  intro labels
  have hif : Types Γ labels (.ifElse result onTrue onFalse) ([] ++ [.i32]) ([] ++ [result]) :=
    .ifElse hresult (htrue labels) (hfalse labels)
  exact .cons hif (.nil (.refl _))

end CodeContext.Runs

end

end Cool.Wat
