import Cool.Proofs.Lowering.Emission
import Cool.Proofs.Lowering.Growth

/-! Which functions a class has. Emitting them is put as a relation, with one rule for each feature,
and the functions it adds are told by their roles. -/

namespace Cool.Lowering

open Wat

/-! ## Steps -/

def Progress.emittingAll (s : Progress) (fs : List Func) : Progress :=
  { s with funcs := s.funcs ++ fs }

theorem emitAll_bind {β : Type} {s : Progress} {fs : List Func} {f : Unit → Lower β} :
    (emitAll fs >>= f) s = f () (s.emittingAll fs) :=
  rfl

theorem lowerAs_eq_ok {site : Site} {want : Name} {e : Expr} {s s' : Progress}
    {instrs : List Instr} (h : lowerAs site want e s = .ok (instrs, s')) :
    ∃ code, Lowers site e s code s' ∧ instrs = site.coerced want code := by
  obtain ⟨code, hcode, rfl⟩ := map_eq_ok.mp h
  exact ⟨code, Lowers.of_ok e hcode, rfl⟩

/-! ## Allocators -/

def newFunction (c : Name) (locals : List (String × ValType)) (body : List Instr) : Func where
  name := newFunc c
  exported := true
  results := [objectType c]
  locals := locals
  body := body

/-- The allocators of a class: one that gives a constant, and one that fills an object with the
values its attributes start with. -/
inductive Allocates (site : Site) (c : Name) : Func → Prop where
  | primitive {i} (hprim : c.isPrimitive = true) (hi : site.Defaults c i) :
      Allocates site c (newFunction c [] [i])
  | object {fields} (hprim : c.isPrimitive = false)
      (hfields : List.Forall₂ (fun a i => site.Defaults (attributeLayout a) i)
        (site.members.attributes c c) fields) :
      Allocates site c (newFunction c [("$o", valueType c)]
        [.plain (.localSet "$o")
            [.plain (.structNew (classType c))
              (.plain (.globalGet (tableGlobal c)) [] :: fields)],
          .plain (.call (initFunc c)) [getLocal "$o"],
          .plain .refAsNonNull [getLocal "$o"]])

theorem Allocates.of_ok {site : Site} {c : Name} {f : Func} (h : site.newDefinition c = .ok f) :
    Allocates site c f := by
  unfold Site.newDefinition at h
  split at h
  · rename_i hprim
    obtain ⟨i, hi, h⟩ := except_bind_eq_ok.mp h
    cases h
    exact .primitive hprim (.of_ok hi)
  · rename_i hprim
    obtain ⟨fields, hfields, h⟩ := except_bind_eq_ok.mp h
    cases h
    exact .object (by simpa using hprim) ((mapM_eq_ok_iff.mp hfields).imp fun _ _ => .of_ok)

theorem Allocates.name_eq {site : Site} {c : Name} {f : Func} (h : Allocates site c f) :
    f.name = Role.new.id c := by
  cases h <;> rfl

/-! ## Copying and naming -/

/-- Copies an object of a class, in the slot of a method. -/
def copyFunction (ms : Members) (c : Name) (slot : MethodEntry) : Func where
  name := perClassFunc c .copy
  signature := some slot.signatureId
  params := [(selfLocal, valueType .object)]
  results := [valueType .object]
  locals := [("$o", valueType c)]
  body :=
    [.plain (.localSet "$o") [.plain (.refCast (objectType c)) [getLocal selfLocal]],
      .plain (.structNew (classType c))
        ((objectFields c (ms.attributes c c)).map fun f =>
          .plain (.structGet (classType c) f.name) [getLocal "$o"])]

/-- Names a class, in the slot of a method. -/
def typeNameFunction (c : Name) (slot : MethodEntry) (text : String) : Func where
  name := perClassFunc c .typeName
  signature := some slot.signatureId
  params := [(selfLocal, valueType .object)]
  results := [valueType .string]
  body := [.plain (.globalGet text) []]

/-- The bodies of the methods that every class has its own version of. -/
inductive HasOwnBody (site : Site) (c : Name) (m : MethodEntry) : Func → Prop where
  | copy {slot} (hm : m.name = .copy)
      (hslot : site.members.method? .object .copy .object = some slot) :
      HasOwnBody site c m (copyFunction site.members c slot)
  | typeName {slot text} (hm : m.name = .typeName)
      (hslot : site.members.method? .object .typeName .object = some slot)
      (htext : site.pool.text c.text = .ok text) :
      HasOwnBody site c m (typeNameFunction c slot text)

theorem HasOwnBody.of_ok {site : Site} {c : Name} {m : MethodEntry} {f : Func}
    (hm : isPerClass m = true)
    (h : (if m.name = .copy then site.copyDefinition c else site.typeNameDefinition c) = .ok f) :
    HasOwnBody site c m f := by
  split at h
  · rename_i hcopy
    unfold Site.copyDefinition at h
    split at h
    · cases h
    · rename_i slot hslot
      cases h
      exact .copy hcopy hslot
  · rename_i hcopy
    have hname : m.name = .typeName := (of_decide_eq_true hm).1.resolve_left hcopy
    unfold Site.typeNameDefinition at h
    split at h
    · cases h
    · rename_i slot hslot
      obtain ⟨text, htext, h⟩ := except_bind_eq_ok.mp h
      cases h
      exact .typeName hname hslot htext

theorem HasOwnBody.name_eq {site : Site} {c : Name} {m : MethodEntry} {f : Func}
    (h : HasOwnBody site c m f) : f.name = (Role.implementation m.name).id c := by
  cases h with
  | copy hm => rw [hm]; rfl
  | typeName hm => rw [hm]; rfl

/-- The methods of a class that it has its own version of. -/
def perClassMethods (ms : Members) (c : Name) : List MethodEntry :=
  (ms.methods c c).filter isPerClass

theorem perClassDefinitions_eq_ok {site : Site} {c : Name} {own : List Func}
    (h : site.perClassDefinitions c = .ok own) :
    List.Forall₂ (HasOwnBody site c) (perClassMethods site.members c) own := by
  have hmem : ∀ m ∈ perClassMethods site.members c, isPerClass m = true :=
    fun m hm => (List.mem_filter.mp hm).2
  rw [Site.perClassDefinitions, ← perClassMethods, mapM_eq_ok_iff] at h
  generalize perClassMethods site.members c = methods at h hmem
  induction h with
  | nil => exact .nil
  | cons hf _ ih =>
      obtain ⟨hm, hrest⟩ := List.forall_mem_cons.mp hmem
      exact .cons (.of_ok hm hf) (ih hrest)

/-! ## Initializers -/

/-- The code of the initializers among features. -/
inductive Initializes (site : Site) : List Feature → Progress → List Instr → Progress → Prop where
  | nil {s} : Initializes site [] s [] s
  | method {m rest instrs s s'} (hrest : Initializes site rest s instrs s') :
      Initializes site (.method m :: rest) s instrs s'
  | absent {a rest instrs s s'} (ha : a.init.isAbsent = true)
      (hrest : Initializes site rest s instrs s') :
      Initializes site (.attr a :: rest) s instrs s'
  | attr {a rest want code others s s₁ s₂} (ha : a.init.isAbsent = false)
      (hwant : site.attributeClass a.name = .ok want) (hinit : Lowers site a.init s code s₁)
      (hrest : Initializes site rest s₁ others s₂) :
      Initializes site (.attr a :: rest) s
        (getLocal selfLocal :: site.coerced want code ++
          .plain (.structSet (classType site.current) (fieldId a.name)) [] :: others) s₂

theorem Initializes.of_ok {site : Site} {fs : List Feature} {s s' : Progress}
    {instrs : List Instr} (h : site.initializers fs s = .ok (instrs, s')) :
    Initializes site fs s instrs s' := by
  induction fs generalizing s instrs with
  | nil =>
      obtain ⟨rfl, rfl⟩ := pure_eq_ok.mp h
      exact .nil
  | cons f fs ih =>
      cases f with
      | method m => exact .method (ih h)
      | attr a =>
          rw [Site.initializers] at h
          split at h
          · rename_i ha
            exact .absent ha (ih h)
          · rename_i ha
            obtain ⟨want, hwant, h⟩ := lift_bind_eq_ok.mp h
            obtain ⟨_, s₁, hinit, h⟩ := bind_eq_ok.mp h
            obtain ⟨code, hcode, rfl⟩ := lowerAs_eq_ok hinit
            obtain ⟨others, s₂, hrest, h⟩ := bind_eq_ok.mp h
            obtain ⟨rfl, rfl⟩ := pure_eq_ok.mp h
            exact .attr (by simpa using ha) hwant hcode (ih hrest)

/-- The call of the initializer of the parent. -/
def Site.initParent (site : Site) : List Instr :=
  match site.members.hierarchy.parent? site.current with
  | some p => [.plain (.call (initFunc p)) [getLocal selfLocal]]
  | none => []

def Site.initDefinition (site : Site) (locals : List (String × ValType)) (own : List Instr) :
    Func where
  name := initFunc site.current
  params := [(selfLocal, valueType site.current)]
  locals := locals
  body := site.initParent ++ own

/-- The initializer of a class, if it has one. -/
inductive EmitsInit (site : Site) (fs : List Feature) : Progress → Progress → Prop where
  | primitive {s} (hprim : site.current.isPrimitive = true) : EmitsInit site fs s s
  | object {own s s₁} (hprim : site.current.isPrimitive = false)
      (hown : Initializes site fs (s.inFrame {}) own s₁) :
      EmitsInit site fs s
        ((s₁.inFrame s.frame).emitting (site.initDefinition s₁.frame.locals own))

theorem EmitsInit.of_ok {site : Site} {fs : List Feature} {s s' : Progress}
    (h : site.emitInitIfAny fs s = .ok ((), s')) : EmitsInit site fs s s' := by
  unfold Site.emitInitIfAny at h
  split at h
  · rename_i hprim
    obtain ⟨-, rfl⟩ := pure_eq_ok.mp h
    exact .primitive hprim
  · rename_i hprim
    obtain ⟨⟨own, frame⟩, s₂, hframe, h⟩ := bind_eq_ok.mp h
    obtain ⟨s₁, hown, rfl, rfl⟩ := inFrame_eq_ok.mp hframe
    cases h
    exact .object (by simpa using hprim) (.of_ok hown)

/-! ## Methods -/

section

variable (site : Site) (entry : MethodEntry)

/-- How the function of a method receives its receiver. -/
def Site.receiver : String × ValType :=
  if entry.intro = site.current then (selfLocal, valueType site.current)
  else (receiverLocal, valueType entry.intro)

/-- The local for the receiver once it is narrowed. -/
def Site.narrowed : List (String × ValType) :=
  if entry.intro = site.current then [] else [(selfLocal, valueType site.current)]

def Site.narrow : List Instr :=
  if entry.intro = site.current then []
  else
    [.plain (.localSet selfLocal)
      [.plain (.refCast (valueType site.current)) [getLocal receiverLocal]]]

def Site.methodDefinition (formals : List Formal) (locals : List (String × ValType))
    (body : List Instr) : Func where
  name := entry.implementationId
  signature := some entry.signatureId
  params := site.receiver entry :: formals.map fun f => (localId f.name, valueType f.type)
  results := [valueType (resultLayout entry)]
  locals := locals
  body := site.narrow entry ++ body

end

theorem Site.emitMethod_eq (site : Site) (m : Method) :
    site.emitMethod m = (do
      let entry ← site.ownMethod m
      let (body, frame) ← inFrame { locals := site.narrowed entry }
        (lowerAs (site.withFormals m.formals) (resultLayout entry) m.body)
      emit (site.methodDefinition entry m.formals frame.locals body)) := by
  simp only [Site.emitMethod, decide_eq_true_eq]
  rfl

/-- The functions of the methods among features. -/
inductive EmitsMethods (site : Site) : List Feature → Progress → Progress → Prop where
  | nil {s} : EmitsMethods site [] s s
  | attr {a rest s s'} (hrest : EmitsMethods site rest s s') :
      EmitsMethods site (.attr a :: rest) s s'
  | method {m rest entry code s s₁ s₂} (hentry : site.ownMethod m = .ok entry)
      (hbody : Lowers (site.withFormals m.formals) m.body
        (s.inFrame { locals := site.narrowed entry }) code s₁)
      (hrest : EmitsMethods site rest
        ((s₁.inFrame s.frame).emitting (site.methodDefinition entry m.formals s₁.frame.locals
          ((site.withFormals m.formals).coerced (resultLayout entry) code))) s₂) :
      EmitsMethods site (.method m :: rest) s s₂

theorem EmitsMethods.of_ok {site : Site} {fs : List Feature} {s s' : Progress}
    (h : site.emitMethods fs s = .ok ((), s')) : EmitsMethods site fs s s' := by
  induction fs generalizing s with
  | nil =>
      obtain ⟨-, rfl⟩ := pure_eq_ok.mp h
      exact .nil
  | cons f fs ih =>
      cases f with
      | attr a => exact .attr (ih h)
      | method m =>
          obtain ⟨⟨⟩, s₂, hm, h⟩ := bind_eq_ok.mp h
          rw [Site.emitMethod_eq] at hm
          obtain ⟨entry, hentry, hm⟩ := lift_bind_eq_ok.mp hm
          obtain ⟨⟨body, frame⟩, s₃, hframe, hm⟩ := bind_eq_ok.mp hm
          obtain ⟨s₁, hbody, rfl, rfl⟩ := inFrame_eq_ok.mp hframe
          obtain ⟨code, hcode, rfl⟩ := lowerAs_eq_ok hbody
          cases hm
          exact .method hentry hcode (ih h)

/-! ## Classes -/

/-- The functions that dispatch to the methods a class introduces. -/
def genericDefinitions (ms : Members) (c : Name) : List Func :=
  ((ms.methods c c).filter (·.origin = .introduced)).map (Site.genericDefinition c)

/-- The functions of a class. -/
inductive EmitsClass (ms : Members) (pool : Pool) (c : Name) (fs : List Feature) :
    Progress → Progress → Prop where
  | mk {new own s s₁ s₂} (hnew : Allocates (classSite ms pool c) c new)
      (hinit : EmitsInit (classSite ms pool c) fs
        ((s.emitting new).emitting (Site.newVirtualDefinition c)) s₁)
      (hown : List.Forall₂ (HasOwnBody (classSite ms pool c) c) (perClassMethods ms c) own)
      (hmethods : EmitsMethods (classSite ms pool c) fs
        ((s₁.emittingAll own).emittingAll (genericDefinitions ms c)) s₂) :
      EmitsClass ms pool c fs s s₂

theorem EmitsClass.of_ok {ms : Members} {pool : Pool} {c : Name} {fs : List Feature}
    {s s' : Progress} (h : emitClass ms pool c fs s = .ok ((), s')) :
    EmitsClass ms pool c fs s s' := by
  rw [emitClass_eq] at h
  obtain ⟨new, hnew, h⟩ := lift_bind_eq_ok.mp h
  rw [emit_bind, emit_bind] at h
  obtain ⟨⟨⟩, s₁, hinit, h⟩ := bind_eq_ok.mp h
  obtain ⟨own, hown, h⟩ := lift_bind_eq_ok.mp h
  rw [emitAll_bind, emitAll_bind] at h
  exact .mk (.of_ok hnew) (.of_ok hinit) (perClassDefinitions_eq_ok hown) (.of_ok h)

/-- The functions of classes, one class after the other. -/
inductive EmitsAll (ms : Members) (pool : Pool) (features : Name → List Feature) :
    List Name → Progress → Progress → Prop where
  | nil {s} : EmitsAll ms pool features [] s s
  | cons {c rest s s₁ s₂} (hc : EmitsClass ms pool c (features c) s s₁)
      (hrest : EmitsAll ms pool features rest s₁ s₂) :
      EmitsAll ms pool features (c :: rest) s s₂

theorem EmitsAll.of_ok {ms : Members} {pool : Pool} {features : Name → List Feature}
    {cs : List Name} {s s' : Progress}
    (h : (cs.forM fun c => emitClass ms pool c (features c)) s = .ok ((), s')) :
    EmitsAll ms pool features cs s s' := by
  induction cs generalizing s with
  | nil =>
      obtain ⟨-, rfl⟩ := pure_eq_ok.mp h
      exact .nil
  | cons c cs ih =>
      obtain ⟨⟨⟩, s₁, hc, h⟩ := bind_eq_ok.mp h
      exact .cons (.of_ok hc) (ih h)

/-! ## Roles -/

/-- The names of the methods among features. -/
def methodNames (fs : List Feature) : List Name :=
  (fs.filterMap Feature.method?).map (·.name)

def initRoles (c : Name) : List Role :=
  if c.isPrimitive then [] else [.init]

def perClassRoles (ms : Members) (c : Name) : List Role :=
  (perClassMethods ms c).map fun m => .implementation m.name

def genericRoles (ms : Members) (c : Name) : List Role :=
  ((ms.methods c c).filter (·.origin = .introduced)).map fun m => .generic m.name

/-- The roles of the functions of a class, lifted ones apart. -/
def classRoles (ms : Members) (c : Name) (fs : List Feature) : List Role :=
  [.new] ++ [.newVirtual] ++ initRoles c ++ perClassRoles ms c ++ genericRoles ms c ++
    (methodNames fs).map .implementation

/-- The forms of the roles of a class. -/
theorem mem_classRoles {ms : Members} {c : Name} {fs : List Feature} {r : Role}
    (hr : r ∈ classRoles ms c fs) :
    r = .new ∨ r = .newVirtual ∨ r = .init ∨
      (∃ m ∈ ms.methods c c, isPerClass m = true ∧ r = .implementation m.name) ∨
      (∃ m ∈ ms.methods c c, r = .generic m.name) ∨
      ∃ x ∈ methodNames fs, r = .implementation x := by
  simp only [classRoles, List.mem_append, List.mem_singleton] at hr
  rcases hr with ((((rfl | rfl) | hr) | hr) | hr) | hr
  · simp
  · simp
  · unfold initRoles at hr
    split at hr
    · cases hr
    · simp [List.mem_singleton.mp hr]
  · obtain ⟨m, hm, rfl⟩ := List.mem_map.mp hr
    obtain ⟨hm, hper⟩ := List.mem_filter.mp hm
    exact .inr (.inr (.inr (.inl ⟨m, hm, hper, rfl⟩)))
  · obtain ⟨m, hm, rfl⟩ := List.mem_map.mp hr
    exact .inr (.inr (.inr (.inr (.inl ⟨m, List.mem_of_mem_filter hm, rfl⟩))))
  · obtain ⟨x, hx, rfl⟩ := List.mem_map.mp hr
    exact .inr (.inr (.inr (.inr (.inr ⟨x, hx, rfl⟩))))

theorem number?_classRoles {ms : Members} {c : Name} {fs : List Feature} {r : Role}
    (hr : r ∈ classRoles ms c fs) : r.number? = none := by
  rcases mem_classRoles hr with rfl | rfl | rfl | ⟨m, -, -, rfl⟩ | ⟨m, -, rfl⟩ | ⟨x, -, rfl⟩ <;>
    rfl

theorem FuncsGrow.emittingAll {cls : Name} {roles : List Role} {s : Progress} {fs : List Func}
    (hnames : fs.map (·.name) = roles.map (Role.id cls)) :
    FuncsGrow cls roles s (s.emittingAll fs) :=
  ⟨Nat.le_refl _, fs, [], rfl, by rw [List.append_nil, hnames], List.nodup_nil, by simp⟩

theorem Initializes.grown {site : Site} {fs : List Feature} {s s' : Progress}
    {instrs : List Instr} (h : Initializes site fs s instrs s') : Grown site s s' := by
  induction h with
  | nil => exact .refl _
  | method _ ih => exact ih
  | absent _ _ ih => exact ih
  | attr _ _ hinit _ ih => exact hinit.grown.trans ih

theorem EmitsInit.grown {site : Site} {fs : List Feature} {s s' : Progress}
    (h : EmitsInit site fs s s') : FuncsGrow site.current (initRoles site.current) s s' := by
  unfold initRoles
  cases h with
  | primitive hprim =>
      rw [if_pos hprim]
      exact .refl _
  | object hprim hown =>
      rw [if_neg (by simp [hprim])]
      exact (hown.grown.funcs.inFrame s.frame).trans (.emitting rfl)

theorem ownMethod_eq_ok {site : Site} {m : Method} {entry : MethodEntry}
    (h : site.ownMethod m = .ok entry) :
    entry ∈ site.members.methods site.current site.current ∧ entry.name = m.name ∧
      entry.definer = site.current := by
  unfold Site.ownMethod at h
  split at h
  · rename_i e he
    split at h
    · rename_i hdefiner
      cases h
      exact ⟨List.mem_of_find?_eq_some he, by simpa using List.find?_some he, hdefiner⟩
    · cases h
  · cases h

theorem EmitsMethods.grown {site : Site} {fs : List Feature} {s s' : Progress}
    (h : EmitsMethods site fs s s') :
    FuncsGrow site.current ((methodNames fs).map .implementation) s s' := by
  induction h with
  | nil => exact .refl _
  | attr _ ih => exact ih
  | @method m rest entry code s s₁ s₂ hentry hbody _ ih =>
      obtain ⟨-, hname, hdefiner⟩ := ownMethod_eq_ok hentry
      have himplementation : (site.methodDefinition entry m.formals s₁.frame.locals
          ((site.withFormals m.formals).coerced (resultLayout entry) code)).name =
          (Role.implementation m.name).id site.current := by
        rw [← hname, ← hdefiner]
        rfl
      have hlifted : FuncsGrow site.current [] s _ := hbody.grown.funcs.inFrame s.frame
      exact (hlifted.trans (.emitting himplementation)).trans ih

theorem perClass_names {site : Site} {c : Name} {methods : List MethodEntry} {own : List Func}
    (h : List.Forall₂ (HasOwnBody site c) methods own) :
    own.map (·.name) = (methods.map fun m => Role.implementation m.name).map (Role.id c) := by
  induction h with
  | nil => rfl
  | cons hf _ ih => rw [List.map_cons, List.map_cons, List.map_cons, ih, hf.name_eq]

theorem genericDefinitions_names {ms : Members} {c : Name}
    (hintro : ∀ m ∈ ms.methods c c, m.origin = .introduced → m.intro = c) :
    (genericDefinitions ms c).map (·.name) = (genericRoles ms c).map (Role.id c) := by
  rw [genericDefinitions, genericRoles, List.map_map, List.map_map]
  refine List.map_congr_left fun m hm => ?_
  obtain ⟨hmem, horigin⟩ := List.mem_filter.mp hm
  have hc := hintro m hmem (by simpa using horigin)
  change m.genericId = (Role.generic m.name).id c
  rw [← hc]
  rfl

theorem EmitsClass.grown {ms : Members} {pool : Pool} {c : Name} {fs : List Feature}
    {s s' : Progress} (h : EmitsClass ms pool c fs s s')
    (hintro : ∀ m ∈ ms.methods c c, m.origin = .introduced → m.intro = c) :
    FuncsGrow c (classRoles ms c fs) s s' := by
  cases h with
  | @mk new own _ s₁ _ hnew hinit hown hmethods =>
      have hnew' : FuncsGrow c [.new] s (s.emitting new) := .emitting hnew.name_eq
      have hvirtual : FuncsGrow c [.newVirtual] (s.emitting new) _ :=
        .emitting (f := Site.newVirtualDefinition c) rfl
      have hown' := FuncsGrow.emittingAll (s := s₁) (perClass_names hown)
      have hgeneric := FuncsGrow.emittingAll (s := s₁.emittingAll own)
        (genericDefinitions_names hintro)
      exact ((((hnew'.trans hvirtual).trans hinit.grown).trans hown').trans hgeneric).trans
        hmethods.grown

theorem EmitsClass.mem_funcs {ms : Members} {pool : Pool} {c : Name} {fs : List Feature}
    {s s' : Progress} (h : EmitsClass ms pool c fs s s') {f : Func} (hf : f ∈ s.funcs) :
    f ∈ s'.funcs := by
  cases h with
  | mk _ hinit _ hmethods =>
      refine hmethods.grown.mem_funcs (List.mem_append_left _ (List.mem_append_left _ ?_))
      exact hinit.grown.mem_funcs (List.mem_append_left _ (List.mem_append_left _ hf))

theorem EmitsAll.mem_funcs {ms : Members} {pool : Pool} {features : Name → List Feature}
    {cs : List Name} {s s' : Progress} (h : EmitsAll ms pool features cs s s') {f : Func}
    (hf : f ∈ s.funcs) : f ∈ s'.funcs := by
  induction h with
  | nil => exact hf
  | cons hc _ ih => exact ih (hc.mem_funcs hf)

/-- Every class is emitted at some point. -/
theorem EmitsAll.exists_class {ms : Members} {pool : Pool} {features : Name → List Feature}
    {cs : List Name} {s s' : Progress} (h : EmitsAll ms pool features cs s s') {c : Name}
    (hc : c ∈ cs) : ∃ s₁ s₂, EmitsClass ms pool c (features c) s₁ s₂ ∧
      ∀ f ∈ s₂.funcs, f ∈ s'.funcs := by
  induction h with
  | nil => cases hc
  | cons hfirst hrest ih =>
      rcases List.mem_cons.mp hc with rfl | hc
      · exact ⟨_, _, hfirst, fun f hf => hrest.mem_funcs hf⟩
      · exact ih hc

theorem classRoles_nodup {ms : Members} {c : Name} {fs : List Feature}
    (hmethods : ((ms.methods c c).map (·.name)).Nodup) (hfs : (methodNames fs).Nodup)
    (hapart : ∀ m ∈ perClassMethods ms c, m.name ∉ methodNames fs) :
    (classRoles ms c fs).Nodup := by
  have hmap : ∀ (p : MethodEntry → Bool) (f : Name → Role), Function.Injective f →
      (((ms.methods c c).filter p).map fun m => f m.name).Nodup := by
    intro p f hf
    have hnames := hmethods.sublist ((List.filter_sublist (p := p)).map (·.name))
    rw [← Function.comp_def, ← List.map_map]
    exact hnames.map hf
  have himplementation : Function.Injective Role.implementation :=
    fun _ _ h => Role.implementation.inj h
  have hgeneric : Function.Injective Role.generic := fun _ _ h => Role.generic.inj h
  have hinit : (initRoles c).Nodup ∧ ∀ r ∈ initRoles c, r = .init := by
    unfold initRoles
    split <;> simp
  have hlast : (perClassRoles ms c).Disjoint ((methodNames fs).map .implementation) := by
    intro r hr hr'
    obtain ⟨m, hm, rfl⟩ := List.mem_map.mp hr
    obtain ⟨x, hx, heq⟩ := List.mem_map.mp hr'
    exact hapart m hm (himplementation heq ▸ hx)
  simp only [classRoles, List.nodup_append', List.disjoint_append_left]
  refine ⟨⟨⟨⟨⟨by simp, by simp, by simp⟩, hinit.1, ?_, ?_⟩, hmap _ _ himplementation, ⟨?_, ?_⟩, ?_⟩,
    hmap _ _ hgeneric, ⟨⟨?_, ?_⟩, ?_⟩, ?_⟩, hfs.map himplementation, ⟨⟨⟨?_, ?_⟩, ?_⟩, hlast⟩, ?_⟩
  all_goals
    intro r hr hr'
    grind [perClassRoles, genericRoles]

/-- What emitting classes one after the other adds: the functions of each class under different
names. -/
theorem EmitsAll.grown {ms : Members} {pool : Pool} {features : Name → List Feature}
    {cs : List Name} {s s' : Progress} (h : EmitsAll ms pool features cs s s') (hcs : cs.Nodup)
    (hintro : ∀ c ∈ cs, ∀ m ∈ ms.methods c c, m.origin = .introduced → m.intro = c)
    (hroles : ∀ c ∈ cs, (classRoles ms c (features c)).Nodup) :
    ∃ (new : List Func) (keys : List (Name × Role)), s'.funcs = s.funcs ++ new ∧
      (new.map (·.name)).Perm (keys.map fun k => k.2.id k.1) ∧ keys.Nodup ∧
      ∀ k ∈ keys, k.1 ∈ cs ∧ (k.2 ∈ classRoles ms k.1 (features k.1) ∨ k.2.number? ≠ none) := by
  induction h with
  | nil => exact ⟨[], [], by simp⟩
  | @cons c rest s s₁ s₂ hc _ ih =>
      rw [List.forall_mem_cons] at hintro hroles
      rw [List.nodup_cons] at hcs
      obtain ⟨-, new, lifted, hfuncs, hnames, hlifted, hnumbers⟩ := hc.grown hintro.1
      obtain ⟨new', keys, hfuncs', hnames', hkeys, hmem⟩ := ih hcs.2 hintro.2 hroles.2
      have hnumbered : ∀ r ∈ lifted, r.number? ≠ none := by
        intro r hr
        obtain ⟨i, hi, -⟩ := hnumbers r hr
        rw [hi]
        nofun
      have hown : (classRoles ms c (features c) ++ lifted).Nodup := by
        refine List.nodup_append'.mpr ⟨hroles.1, hlifted, fun r hr hr' => ?_⟩
        exact hnumbered r hr' (number?_classRoles hr)
      refine ⟨new ++ new', (classRoles ms c (features c) ++ lifted).map (c, ·) ++ keys, ?_, ?_, ?_,
        ?_⟩
      · rw [hfuncs', hfuncs, List.append_assoc]
      · rw [List.map_append, List.map_append, List.map_map]
        exact hnames.append hnames'
      · refine List.nodup_append'.mpr ⟨hown.map fun _ _ h => (Prod.mk.inj h).2, hkeys, ?_⟩
        intro k hk hk'
        obtain ⟨r, -, rfl⟩ := List.mem_map.mp hk
        exact hcs.1 (hmem _ hk').1
      · intro k hk
        rcases List.mem_append.mp hk with hk | hk
        · obtain ⟨r, hr, rfl⟩ := List.mem_map.mp hk
          exact ⟨List.mem_cons_self, (List.mem_append.mp hr).imp_right (hnumbered r)⟩
        · exact ⟨List.mem_cons_of_mem _ (hmem k hk).1, (hmem k hk).2⟩

end Cool.Lowering
