import Cool.Proofs.Lowering.Equations

/-! Lowering as a relation between an expression and its code, with one rule for each form. A rule
names the states in between, so that a property of lowering is proved by induction on the rules. -/

namespace Cool.Lowering

open Wat

variable {α β : Type}

/-! ## Runs -/

theorem except_bind_eq_ok {ε : Type} {x : Except ε α} {f : α → Except ε β} {b : β} :
    (x >>= f) = .ok b ↔ ∃ a, x = .ok a ∧ f a = .ok b := by
  cases x with
  | error e =>
      refine ⟨nofun, ?_⟩
      rintro ⟨a, h, -⟩
      cases h
  | ok a =>
      refine ⟨fun h => ⟨a, rfl, h⟩, ?_⟩
      rintro ⟨_, h, hf⟩
      cases h
      exact hf

theorem bind_eq_ok {x : Lower α} {f : α → Lower β} {s s' : Progress} {b : β} :
    (x >>= f) s = .ok (b, s') ↔ ∃ a s₁, x s = .ok (a, s₁) ∧ f a s₁ = .ok (b, s') := by
  have hrun : (x >>= f) s = (x s >>= fun r => f r.1 r.2) := rfl
  rw [hrun, except_bind_eq_ok, Prod.exists]

theorem pure_eq_ok {a b : α} {s s' : Progress} :
    (pure a : Lower α) s = .ok (b, s') ↔ b = a ∧ s = s' := by
  have hrun : (pure a : Lower α) s = .ok (a, s) := rfl
  rw [hrun]
  simp [eq_comm]

theorem map_eq_ok {x : Lower α} {g : α → β} {s s' : Progress} {b : β} :
    (g <$> x) s = .ok (b, s') ↔ ∃ a, x s = .ok (a, s') ∧ b = g a := by
  have hrun : (g <$> x) s = (x s >>= fun r => Except.ok (g r.1, r.2)) := rfl
  rw [hrun, except_bind_eq_ok, Prod.exists]
  simp [eq_comm]

theorem lift_eq_ok {x : Except Fault α} {s s' : Progress} {a : α} :
    (liftM x : Lower α) s = .ok (a, s') ↔ x = .ok a ∧ s = s' := by
  cases x with
  | error e =>
      refine ⟨nofun, ?_⟩
      rintro ⟨h, -⟩
      cases h
  | ok b =>
      have hrun : (liftM (Except.ok b : Except Fault α) : Lower α) s = .ok (b, s) := rfl
      rw [hrun]
      simp [eq_comm]

theorem lift_bind_eq_ok {x : Except Fault α} {f : α → Lower β} {s s' : Progress} {b : β} :
    ((liftM x : Lower α) >>= f) s = .ok (b, s') ↔ ∃ a, x = .ok a ∧ f a s = .ok (b, s') := by
  simp only [bind_eq_ok, lift_eq_ok, and_assoc, exists_and_left, exists_eq_left']

theorem inFrame_eq_ok {x : Lower α} {frame inner : Frame} {s s' : Progress} {a : α} :
    inFrame frame x s = .ok ((a, inner), s') ↔
      ∃ s₁, x { s with frame := frame } = .ok (a, s₁) ∧ inner = s₁.frame ∧
        s' = { s₁ with frame := s.frame } := by
  have hrun : inFrame frame x s = (x { s with frame := frame } >>= fun r =>
      Except.ok ((r.1, r.2.frame), { r.2 with frame := s.frame })) := rfl
  rw [hrun]
  cases hx : x { s with frame := frame } with
  | error e =>
      refine ⟨nofun, ?_⟩
      rintro ⟨s₁, h, -⟩
      cases h
  | ok r =>
      obtain ⟨b, s₁⟩ := r
      constructor
      · intro h
        cases h
        exact ⟨s₁, rfl, rfl, rfl⟩
      · rintro ⟨_, h, rfl, rfl⟩
        cases h
        rfl

/-! ## Steps -/

/-- The scratch local of a number. -/
def tempName (i : Nat) : String :=
  "$#t" ++ toString i

/-- The name of a function lifted from an expression. -/
def liftedId (cls : Name) (kind : String) (i : Nat) : String :=
  "$" ++ cls.text ++ "." ++ kind ++ "." ++ toString i

/-- The name of a function lifted from a branch of the case with the given name. -/
def branchId (name : String) (j : Nat) : String :=
  name ++ ".branch." ++ toString j

namespace Progress

def withTemp (s : Progress) (t : ValType) : Progress :=
  { s with
    frame := { s.frame with
      locals := s.frame.locals ++ [(tempName s.frame.temps, t)]
      temps := s.frame.temps + 1 } }

def withLabel (s : Progress) : Progress :=
  { s with frame := { s.frame with labels := s.frame.labels + 1 } }

def noting (s : Progress) (xs : List Name) : Progress :=
  { s with frame := { s.frame with assigned := s.frame.assigned ++ xs } }

def counted (s : Progress) : Progress :=
  { s with lifted := s.lifted + 1 }

def emitting (s : Progress) (f : Func) : Progress :=
  { s with funcs := s.funcs ++ [f] }

def inFrame (s : Progress) (frame : Frame) : Progress :=
  { s with frame := frame }

theorem mem_emitting (s : Progress) (f : Func) : f ∈ (s.emitting f).funcs :=
  List.mem_append_right _ (List.mem_singleton_self f)

end Progress

section

variable {s : Progress}

theorem freshTemp_bind {t : ValType} {f : String → Lower β} :
    (freshTemp t >>= f) s = f (tempName s.frame.temps) (s.withTemp t) :=
  rfl

theorem freshLabel_bind {kind : String} {f : String → Lower β} :
    (freshLabel kind >>= f) s = f ("$#" ++ kind ++ toString s.frame.labels) s.withLabel :=
  rfl

theorem noteAssigned_bind {xs : List Name} {f : Unit → Lower β} :
    (noteAssigned xs >>= f) s = f () (s.noting xs) :=
  rfl

theorem liftedName_bind {cls : Name} {kind : String} {f : String → Lower β} :
    (liftedName cls kind >>= f) s = f (liftedId cls kind s.lifted) s.counted :=
  rfl

theorem emit_bind {g : Func} {f : Unit → Lower β} : (emit g >>= f) s = f () (s.emitting g) :=
  rfl

end

/-! ## Variables -/

namespace Site

variable {site : Site}

theorem lookup_of_binding {x : Name} {b : Binding} (hb : site.binding x = .ok b) :
    site.scope.lookup x = some b := by
  unfold binding at hb
  split at hb
  · rename_i b' hb'
    rw [hb', Except.ok.inj hb]
  · cases hb

/-- The ways a variable is read. -/
inductive Reads (site : Site) : Name → Code → Prop where
  | self : Reads site .self ⟨[getLocal selfLocal], site.current⟩
  | field {x t c} (hx : x ≠ .self) (hlookup : site.scope.lookup x = some ⟨.field, t⟩)
      (hc : site.attributeClass x = .ok c) :
      Reads site x ⟨[getLocal selfLocal,
        .plain (.structGet (classType site.current) (fieldId x)) []], c⟩
  | local {x t c} (hx : x ≠ .self) (hlookup : site.scope.lookup x = some ⟨.local, t⟩)
      (hc : site.layout t = .ok c) : Reads site x ⟨[getLocal (localId x)], c⟩

theorem Reads.of_ok {x : Name} {code : Code} (h : site.read x = .ok code) :
    Reads site x code := by
  by_cases hx : x = .self
  · subst hx
    cases h
    exact .self
  · rw [read, if_neg hx] at h
    obtain ⟨⟨place, t⟩, hb, h⟩ := except_bind_eq_ok.mp h
    cases place with
    | field =>
        obtain ⟨c, hc, h⟩ := except_bind_eq_ok.mp h
        cases h
        exact .field hx (lookup_of_binding hb) hc
    | «local» =>
        obtain ⟨c, hc, h⟩ := except_bind_eq_ok.mp h
        cases h
        exact .local hx (lookup_of_binding hb) hc

/-- The values that variables of a type start with. -/
inductive Defaults (site : Site) : Name → Instr → Prop where
  | int {g} (hg : site.pool.int 0 = .ok g) : Defaults site .int (.plain (.globalGet g) [])
  | string {g} (hg : site.pool.text "" = .ok g) : Defaults site .string (.plain (.globalGet g) [])
  | bool : Defaults site .bool (.plain (.globalGet falseGlobal) [])
  | void {t c} (ht : t.isPrimitive = false) (hc : site.layout t = .ok c) :
      Defaults site t (.plain (.refNull (classType c)) [])

theorem Defaults.of_ok {t : Name} {i : Instr} (h : site.defaultValue t = .ok i) :
    Defaults site t i := by
  unfold defaultValue at h
  split at h
  · rename_i ht
    obtain ⟨g, hg, h⟩ := except_bind_eq_ok.mp h
    cases h
    exact ht ▸ .int hg
  · rename_i hint
    split at h
    · rename_i ht
      obtain ⟨g, hg, h⟩ := except_bind_eq_ok.mp h
      cases h
      exact ht ▸ .string hg
    · rename_i hstring
      split at h
      · rename_i ht
        cases h
        exact ht ▸ .bool
      · rename_i hbool
        obtain ⟨c, hc, h⟩ := except_bind_eq_ok.mp h
        cases h
        exact .void (by simp [Name.isPrimitive, hint, hbool, hstring]) hc

end Site

/-! ## Rules -/

/-- The test of a branch of a case, which calls the function of the branch. -/
def armTest (site : Site) (label branch : String) (b : Branch) (back : List (Name × ValType)) :
    Instr :=
  .whenTrue (.plain (.refTest (objectType b.type)) [getLocal scrutineeLocal])
    (site.liftedArgs b.name b.type
        (.plain (.refCast (objectType b.type)) [getLocal scrutineeLocal]) ++
      callLifted branch back ++ [.plain (.br label) []])

/-- The label that the branches of a case leave to. -/
def matchedLabel : String := "$#matched0"

/-- The function that selects a branch of a case. -/
def selectFunc (site : Site) (name : String) (value : Name) (ps back : List (Name × ValType))
    (tests : List Instr) : Func :=
  liftedFunc name
    ((selfLocal, valueType site.current) :: (scrutineeLocal, valueType .object) ::
      liftedParams ps)
    (valueType value) back []
    [.block matchedLabel [valueType value]
      (tests ++ [.plain (.throw abortTag) [const abortNoBranch]])]

mutual

/-- The code of an expression, with the state before and after. -/
inductive Lowers : Site → Expr → Progress → Code → Progress → Prop where
  | int {site m token n g s} (hn : Literal.parse token = .ok n) (hg : site.pool.int n = .ok g) :
      Lowers site (.int m token) s ⟨[.plain (.globalGet g) []], .int⟩ s
  | string {site m value g s} (hg : site.pool.text value = .ok g) :
      Lowers site (.string m value) s ⟨[.plain (.globalGet g) []], .string⟩ s
  | bool {site m value s} :
      Lowers site (.bool m value) s
        ⟨[.plain (.globalGet (if value then trueGlobal else falseGlobal)) []], .bool⟩ s
  | object {site m x code s} (hcode : site.Reads x code) :
      Lowers site (.object m x) s code s
  | assignLocal {site m x t want value code s s₁}
      (hx : site.scope.lookup x = some ⟨.local, t⟩) (hwant : site.layout t = .ok want)
      (hvalue : Lowers site value s code s₁) :
      Lowers site (.assign m x value) s
        ⟨site.coerced want code ++ [.plain (.localTee (localId x)) []], want⟩ (s₁.noting [x])
  | assignField {site m x t want value code s s₁}
      (hx : site.scope.lookup x = some ⟨.field, t⟩) (hwant : site.attributeClass x = .ok want)
      (hvalue : Lowers site value s code s₁) :
      Lowers site (.assign m x value) s
        ⟨site.coerced want code ++
          [.plain (.localSet (tempName s₁.frame.temps)) [],
            .plain (.structSet (classType site.current) (fieldId x))
              [getLocal selfLocal, getLocal (tempName s₁.frame.temps)],
            getLocal (tempName s₁.frame.temps)], want⟩
        (s₁.withTemp (valueType want))
  | new {site m type s} : Lowers site (.new m type) s (site.allocate type) s
  | dispatch {site m receiver t method entry args before temps code s s₁ s₂}
      (ht : typeOf receiver = .ok t) (hentry : site.method t method = .ok entry)
      (hargs : LowersArgs site entry.params args s before temps s₁)
      (hreceiver : Lowers site receiver s₁ code s₂) :
      Lowers site (.dispatch m receiver method args) s
        ⟨before ++ site.coerced entry.intro code ++ temps.map getLocal ++
          [.plain (.call entry.genericId) []], resultLayout entry⟩ s₂
  | staticDispatch {site m receiver target method entry args before temps code s s₁ s₂}
      (hentry : site.method target method = .ok entry)
      (hargs : LowersArgs site entry.params args s before temps s₁)
      (hreceiver : Lowers site receiver s₁ code s₂) :
      Lowers site (.staticDispatch m receiver target method args) s
        ⟨before ++ site.coerced entry.intro code ++ temps.map getLocal ++
          [.plain (.call (if method = .copy ∨ method = .typeName then entry.genericId
            else entry.implementationId)) []], resultLayout entry⟩ s₂
  | cond {site m pred onTrue onFalse want test yes no s s₁ s₂ s₃}
      (hwant : site.layout m.type = .ok want) (hpred : Lowers site pred s test s₁)
      (htrue : Lowers site onTrue s₁ yes s₂) (hfalse : Lowers site onFalse s₂ no s₃) :
      Lowers site (.cond m pred onTrue onFalse) s
        ⟨site.unboxed .bool test ++
          [.ifElse (valueType want) (site.coerced want yes) (site.coerced want no)], want⟩ s₃
  | loop {site m pred body test code leave next s s₁ s₂}
      (hleave : leave = "$#break" ++ toString s.frame.labels)
      (hnext : next = "$#loop" ++ toString (s.frame.labels + 1))
      (hpred : Lowers site pred s.withLabel.withLabel test s₁)
      (hbody : Lowers site body s₁ code s₂) :
      Lowers site (.loop m pred body) s
        ⟨[.block leave []
          [.loop next
            (site.unboxed .bool test ++ [.plain .eqz [], .plain (.brIf leave) []] ++ code.instrs ++
              [.plain .drop [], .plain (.br next) []])],
          .plain (.refNull (classType .object)) []], .object⟩ s₂
  | blockNil {site m s} :
      Lowers site (.block m []) s ⟨[.plain (.refNull (classType .object)) []], .object⟩ s
  | block {site m e rest first code s s₁ s₂} (he : Lowers site e s first s₁)
      (hrest : LowersRest site first rest s₁ code s₂) :
      Lowers site (.block m (e :: rest)) s code s₂
  | equality {site m left right t l r s s₁ s₂} (ht : typeOf left = .ok t)
      (hleft : Lowers site left s l s₁) (hright : Lowers site right s₁ r s₂) :
      Lowers site (.binary m .eq left right) s (site.equality t l r) s₂
  | integer {site m op instr left right l r s s₁ s₂} (hop : integerOp? op = some instr)
      (hleft : Lowers site left s l s₁) (hright : Lowers site right s₁ r s₂) :
      Lowers site (.binary m op left right) s (site.integerCode op instr l r) s₂
  | neg {site m operand code s s₁} (hoperand : Lowers site operand s code s₁) :
      Lowers site (.unary m .neg operand) s
        (boxed (const 0 :: site.unboxed .int code ++ [.plain .sub []]) .int) s₁
  | comp {site m operand code s s₁} (hoperand : Lowers site operand s code s₁) :
      Lowers site (.unary m .comp operand) s
        (boxed (site.unboxed .bool code ++ [.plain .eqz []]) .bool) s₁
  | isvoid {site m operand code s s₁} (hoperand : Lowers site operand s code s₁) :
      Lowers site (.unary m .isvoid operand) s
        (boxed (code.instrs ++ [.plain .refIsNull []]) .bool) s₁
  | letIn {site m x type init body declared first value name back s s₁ s₂}
      (hdeclared : site.layout type = .ok declared)
      (hinit : LowersInitial site type declared init s first s₁)
      (hvalue : site.layout m.type = .ok value)
      (hname : name = liftedId site.current "let" s₁.lifted)
      (hbody : Lifts site name x type value body
        (s₁.withTemp (valueType declared)).counted back s₂) :
      Lowers site (.letIn m x type init body) s
        ⟨first ++ [.plain (.localSet (tempName s₁.frame.temps)) []] ++
          site.liftedArgs x type (getLocal (tempName s₁.frame.temps)) ++
          callLifted name back, value⟩ (s₂.noting (back.map (·.1)))
  | caseOf {site m scrutinee branches code value name ps back tests assigned s s₁ s₂}
      (hscrutinee : Lowers site scrutinee s code s₁)
      (hvalue : site.layout m.type = .ok value)
      (hname : name = liftedId site.current "case" s₁.lifted)
      (hps : site.typedLocals site.locals = .ok ps)
      (harms : LowersArms site name value 0
        (deepestFirst (fun b => site.members.hierarchy.depth b.type) branches)
        (s₁.withTemp (valueType .object)).counted tests assigned s₂)
      (hback : back = handedBack ps assigned .anonymous) :
      Lowers site (.caseOf m scrutinee branches) s
        ⟨site.coerced .object code ++
          [.plain (.localSet (tempName s₁.frame.temps)) [], getLocal selfLocal,
            getLocal (tempName s₁.frame.temps)] ++
          ps.map (fun p => getLocal (localId p.1)) ++ callLifted name back, value⟩
        ((s₂.emitting (selectFunc site name value ps back tests)).noting (back.map (·.1)))

/-- The code of the rest of a block, after the code of what stands before. -/
inductive LowersRest : Site → Code → List Expr → Progress → Code → Progress → Prop where
  | nil {site before s} : LowersRest site before [] s before s
  | cons {site before e rest code result s s₁ s₂} (he : Lowers site e s code s₁)
      (hrest : LowersRest site ⟨before.instrs ++ .plain .drop [] :: code.instrs, code.cls⟩ rest
        s₁ result s₂) :
      LowersRest site before (e :: rest) s result s₂

/-- The code of arguments, and the scratch locals that hold them. -/
inductive LowersArgs : Site → List Parameter → List Expr → Progress → List Instr → List String →
    Progress → Prop where
  | nil {site ps s} : LowersArgs site ps [] s [] [] s
  | cons {site p ps e rest code instrs temps s s₁ s₂} (he : Lowers site e s code s₁)
      (hrest : LowersArgs site ps rest (s₁.withTemp (valueType p.type)) instrs temps s₂) :
      LowersArgs site (p :: ps) (e :: rest) s
        (site.coerced p.type code ++ .plain (.localSet (tempName s₁.frame.temps)) [] :: instrs)
        (tempName s₁.frame.temps :: temps) s₂

/-- The code of the value a variable starts with. -/
inductive LowersInitial : Site → Name → Name → Expr → Progress → List Instr → Progress →
    Prop where
  | default {site type declared init i s} (hinit : init.isAbsent = true)
      (hi : site.Defaults type i) :
      LowersInitial site type declared init s [i] s
  | value {site type declared init code s s₁} (hinit : init.isAbsent = false)
      (hcode : Lowers site init s code s₁) :
      LowersInitial site type declared init s (site.coerced declared code) s₁

/-- The function that binds a variable around an expression, and what it hands back. -/
inductive Lifts : Site → String → Name → Name → Name → Expr → Progress →
    List (Name × ValType) → Progress → Prop where
  | mk {site name x type value body ps back code s s₁}
      (hps : site.typedLocals (site.localsWith x type) = .ok ps)
      (hbody : Lowers (site.bind x type) body (s.inFrame {}) code s₁)
      (hback : back = handedBack ps s₁.frame.assigned x) :
      Lifts site name x type value body s back
        ((s₁.inFrame s.frame).emitting (liftedFunc name
          ((selfLocal, valueType site.current) :: liftedParams ps) (valueType value) back
          s₁.frame.locals ((site.bind x type).coerced value code)))

/-- The tests of the branches of a case from a number on, and what the branches assign. -/
inductive LowersArms : Site → String → Name → Nat → List Branch → Progress → List Instr →
    List Name → Progress → Prop where
  | nil {site name value i s} : LowersArms site name value i [] s [] [] s
  | cons {site name value i b rest back tests assigned s s₁ s₂}
      (hb : Lifts site (branchId name i) b.name b.type value b.body s back s₁)
      (hrest : LowersArms site name value (i + 1) rest s₁ tests assigned s₂) :
      LowersArms site name value i (b :: rest) s
        (armTest site matchedLabel (branchId name i) b back :: tests)
        (back.map (·.1) ++ assigned) s₂

end

/-! ## Lowering follows the rules -/

theorem LowersInitial.of_ok {site : Site} {type declared : Name} {init : Expr} {s s' : Progress}
    {instrs : List Instr}
    (hinit : ∀ {s code s'}, lower site init s = .ok (code, s') → Lowers site init s code s')
    (h : initial site type declared init s = .ok (instrs, s')) :
    LowersInitial site type declared init s instrs s' := by
  unfold initial at h
  split at h
  · rename_i habsent
    obtain ⟨i, hlift, rfl⟩ := map_eq_ok.mp h
    obtain ⟨hi, rfl⟩ := lift_eq_ok.mp hlift
    exact .default habsent (.of_ok hi)
  · rename_i hpresent
    obtain ⟨code, hcode, rfl⟩ := map_eq_ok.mp h
    exact .value (Bool.eq_false_iff.mpr hpresent) (hinit hcode)

theorem Lifts.of_ok {site : Site} {name : String} {x type value : Name} {body : Expr}
    {s s' : Progress} {back : List (Name × ValType)}
    (hbody : ∀ {s code s'}, lower (site.bind x type) body s = .ok (code, s') →
      Lowers (site.bind x type) body s code s')
    (h : site.liftBinding name x type value
      ((site.bind x type).coerced value <$> lower (site.bind x type) body) s = .ok (back, s')) :
    Lifts site name x type value body s back s' := by
  unfold Site.liftBinding at h
  obtain ⟨ps, hps, h⟩ := lift_bind_eq_ok.mp h
  obtain ⟨⟨instrs, inner⟩, s₁, hrun, h⟩ := bind_eq_ok.mp h
  obtain ⟨s₂, hmap, rfl, rfl⟩ := inFrame_eq_ok.mp hrun
  obtain ⟨code, hcode, rfl⟩ := map_eq_ok.mp hmap
  simp only [emit_bind, pure_eq_ok] at h
  obtain ⟨rfl, rfl⟩ := h
  exact .mk hps (hbody hcode) rfl

theorem LowersArms.of_ok {site : Site} {name : String} {value : Name} {bs : List Branch}
    (hbs : ∀ b ∈ bs, ∀ {site s code s'}, lower site b.body s = .ok (code, s') →
      Lowers site b.body s code s') {i : Nat} {s s' : Progress} {tests : List Instr}
    {assigned : List Name}
    (h : site.lowerArms name value matchedLabel i (bs.map (armOf site value)) s =
      .ok ((tests, assigned), s')) :
    LowersArms site name value i bs s tests assigned s' := by
  induction bs generalizing i s tests assigned with
  | nil =>
      obtain ⟨h, rfl⟩ := pure_eq_ok.mp h
      cases h
      exact .nil
  | cons b bs ih =>
      obtain ⟨hb, hrest⟩ := List.forall_mem_cons.mp hbs
      rw [List.map_cons, Site.lowerArms] at h
      obtain ⟨back, s₁, hlift, h⟩ := bind_eq_ok.mp h
      obtain ⟨⟨tests', assigned'⟩, s₂, hrun, h⟩ := bind_eq_ok.mp h
      obtain ⟨h, rfl⟩ := pure_eq_ok.mp h
      cases h
      exact .cons (.of_ok hb hlift) (ih hrest hrun)

mutual

theorem Lowers.of_ok : ∀ (e : Expr) {site : Site} {s s' : Progress} {code : Code},
    lower site e s = .ok (code, s') → Lowers site e s code s'
  | .missing, _, _, _, _, h => by
      rw [lower] at h
      cases h
  | .noExpr m, _, _, _, _, h => by
      rw [lower] at h
      cases h
  | .int m token, site, _, _, _, h => by
      rw [lower] at h
      cases hn : Literal.parse token with
      | error e =>
          rw [hn] at h
          cases h
      | ok n =>
          rw [hn] at h
          obtain ⟨g, hg, h⟩ := lift_bind_eq_ok.mp h
          obtain ⟨rfl, rfl⟩ := pure_eq_ok.mp h
          exact .int hn hg
  | .string m value, site, _, _, _, h => by
      rw [lower] at h
      obtain ⟨g, hg, h⟩ := lift_bind_eq_ok.mp h
      obtain ⟨rfl, rfl⟩ := pure_eq_ok.mp h
      exact .string hg
  | .bool m value, _, _, _, _, h => by
      rw [lower] at h
      obtain ⟨rfl, rfl⟩ := pure_eq_ok.mp h
      exact .bool
  | .object m x, _, _, _, _, h => by
      rw [lower] at h
      obtain ⟨hcode, rfl⟩ := lift_eq_ok.mp h
      exact .object (.of_ok hcode)
  | .assign m x value, site, _, _, _, h => by
      rw [lower] at h
      obtain ⟨⟨place, t⟩, hb, h⟩ := lift_bind_eq_ok.mp h
      cases place with
      | «local» =>
          obtain ⟨want, hwant, h⟩ := lift_bind_eq_ok.mp h
          obtain ⟨code, s₂, hvalue, h⟩ := bind_eq_ok.mp h
          rw [noteAssigned_bind] at h
          obtain ⟨rfl, rfl⟩ := pure_eq_ok.mp h
          exact .assignLocal (Site.lookup_of_binding hb) hwant (.of_ok value hvalue)
      | field =>
          obtain ⟨want, hwant, h⟩ := lift_bind_eq_ok.mp h
          obtain ⟨code, s₂, hvalue, h⟩ := bind_eq_ok.mp h
          rw [freshTemp_bind] at h
          obtain ⟨rfl, rfl⟩ := pure_eq_ok.mp h
          exact .assignField (Site.lookup_of_binding hb) hwant (.of_ok value hvalue)
  | .new m type, _, _, _, _, h => by
      rw [lower] at h
      obtain ⟨rfl, rfl⟩ := pure_eq_ok.mp h
      exact .new
  | .dispatch m receiver method args, site, _, _, _, h => by
      rw [lower] at h
      obtain ⟨t, ht, h⟩ := lift_bind_eq_ok.mp h
      obtain ⟨entry, hentry, h⟩ := lift_bind_eq_ok.mp h
      obtain ⟨⟨before, temps⟩, s₁, hargs, h⟩ := bind_eq_ok.mp h
      obtain ⟨code, s₂, hreceiver, h⟩ := bind_eq_ok.mp h
      obtain ⟨rfl, rfl⟩ := pure_eq_ok.mp h
      exact .dispatch ht hentry (.of_ok args hargs) (.of_ok receiver hreceiver)
  | .staticDispatch m receiver target method args, site, _, _, _, h => by
      rw [lower] at h
      obtain ⟨entry, hentry, h⟩ := lift_bind_eq_ok.mp h
      obtain ⟨⟨before, temps⟩, s₁, hargs, h⟩ := bind_eq_ok.mp h
      obtain ⟨code, s₂, hreceiver, h⟩ := bind_eq_ok.mp h
      obtain ⟨rfl, rfl⟩ := pure_eq_ok.mp h
      exact .staticDispatch hentry (.of_ok args hargs) (.of_ok receiver hreceiver)
  | .cond m pred onTrue onFalse, site, _, _, _, h => by
      rw [lower] at h
      obtain ⟨want, hwant, h⟩ := lift_bind_eq_ok.mp h
      obtain ⟨test, s₁, hpred, h⟩ := bind_eq_ok.mp h
      obtain ⟨yes, s₂, htrue, h⟩ := bind_eq_ok.mp h
      obtain ⟨no, s₃, hfalse, h⟩ := bind_eq_ok.mp h
      obtain ⟨rfl, rfl⟩ := pure_eq_ok.mp h
      exact .cond hwant (.of_ok pred hpred) (.of_ok onTrue htrue) (.of_ok onFalse hfalse)
  | .loop m pred body, site, _, _, _, h => by
      rw [lower] at h
      rw [freshLabel_bind, freshLabel_bind] at h
      obtain ⟨test, s₂, hpred, h⟩ := bind_eq_ok.mp h
      obtain ⟨code, s₃, hbody, h⟩ := bind_eq_ok.mp h
      obtain ⟨rfl, rfl⟩ := pure_eq_ok.mp h
      exact .loop rfl rfl (.of_ok pred hpred) (.of_ok body hbody)
  | .block m [], _, _, _, _, h => by
      rw [lower] at h
      obtain ⟨rfl, rfl⟩ := pure_eq_ok.mp h
      exact .blockNil
  | .block m (e :: rest), site, _, _, _, h => by
      rw [lower] at h
      obtain ⟨first, s₁, he, h⟩ := bind_eq_ok.mp h
      exact .block (.of_ok e he) (.of_ok rest h)
  | .binary m op left right, site, _, _, _, h => by
      cases hop : integerOp? op with
      | some instr =>
          rw [lower_integer hop] at h
          obtain ⟨l, s₁, hl, h⟩ := bind_eq_ok.mp h
          obtain ⟨r, s₂, hr, h⟩ := bind_eq_ok.mp h
          obtain ⟨rfl, rfl⟩ := pure_eq_ok.mp h
          exact .integer hop (.of_ok left hl) (.of_ok right hr)
      | none =>
          cases op with
          | eq =>
              rw [lower_equality] at h
              obtain ⟨t, ht, h⟩ := lift_bind_eq_ok.mp h
              obtain ⟨l, s₁, hl, h⟩ := bind_eq_ok.mp h
              obtain ⟨r, s₂, hr, h⟩ := bind_eq_ok.mp h
              obtain ⟨rfl, rfl⟩ := pure_eq_ok.mp h
              exact .equality ht (.of_ok left hl) (.of_ok right hr)
          | unknown i =>
              rw [lower] at h
              cases h
          | _ => cases hop
  | .unary m .neg operand, site, _, _, _, h => by
      rw [lower] at h
      obtain ⟨code, s₁, hcode, h⟩ := bind_eq_ok.mp h
      obtain ⟨rfl, rfl⟩ := pure_eq_ok.mp h
      exact .neg (.of_ok operand hcode)
  | .unary m .comp operand, site, _, _, _, h => by
      rw [lower] at h
      obtain ⟨code, s₁, hcode, h⟩ := bind_eq_ok.mp h
      obtain ⟨rfl, rfl⟩ := pure_eq_ok.mp h
      exact .comp (.of_ok operand hcode)
  | .unary m .isvoid operand, site, _, _, _, h => by
      rw [lower] at h
      obtain ⟨code, s₁, hcode, h⟩ := bind_eq_ok.mp h
      obtain ⟨rfl, rfl⟩ := pure_eq_ok.mp h
      exact .isvoid (.of_ok operand hcode)
  | .unary m (.unknown i) operand, _, _, _, _, h => by
      rw [lower] at h
      cases h
  | .letIn m x type init body, site, _, _, _, h => by
      rw [lower_let] at h
      obtain ⟨declared, hdeclared, h⟩ := lift_bind_eq_ok.mp h
      obtain ⟨first, s₁, hinit, h⟩ := bind_eq_ok.mp h
      rw [freshTemp_bind, liftedName_bind] at h
      obtain ⟨value, hvalue, h⟩ := lift_bind_eq_ok.mp h
      obtain ⟨back, s₂, hback, h⟩ := bind_eq_ok.mp h
      rw [noteAssigned_bind] at h
      obtain ⟨rfl, rfl⟩ := pure_eq_ok.mp h
      exact .letIn hdeclared (.of_ok (.of_ok init) hinit) hvalue rfl (.of_ok (.of_ok body) hback)
  | .caseOf m scrutinee branches, site, _, _, _, h => by
      rw [lower] at h
      obtain ⟨code, s₁, hscrutinee, h⟩ := bind_eq_ok.mp h
      rw [freshTemp_bind] at h
      obtain ⟨value, hvalue, h⟩ := lift_bind_eq_ok.mp h
      rw [liftedName_bind] at h
      obtain ⟨ps, hps, h⟩ := lift_bind_eq_ok.mp h
      rw [armOrder_lowerBranches] at h
      obtain ⟨⟨tests, assigned⟩, s₂, harms, h⟩ := bind_eq_ok.mp h
      simp only [emit_bind, noteAssigned_bind, pure_eq_ok] at h
      obtain ⟨rfl, rfl⟩ := h
      refine .caseOf (.of_ok scrutinee hscrutinee) hvalue rfl hps (.of_ok ?_ harms) rfl
      intro b hb
      exact Lowers.of_branches branches b (mem_deepestFirst.mp hb)
termination_by structural e => e

theorem LowersRest.of_ok : ∀ (es : List Expr) {site : Site} {before code : Code}
    {s s' : Progress}, lowerRest site before es s = .ok (code, s') →
    LowersRest site before es s code s'
  | [], _, _, _, _, _, h => by
      rw [lowerRest] at h
      obtain ⟨rfl, rfl⟩ := pure_eq_ok.mp h
      exact .nil
  | e :: rest, _, _, _, _, _, h => by
      rw [lowerRest] at h
      obtain ⟨code, s₁, he, h⟩ := bind_eq_ok.mp h
      exact .cons (.of_ok e he) (.of_ok rest h)
termination_by structural es => es

theorem LowersArgs.of_ok : ∀ (es : List Expr) {site : Site} {ps : List Parameter}
    {s s' : Progress} {instrs : List Instr} {temps : List String},
    lowerArgs site ps es s = .ok ((instrs, temps), s') →
    LowersArgs site ps es s instrs temps s'
  | [], _, ps, _, _, _, _, h => by
      rw [lowerArgs] at h
      obtain ⟨h, rfl⟩ := pure_eq_ok.mp h
      cases h
      exact .nil
  | e :: rest, _, [], _, _, _, _, h => by
      rw [lowerArgs] at h
      cases h
  | e :: rest, _, p :: ps, _, _, _, _, h => by
      rw [lowerArgs] at h
      obtain ⟨code, s₁, he, h⟩ := bind_eq_ok.mp h
      rw [freshTemp_bind] at h
      obtain ⟨⟨instrs, temps⟩, s₃, hrest, h⟩ := bind_eq_ok.mp h
      obtain ⟨h, rfl⟩ := pure_eq_ok.mp h
      cases h
      exact .cons (.of_ok e he) (.of_ok rest hrest)
termination_by structural es => es

theorem Lowers.of_branches : ∀ (bs : List Branch), ∀ b ∈ bs, ∀ {site : Site} {s s' : Progress}
    {code : Code}, lower site b.body s = .ok (code, s') → Lowers site b.body s code s'
  | [], _, hb => by cases hb
  | .mk _ _ _ body :: rest, b, hb => by
      rcases List.mem_cons.mp hb with rfl | hb
      · exact Lowers.of_ok body
      · exact Lowers.of_branches rest b hb
termination_by structural bs => bs

end

end Cool.Lowering
