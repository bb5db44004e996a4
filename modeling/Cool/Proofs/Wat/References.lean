import Cool.Proofs.Wat.Typing
import Cool.Wat.Render

/-! The names that a module uses. A module is closed if it defines all of them: its code refers to
what the module declares and to the parameters, locals and enclosing labels of the function, types
extend types before them, and constants read constants before them. -/

namespace Cool.Wat

/-- A use of a name, by what the name should stand for. -/
inductive Reference where
  /-- A parameter or local. -/
  | slot (x : String)
  | label (l : String)
  | global (g : String)
  | func (f : String)
  | tag (x : String)
  /-- A type of any kind. -/
  | type (t : String)
  | signature (t : String)
  | array (t : String)
  | struct (t : String)
  | field (t f : String)
deriving DecidableEq, Repr

def Reference.global? : Reference → Option String
  | global g => some g
  | _ => none

/-! ## What is referred to -/

def ValType.references : ValType → List Reference
  | i32 => []
  | ref _ t => [.type t]

def Op.references : Op → List Reference
  | localGet x | localSet x | localTee x => [.slot x]
  | globalGet g => [.global g]
  | call f | refFunc f => [.func f]
  | callRef t => [.signature t]
  | structNew t => [.struct t]
  | structGet t f | structSet t f => [.field t f]
  | refNull t => [.type t]
  | refCast t | refTest t | select t => t.references
  | arrayGetU t | arrayNewFixed t _ | arrayNewDefault t => [.array t]
  | arrayCopy target source => [.array target, .array source]
  | throw tag => [.tag tag]
  | br l | brIf l => [.label l]
  | _ => []

mutual

/-- What an instruction refers to, apart from the labels it declares itself. -/
def Instr.references : Instr → List Reference
  | .plain op operands => op.references ++ Instr.referencesAll operands
  | .whenTrue test body => test.references ++ Instr.referencesAll body
  | .ifElse result onTrue onFalse =>
    result.references ++ Instr.referencesAll onTrue ++ Instr.referencesAll onFalse
  | .block label results body =>
    results.flatMap ValType.references ++ (Instr.referencesAll body).filter (· ≠ .label label)
  | .loop label body => (Instr.referencesAll body).filter (· ≠ .label label)
termination_by structural i => i

def Instr.referencesAll : List Instr → List Reference
  | [] => []
  | i :: is => i.references ++ Instr.referencesAll is
termination_by structural is => is

end

/-- The type that a type extends. -/
def TypeDef.super? : TypeDef → Option String
  | struct _ super _ => super
  | bytes _ | func _ _ _ => none

def TypeDef.references : TypeDef → List Reference
  | bytes _ => []
  | func _ params results => (params ++ results).flatMap ValType.references
  | struct _ super fields =>
    super.toList.map .struct ++ fields.flatMap fun f => f.type.references

def Import.references : Import → List Reference
  | tag _ _ params | func _ _ params => params.flatMap ValType.references

def Global.references (g : Global) : List Reference :=
  g.type.references ++ g.init.references

/-- The parameters and locals of a function. -/
def Func.slots (f : Func) : List (String × ValType) :=
  f.params ++ f.locals

def Func.references (f : Func) : List Reference :=
  f.signature.toList.map .signature ++ f.slots.flatMap (fun s => s.2.references) ++
    f.results.flatMap ValType.references ++ Instr.referencesAll f.body

/-! ## Closed modules -/

/-- Whether code may use a name where no label is declared around it. -/
def CodeContext.Resolves (Γ : CodeContext) : Reference → Prop
  | .slot x => x ∈ Γ.locals.map (·.1)
  | .label _ => False
  | .global g => ∃ t, Γ.module.HasGlobal g t
  | .func f => ∃ params results, Γ.module.HasFunc f params results
  | .tag x => ∃ params, Γ.module.HasTag x params
  | .type t => Γ.module.Defines t
  | .signature t => ∃ params results, .func t params results ∈ Γ.module.types
  | .array t => .bytes t ∈ Γ.module.types
  | .struct t => ∃ fields, Γ.module.HasStruct t fields
  | .field t f => ∃ fields, Γ.module.HasStruct t fields ∧ f ∈ fields.map (·.name)

/-- Whether a name may be used outside of functions. -/
def Module.Resolves (m : Module) : Reference → Prop :=
  CodeContext.Resolves ⟨m, []⟩

/-- Whether the names of the parameters and locals of a function are distinct, and all the names it
uses are defined. -/
structure Func.Closed (m : Module) (f : Func) : Prop where
  slots_nodup : (f.slots.map (·.1)).Nodup
  resolves : ∀ r ∈ f.references, (⟨m, f.slots⟩ : CodeContext).Resolves r

/-- Every definition of a list only uses names that are defined before it. -/
def UsesEarlier {α : Type} (name : α → String) (uses : α → List String) (as : List α) : Prop :=
  ∀ before a after, as = before ++ a :: after → ∀ x ∈ uses a, x ∈ before.map name

/-- The names under which a module exports constants and functions. -/
def Module.exportNames (m : Module) : List String :=
  ((m.globals.filter (·.exported)).map (·.name) ++
    (m.funcs.filter (·.exported)).map (·.name)).map exportName

/-- Whether a module defines all the names it uses, and the types and constants among them in the
order they are needed. -/
structure Module.Closed (m : Module) : Prop where
  imports : ∀ i ∈ m.imports, ∀ r ∈ i.references, m.Resolves r
  types : ∀ t ∈ m.types, ∀ r ∈ t.references, m.Resolves r
  globals : ∀ g ∈ m.globals, ∀ r ∈ g.references, m.Resolves r
  funcs : ∀ f ∈ m.funcs, f.Closed m
  /-- A type extends a type before it. -/
  supers_earlier : UsesEarlier (·.name) (·.super?.toList) m.types
  /-- A constant reads constants before it. -/
  globals_earlier :
    UsesEarlier (·.name) (fun g => g.init.references.filterMap Reference.global?) m.globals

theorem UsesEarlier.nil {α : Type} (name : α → String) (uses : α → List String) :
    UsesEarlier name uses [] := by
  intro before a after heq
  simp at heq

theorem UsesEarlier.append {α : Type} {name : α → String} {uses : α → List String}
    {as bs : List α} (has : UsesEarlier name uses as)
    (hbs : ∀ b ∈ bs, ∀ x ∈ uses b, x ∈ as.map name) : UsesEarlier name uses (as ++ bs) := by
  intro before a after heq x hx
  rcases List.append_eq_append_iff.mp heq with ⟨rest, rfl, hrest⟩ | ⟨rest, has', hrest⟩
  · have ha : a ∈ bs := hrest ▸ by simp
    rw [List.map_append]
    exact List.mem_append_left _ (hbs a ha x hx)
  · cases rest with
    | nil =>
        rw [List.append_nil] at has'
        rw [List.nil_append] at hrest
        rw [← has']
        exact hbs a (hrest ▸ List.mem_cons_self) x hx
    | cons a' rest =>
        cases hrest
        exact has before a rest has' x hx

/-! ## Valid code is closed -/

theorem Instr.referencesAll_eq (is : List Instr) :
    Instr.referencesAll is = is.flatMap Instr.references := by
  induction is with
  | nil => rfl
  | cons i is ih => rw [Instr.referencesAll, ih, List.flatMap_cons]

theorem Module.hasValType_iff {m : Module} {t : ValType} :
    m.HasValType t ↔ ∀ r ∈ t.references, m.Resolves r := by
  cases t with
  | i32 => exact ⟨fun _ => nofun, fun _ => trivial⟩
  | ref n t =>
      rw [ValType.references, List.forall_mem_singleton]
      exact Iff.rfl

theorem Module.resolves_of_hasValTypes {m : Module} {ts : List ValType}
    (hts : ∀ t ∈ ts, m.HasValType t) : ∀ r ∈ ts.flatMap ValType.references, m.Resolves r := by
  intro r hr
  obtain ⟨t, ht, hr⟩ := List.mem_flatMap.mp hr
  exact Module.hasValType_iff.mp (hts t ht) r hr

section

variable {Γ : CodeContext}

/-- What is defined for the module is defined in all of its code. -/
theorem CodeContext.resolves_of_module {r : Reference} (hr : Γ.module.Resolves r) :
    Γ.Resolves r := by
  cases r with
  | slot x => cases hr
  | _ => exact hr

theorem CodeContext.resolves_slot {x : String} {t : ValType} (hx : (x, t) ∈ Γ.locals) :
    Γ.Resolves (.slot x) :=
  List.mem_map_of_mem hx

theorem OpType.resolves {op : Op} {needed given : List ValType} (h : OpType Γ op needed given) :
    ∀ r ∈ op.references, Γ.Resolves r := by
  cases h with
  | localGet hx | localSet hx | localTee hx =>
      exact List.forall_mem_singleton.mpr (CodeContext.resolves_slot hx)
  | globalGet hg => exact List.forall_mem_singleton.mpr ⟨_, hg⟩
  | call hf => exact List.forall_mem_singleton.mpr ⟨_, _, hf⟩
  | callRef ht => exact List.forall_mem_singleton.mpr ⟨_, _, ht⟩
  | structNew ht => exact List.forall_mem_singleton.mpr ⟨_, ht⟩
  | structGet ht hf | structSet ht hf _ =>
      exact List.forall_mem_singleton.mpr ⟨_, ht, List.mem_map_of_mem hf⟩
  | refNull ht | refCast ht _ | refTest ht _ => exact List.forall_mem_singleton.mpr ht
  | refIsNull | refAsNonNull | const | eqz | drop => exact List.forall_mem_nil _
  | integers hop =>
      simp only [List.mem_cons, List.not_mem_nil, or_false] at hop
      rcases hop with rfl | rfl | rfl | rfl | rfl | rfl | rfl <;> exact List.forall_mem_nil _

/-- Whether code may use a name inside of the given labels. -/
def CodeContext.ResolvesUnder (Γ : CodeContext) (labels : Labels) (r : Reference) : Prop :=
  Γ.Resolves r ∨ ∃ l ∈ labels, r = .label l.1

theorem CodeContext.resolvesUnder_of_lookup {labels : Labels} {l : String} {ts : List ValType}
    (hl : labels.lookup l = some ts) : Γ.ResolvesUnder labels (.label l) := by
  obtain ⟨outer, inner, rfl, -⟩ := List.lookup_eq_some_iff.mp hl
  exact .inr ⟨(l, ts), by simp, rfl⟩

theorem LeavesType.resolves {labels : Labels} {op : Op} {needed : List ValType}
    (h : LeavesType Γ labels op needed) : ∀ r ∈ op.references, Γ.ResolvesUnder labels r := by
  cases h with
  | br hl => exact List.forall_mem_singleton.mpr (CodeContext.resolvesUnder_of_lookup hl)
  | throw hx => exact List.forall_mem_singleton.mpr (.inl ⟨_, hx⟩)

/-- A label is in scope in the code it is declared around. -/
theorem CodeContext.resolvesUnder_declared {labels : Labels} {label : String}
    {ts : List ValType} {rs : List Reference}
    (hrs : ∀ r ∈ rs, Γ.ResolvesUnder ((label, ts) :: labels) r) :
    ∀ r ∈ rs.filter (· ≠ .label label), Γ.ResolvesUnder labels r := by
  intro r hr
  obtain ⟨hr, hne⟩ := List.mem_filter.mp hr
  refine (hrs r hr).imp_right ?_
  rintro ⟨l, hl, rfl⟩
  rcases List.mem_cons.mp hl with rfl | hl
  · exact absurd rfl (of_decide_eq_true hne)
  · exact ⟨l, hl, rfl⟩

mutual

theorem Types.resolves : ∀ {labels : Labels} {i : Instr} {ts us : List ValType},
    Types Γ labels i ts us → ∀ r ∈ i.references, Γ.ResolvesUnder labels r
  | _, _, _, _, .plain hoperands hop _ => by
      rw [Instr.references]
      exact List.forall_mem_append.mpr ⟨fun r hr => .inl (hop.resolves r hr), hoperands.resolves⟩
  | _, _, _, _, .brIf hoperands hlabel _ => by
      rw [Instr.references]
      exact List.forall_mem_append.mpr ⟨List.forall_mem_singleton.mpr
        (CodeContext.resolvesUnder_of_lookup hlabel), hoperands.resolves⟩
  | _, _, _, _, .leaves hoperands hop _ => by
      rw [Instr.references]
      exact List.forall_mem_append.mpr ⟨hop.resolves, hoperands.resolves⟩
  | _, _, _, _, .whenTrue htest hbody => by
      have htest := htest.resolves
      rw [Instr.referencesAll, Instr.referencesAll, List.append_nil] at htest
      rw [Instr.references]
      exact List.forall_mem_append.mpr ⟨htest, hbody.resolves⟩
  | _, _, _, _, .ifElse hresult htrue hfalse => by
      rw [Instr.references]
      refine List.forall_mem_append.mpr ⟨List.forall_mem_append.mpr ⟨?_, htrue.resolves⟩,
        hfalse.resolves⟩
      exact fun r hr => .inl (CodeContext.resolves_of_module (Module.hasValType_iff.mp hresult r hr))
  | _, _, _, _, .block hresults hbody => by
      rw [Instr.references]
      refine List.forall_mem_append.mpr ⟨fun r hr => .inl ?_,
        CodeContext.resolvesUnder_declared hbody.resolves⟩
      exact CodeContext.resolves_of_module (Module.resolves_of_hasValTypes hresults r hr)
  | _, _, _, _, .loop hbody => by
      rw [Instr.references]
      exact CodeContext.resolvesUnder_declared hbody.resolves

theorem TypesAll.resolves : ∀ {labels : Labels} {is : List Instr} {ts us : List ValType},
    TypesAll Γ labels is ts us → ∀ r ∈ Instr.referencesAll is, Γ.ResolvesUnder labels r
  | _, _, _, _, .nil _ => nofun
  | _, _, _, _, .cons hi his => by
      rw [Instr.referencesAll]
      exact List.forall_mem_append.mpr ⟨hi.resolves, his.resolves⟩

end

end

/-- A function is closed if its code is and the types around its code are defined. -/
theorem Func.closed_of_body {m : Module} {f : Func} (hnodup : (f.slots.map (·.1)).Nodup)
    (hsignature : ∀ t, f.signature = some t → m.Resolves (.signature t))
    (hslots : ∀ s ∈ f.slots, m.HasValType s.2) (hresults : ∀ t ∈ f.results, m.HasValType t)
    (hbody : ∀ r ∈ Instr.referencesAll f.body, (⟨m, f.slots⟩ : CodeContext).Resolves r) :
    f.Closed m := by
  refine ⟨hnodup, List.forall_mem_append.mpr ⟨fun r hr => ?_, hbody⟩⟩
  refine CodeContext.resolves_of_module (Γ := ⟨m, f.slots⟩) ?_
  rw [List.mem_append, List.mem_append] at hr
  rcases hr with (hr | hr) | hr
  · obtain ⟨t, ht, rfl⟩ := List.mem_map.mp hr
    exact hsignature t (Option.mem_toList.mp ht)
  · obtain ⟨s, hs, hr⟩ := List.mem_flatMap.mp hr
    exact Module.hasValType_iff.mp (hslots s hs) r hr
  · exact Module.resolves_of_hasValTypes hresults r hr

/-- A valid function is closed. -/
theorem Func.Valid.closed {m : Module} {f : Func} (hf : f.Valid m) : f.Closed m := by
  refine closed_of_body hf.slots_nodup (fun t ht => ⟨_, _, hf.signature_matches t ht⟩)
    hf.slots_defined hf.results_defined fun r hr => ?_
  rcases hf.body_typed.resolves r hr with hr | ⟨l, hl, -⟩
  · exact hr
  · cases hl

end Cool.Wat
