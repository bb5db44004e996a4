import Cool.Proofs.Lowering.Growth
import Cool.Proofs.Lowering.Interface
import Cool.Proofs.Tree.Nodes
import Mathlib.Data.List.Induction

/-! The pieces that code is made of, and what they leave on the operand stack. -/

namespace Cool.Lowering

open Wat Typing

/-! ## Slots of functions -/

theorem localId_inj {x y : Name} (hx : x.isIdentifier = true) (hy : y.isIdentifier = true)
    (hxy : localId x = localId y) : x = y := by
  rw [localId, localId, String.append_right_inj] at hxy
  exact Name.text_inj hx hy hxy

/-- The locals that are of no variable have a sharp sign in their names. -/
def IsSharp (z : String) : Prop :=
  '#' ∈ z.toList

theorem not_isSharp_localId {x : Name} (hx : x.isIdentifier = true) : ¬ IsSharp (localId x) := by
  rw [IsSharp, localId, String.toList_append, List.mem_append, not_or]
  exact ⟨by decide, Name.not_mem_text hx (by decide)⟩

theorem localId_self : localId .self = selfLocal := by
  decide

/-- The parameters and locals of a function do not collide: those of variables, the receiver, and
those with a sharp sign. -/
theorem slots_nodup {xs : List Name} (hxs : xs.Nodup)
    (hnamed : ∀ x ∈ xs, x.isIdentifier = true ∧ x ≠ .self) {zs : List String} (hzs : zs.Nodup)
    (hsharp : ∀ z ∈ zs, IsSharp z) : (selfLocal :: xs.map localId ++ zs).Nodup := by
  have hall : ∀ x ∈ Name.self :: xs, x.isIdentifier = true :=
    List.forall_mem_cons.mpr ⟨by decide, fun x hx => (hnamed x hx).1⟩
  have hvariables : ((Name.self :: xs).map localId).Nodup := by
    refine List.Nodup.map_on (fun x hx y hy => localId_inj (hall x hx) (hall y hy)) ?_
    exact List.nodup_cons.mpr ⟨fun hself => (hnamed _ hself).2 rfl, hxs⟩
  rw [← localId_self, ← List.map_cons]
  refine List.nodup_append'.mpr ⟨hvariables, hzs, fun z hz hz' => ?_⟩
  obtain ⟨x, hx, rfl⟩ := List.mem_map.mp hz
  exact not_isSharp_localId (hall x hx) (hsharp _ hz')

theorem isSharp_tempName (i : Nat) : IsSharp (tempName i) := by
  simp [IsSharp, tempName]

theorem tempName_inj {i j : Nat} (hij : tempName i = tempName j) : i = j := by
  rw [tempName, tempName, String.append_right_inj] at hij
  exact natRepr_injective hij

theorem tempsFrom_names (i : Nat) (ts : List ValType) :
    (tempsFrom i ts).map (·.1) = (List.range' i ts.length).map tempName := by
  rw [tempsFrom, List.map_map, ← List.zipIdx_map_snd, List.map_map]
  rfl

theorem tempsFrom_nodup (i : Nat) (ts : List ValType) : ((tempsFrom i ts).map (·.1)).Nodup := by
  rw [tempsFrom_names]
  exact List.Nodup.map (fun _ _ => tempName_inj) List.nodup_range'

theorem isSharp_tempsFrom (i : Nat) (ts : List ValType) :
    ∀ z ∈ (tempsFrom i ts).map (·.1), IsSharp z := by
  intro z hz
  rw [tempsFrom_names] at hz
  obtain ⟨j, -, rfl⟩ := List.mem_map.mp hz
  exact isSharp_tempName j

/-! ## Contexts of code -/

/-- The locals of a function that hold variables. -/
def slots (current : Name) (ps : List Parameter) : List (String × ValType) :=
  ps.map fun p => (localId p.name, valueType (Members.resolve p.type current))

theorem liftedParams_typedLocal (current : Name) (ps : List Parameter) :
    liftedParams (ps.map (Site.typedLocal current)) = slots current ps := by
  rw [liftedParams, slots, List.map_map]
  rfl

theorem slots_names (current : Name) (ps : List Parameter) :
    (slots current ps).map (·.1) = (ps.map (·.name)).map localId := by
  rw [slots, List.map_map, List.map_map]
  rfl

/-- What an expression sees at a site is what its code refers to. -/
structure Site.Fits (site : Site) (cx : Context) (L : Env) (Γ : CodeContext) : Prop
    extends site.Matches cx L where
  covers : cx.Covers L
  provides : Provides Γ.module cx.members site.pool
  self : (selfLocal, valueType cx.current) ∈ Γ.locals
  locals : ∀ l ∈ slots cx.current site.locals, l ∈ Γ.locals
  named : ∀ p ∈ site.locals, p.name.isIdentifier = true ∧ p.name ≠ .self

/-- The code of a function in a module refers to everything declared so far. -/
structure Declared (Γ : CodeContext) (s : Progress) : Prop where
  locals : ∀ l ∈ s.frame.locals, l ∈ Γ.locals
  funcs : ∀ f ∈ s.funcs, f ∈ Γ.module.funcs

theorem Declared.before {Γ : CodeContext} {site : Site} {s s' : Progress} (h : Declared Γ s')
    (hg : Grown site s s') : Declared Γ s :=
  ⟨fun l hl => h.locals l (hg.frame.mem_locals hl), fun f hf => h.funcs f (hg.funcs.mem_funcs hf)⟩

/-- What is added between two states is well typed: the functions, and the scratch locals. -/
structure AddsTyped (cx : Context) (m : Module) (s s' : Progress) : Prop where
  funcs : ∀ f ∈ s'.funcs, f ∈ s.funcs ∨ f.Valid m
  locals : ∀ l ∈ s'.frame.locals,
    l ∈ s.frame.locals ∨ ∃ c ∈ cx.hierarchy.names, l.2 = valueType c

namespace AddsTyped

variable {cx : Context} {m : Module} {s s₁ s₂ : Progress}

theorem refl (s : Progress) : AddsTyped cx m s s :=
  ⟨fun _ hf => .inl hf, fun _ hl => .inl hl⟩

theorem trans (h : AddsTyped cx m s s₁) (h' : AddsTyped cx m s₁ s₂) : AddsTyped cx m s s₂ := by
  refine ⟨fun f hf => ?_, fun l hl => ?_⟩
  · rcases h'.funcs f hf with hf | hvalid
    · exact h.funcs f hf
    · exact .inr hvalid
  · rcases h'.locals l hl with hl | htyped
    · exact h.locals l hl
    · exact .inr htyped

theorem withTemp (s : Progress) {c : Name} (hc : c ∈ cx.hierarchy.names) :
    AddsTyped cx m s (s.withTemp (valueType c)) := by
  refine ⟨fun _ hf => .inl hf, fun l hl => ?_⟩
  rcases List.mem_append.mp hl with hl | hl
  · exact .inl hl
  · exact .inr ⟨c, hc, by rw [List.mem_singleton.mp hl]⟩

theorem emitting (s : Progress) {f : Func} (hf : f.Valid m) : AddsTyped cx m s (s.emitting f) := by
  refine ⟨fun g hg => ?_, fun _ hl => .inl hl⟩
  rcases List.mem_append.mp hg with hg | hg
  · exact .inl hg
  · exact .inr (List.mem_singleton.mp hg ▸ hf)

end AddsTyped

/-! ## Pieces of code -/

section

variable {cx : Context} {L : Env} {Γ : CodeContext} {site : Site}

theorem Site.Fits.runs_local (hfits : site.Fits cx L Γ) {p : Parameter} (hp : p ∈ site.locals) :
    Γ.Runs [getLocal (localId p.name)] [] [valueType (Members.resolve p.type cx.current)] :=
  .getLocal (hfits.locals _ (List.mem_map_of_mem hp))

theorem objectFields_eq {ms : Members} {c : Name} (hc : c.isPrimitive = false) :
    objectFields c (ms.attributes c c) = ⟨tableField, false, .ref false (tableType c)⟩ ::
      (ms.attributes c c).map fun a => ⟨fieldId a.name, true, valueType (attributeLayout a)⟩ := by
  have hne : ¬ (c = .int ∨ c = .bool) ∧ c ≠ .string := by
    simp only [Name.isPrimitive, Bool.or_eq_false_iff, decide_eq_false_iff_not] at hc
    tauto
  rw [objectFields, dataFields, if_neg hne.1, if_neg hne.2]

/-- The field of an attribute in the objects of a class. -/
theorem hasField {ms : Members} {c : Name} (hc : c.isPrimitive = false) {a : AttributeEntry}
    (ha : a ∈ ms.attributes c c) :
    (⟨fieldId a.name, true, valueType (attributeLayout a)⟩ : Field) ∈
      objectFields c (ms.attributes c c) := by
  rw [objectFields_eq hc]
  exact List.mem_cons_of_mem _ (List.mem_map_of_mem ha)

theorem Site.Matches.layout_mem (hmatches : site.Matches cx L) (hcx : cx.Proper) {t c : Name}
    (ht : cx.IsType t) (hc : site.layout t = .ok c) :
    c = Members.resolve t cx.current ∧ c ∈ cx.hierarchy.names := by
  obtain ⟨rfl, -⟩ := Site.layout_eq_ok hc
  rw [hmatches.current]
  exact ⟨rfl, hcx.resolve_mem ht⟩

theorem Site.Matches.runs_default (hmatches : site.Matches cx L) (hcx : cx.Proper)
    (hm : Provides Γ.module cx.members site.pool) {t : Name} (ht : cx.IsType t) {i : Instr}
    (hi : site.Defaults t i) : Γ.Runs [i] [] [valueType (Members.resolve t cx.current)] := by
  cases hi with
  | int hg => exact Provides.runs_global (hm.hasGlobal_int hg)
  | string hg => exact Provides.runs_global (hm.hasGlobal_text hg)
  | bool => exact Provides.runs_global (hm.hasGlobal_bool false)
  | void _ hc =>
      obtain ⟨rfl, hmem⟩ := hmatches.layout_mem hcx ht hc
      exact .op (.refNull (hm.defines hmem)) .nil

variable (hcx : cx.Proper) (hfits : site.Fits cx L Γ)

include hcx hfits

theorem Site.Fits.layout_mem {t c : Name} (ht : cx.IsType t) (hc : site.layout t = .ok c) :
    c = Members.resolve t cx.current ∧ c ∈ cx.hierarchy.names :=
  hfits.toMatches.layout_mem hcx ht hc

omit hfits in
theorem attributeLayout_mem {a : AttributeEntry}
    (ha : a ∈ cx.members.attributes cx.current cx.current) (ht : cx.IsType a.type) :
    attributeLayout a ∈ cx.hierarchy.names := by
  unfold attributeLayout
  split
  · have hseen := hcx.coherent.seenAttribute hcx.current_mem a ha
    exact hseen.below_owner.mem_names hcx.rooted hcx.current_mem
  · rename_i hself
    exact ht.resolve_left hself

theorem Site.Fits.read_typed (hprim : cx.current.isPrimitive = false) {x t : Name} {code : Code}
    (hx : L x = some t) (hcode : site.Reads x code) : code.Typed cx Γ := by
  cases hcode with
  | self =>
      rw [hfits.current]
      exact ⟨hcx.current_mem, .getLocal hfits.self⟩
  | field hself hlookup hc =>
      obtain ⟨a, ha, rfl, rfl, rfl⟩ := hfits.attribute hcx.toInstalled hlookup hc
      have htype := hfits.type_of_lookup hself hx hlookup
      have hmem := attributeLayout_mem hcx ha (htype ▸ hfits.covers _ _ hx)
      rw [hfits.current]
      refine ⟨hmem, (CodeContext.Runs.getLocal hfits.self).cons (.op ?_ (.refl _))⟩
      exact .structGet (hfits.provides.hasObject hcx.current_mem) (hasField hprim ha)
  | «local» hself hlookup hc =>
      obtain rfl := hfits.type_of_lookup hself hx hlookup
      obtain ⟨rfl, hmem⟩ := hfits.layout_mem hcx (hfits.covers _ _ hx) hc
      refine ⟨hmem, hfits.runs_local (p := ⟨x, _⟩) ?_⟩
      exact Site.mem_locals.mpr (Site.localTypes_eq_some.mpr hlookup)

end

/-! ## Lifted functions -/

theorem runs_store {Γ : CodeContext} {back : List (Name × ValType)}
    (hback : ∀ q ∈ back, (localId q.1, q.2) ∈ Γ.locals) (base : List ValType) :
    Γ.Runs (back.reverse.map fun q => .plain (.localSet (localId q.1)) [])
      (base ++ back.map (·.2)) base := by
  induction back using List.reverseRecOn with
  | nil =>
      rw [List.map_nil, List.append_nil]
      exact .nil base
  | append_singleton back q ih =>
      obtain ⟨hback, hq⟩ := List.forall_mem_append.mp hback
      rw [List.reverse_append, List.map_append, List.map_append, ← List.append_assoc]
      refine CodeContext.Runs.append ?_ (ih hback)
      have hset := CodeContext.Runs.op (.localSet (hq q (List.mem_singleton_self q))) (.refl _)
      have hframe := hset.frame (base ++ back.map (·.2))
      rwa [List.append_nil] at hframe

theorem runs_callLifted {Γ : CodeContext} {name : String} {params : List ValType}
    {value : ValType} {back : List (Name × ValType)}
    (hfunc : Γ.module.HasFunc name params (value :: back.map (·.2)))
    (hback : ∀ q ∈ back, (localId q.1, q.2) ∈ Γ.locals) :
    Γ.Runs (callLifted name back) params [value] :=
  (CodeContext.Runs.op (.call hfunc) (.refl _)).cons (runs_store hback [value])

theorem mem_handedBack {ps : List (Name × ValType)} {assigned : List Name} {bound : Name}
    {q : Name × ValType} (hq : q ∈ handedBack ps assigned bound) : q ∈ ps ∧ q.1 ≠ bound := by
  obtain ⟨hmem, hkept⟩ := List.mem_filter.mp hq
  simp only [Bool.and_eq_true, decide_eq_true_eq] at hkept
  exact ⟨hmem, hkept.1⟩

/-- A local with the type of an object. -/
def IsObjectSlot (cx : Context) (l : String × ValType) : Prop :=
  ∃ c ∈ cx.hierarchy.names, l.2 = valueType c

/-- A function whose parameters and locals all hold objects. -/
theorem valid_of_objectSlots {cx : Context} {m : Module} {pool : Pool}
    (hm : Provides m cx.members pool) {f : Func} (hnodup : ((f.params ++ f.locals).map (·.1)).Nodup)
    (hslots : ∀ l ∈ f.params ++ f.locals, IsObjectSlot cx l)
    (hresults : ∀ t ∈ f.results, m.HasValType t)
    (hsignature : ∀ t, f.signature = some t → .func t (f.params.map (·.2)) f.results ∈ m.types)
    (hbody : TypesAll ⟨m, f.params ++ f.locals⟩ [] f.body [] f.results) : f.Valid m := by
  refine ⟨hnodup, ?_, hresults, ?_, hsignature, hbody⟩
  · intro l hl
    obtain ⟨c, hc, htype⟩ := hslots l hl
    rw [htype]
    exact hm.defines hc
  · intro l hl t heq
    obtain ⟨c, -, htype⟩ := hslots l (List.mem_append_right _ hl)
    rw [htype] at heq
    cases heq

section

variable {cx : Context} {m : Module} {pool : Pool} {ps : List Parameter}
variable {extra locals : List (String × ValType)}

/-- When a function around the receiver and variables is valid. -/
theorem liftedFunc_valid (hcx : cx.Proper) (hm : Provides m cx.members pool)
    (hnodup : (ps.map (·.name)).Nodup)
    (hnamed : ∀ p ∈ ps, p.name.isIdentifier = true ∧ p.name ≠ .self)
    (htyped : ∀ p ∈ ps, cx.IsType p.type) (hsharps : ((extra ++ locals).map (·.1)).Nodup)
    (hextra : ∀ l ∈ extra ++ locals, IsSharp l.1 ∧ IsObjectSlot cx l) {name : String}
    {value : Name} (hvalue : value ∈ cx.hierarchy.names) {back : List (Name × ValType)}
    (hback : ∀ q ∈ back, (localId q.1, q.2) ∈ slots cx.current ps) {body : List Instr}
    (hbody : TypesAll
      ⟨m, (selfLocal, valueType cx.current) :: (extra ++ slots cx.current ps) ++ locals⟩ [] body []
      [valueType value]) :
    (liftedFunc name ((selfLocal, valueType cx.current) :: (extra ++ slots cx.current ps))
      (valueType value) back locals body).Valid m := by
  have hslots : ∀ l ∈ slots cx.current ps, IsObjectSlot cx l := by
    intro l hl
    obtain ⟨p, hp, rfl⟩ := List.mem_map.mp hl
    exact ⟨_, hcx.resolve_mem (htyped p hp), rfl⟩
  have hdefined : ∀ l, IsObjectSlot cx l → m.HasValType l.2 := by
    rintro l ⟨c, hc, htype⟩
    rw [htype]
    exact hm.defines hc
  refine valid_of_objectSlots hm ?_ ?_ ?_ nofun ?_
  · have hperm : ((selfLocal, valueType cx.current) :: (extra ++ slots cx.current ps) ++
        locals).Perm ((selfLocal, valueType cx.current) :: slots cx.current ps ++
          (extra ++ locals)) := by
      simp only [List.cons_append, List.append_assoc]
      exact List.Perm.cons _ (List.perm_append_comm_assoc _ _ _)
    refine (hperm.map (·.1)).nodup_iff.mpr ?_
    rw [List.map_append, List.map_cons, slots_names]
    exact slots_nodup hnodup (List.forall_mem_map.mpr hnamed) hsharps
      (List.forall_mem_map.mpr fun l hl => (hextra l hl).1)
  · intro l hl
    rcases List.mem_append.mp hl with hl | hl
    · rcases List.mem_cons.mp hl with rfl | hl
      · exact ⟨_, hcx.current_mem, rfl⟩
      · rcases List.mem_append.mp hl with hl | hl
        · exact (hextra l (List.mem_append_left _ hl)).2
        · exact hslots l hl
    · exact (hextra l (List.mem_append_right _ hl)).2
  · refine List.forall_mem_cons.mpr ⟨hm.defines hvalue, List.forall_mem_map.mpr fun q hq => ?_⟩
    exact hdefined (localId q.1, q.2) (hslots _ (hback q hq))
  · have hgets : CodeContext.Runs
        ⟨m, (selfLocal, valueType cx.current) :: (extra ++ slots cx.current ps) ++ locals⟩
        (back.map fun q => getLocal (localId q.1)) [] (back.map (·.2)) := by
      refine .pushes_map fun q hq => .getLocal ?_
      exact List.mem_append_left _ (List.mem_cons_of_mem _ (List.mem_append_right _ (hback q hq)))
    exact hbody.append (hgets.push _ _)

end

/-- A function lifted around the binding of a variable, as its callers see it. -/
structure Site.Lifted (site : Site) (cx : Context) (m : Module) (name : String)
    (x type value : Name) (back : List (Name × ValType)) : Prop where
  func : m.HasFunc name
    (valueType cx.current :: (slots cx.current (site.localsWith x type)).map (·.2))
    (valueType value :: back.map (·.2))
  back : ∀ q ∈ back, ∃ p ∈ site.locals, q = Site.typedLocal cx.current p

theorem passed_of_isIdentifier {x : Name} (hx : x.isIdentifier = true) (L : Env) (t : Name) :
    passed L x t = L.bind x t := by
  cases x with
  | anonymous => cases hx
  | named text => rfl

theorem mem_locals_of_localsWith {site : Site} {x type : Name} {p : Parameter}
    (hx : x.isIdentifier = true) (hp : p ∈ site.localsWith x type) :
    (p.name = x ∧ p.type = type) ∨ (p.name ≠ x ∧ p ∈ site.locals) := by
  rw [Site.mem_localsWith, passed_of_isIdentifier hx, Env.bind] at hp
  split at hp
  · rename_i hname
    exact .inl ⟨hname, (Option.some.inj hp).symm⟩
  · rename_i hname
    exact .inr ⟨hname, Site.mem_locals.mpr hp⟩

section

variable {cx : Context} {L : Env} {Γ : CodeContext} {site : Site} {x type value : Name}

theorem Site.Fits.runs_liftedArgs (hfits : site.Fits cx L Γ) (hx : x.isIdentifier = true)
    {bound : Instr}
    (hbound : Γ.Runs [bound] [] [valueType (Members.resolve type cx.current)]) :
    Γ.Runs (site.liftedArgs x type bound) []
      (valueType cx.current :: (slots cx.current (site.localsWith x type)).map (·.2)) := by
  refine CodeContext.Runs.cons (.getLocal hfits.self) ?_
  rw [slots, List.map_map]
  refine CodeContext.Runs.push (.pushes_map fun p hp => ?_) [valueType cx.current]
  rcases mem_locals_of_localsWith hx hp with ⟨hname, htype⟩ | ⟨hname, hp⟩
  · rw [if_pos hname, Function.comp_apply, htype]
    exact hbound
  · rw [if_neg hname]
    exact hfits.runs_local hp

theorem Site.Fits.runs_callLifted (hfits : site.Fits cx L Γ) {name : String}
    {back : List (Name × ValType)} (hlifted : site.Lifted cx Γ.module name x type value back) :
    Γ.Runs (callLifted name back)
      (valueType cx.current :: (slots cx.current (site.localsWith x type)).map (·.2))
      [valueType value] := by
  refine Lowering.runs_callLifted hlifted.func fun q hq => ?_
  obtain ⟨p, hp, rfl⟩ := hlifted.back q hq
  exact hfits.locals _ (List.mem_map_of_mem hp)

theorem Site.Fits.localsWith_named (hfits : site.Fits cx L Γ) (hx : x.isIdentifier = true)
    (hself : x ≠ .self) :
    ∀ p ∈ site.localsWith x type, p.name.isIdentifier = true ∧ p.name ≠ .self := by
  intro p hp
  rcases mem_locals_of_localsWith hx hp with ⟨hname, -⟩ | ⟨-, hp⟩
  · rw [hname]
    exact ⟨hx, hself⟩
  · exact hfits.named p hp

theorem Site.Fits.local_typed (hfits : site.Fits cx L Γ) {p : Parameter} (hp : p ∈ site.locals) :
    cx.IsType p.type := by
  refine hfits.covers p.name p.type ?_
  rw [hfits.lookup _ (hfits.named p hp).2,
    Site.localTypes_eq_some.mp (Site.mem_locals.mp hp)]
  rfl

theorem Site.Fits.localsWith_typed (hfits : site.Fits cx L Γ) (hx : x.isIdentifier = true)
    (ht : cx.IsType type) :
    ∀ p ∈ site.localsWith x type, cx.IsType p.type := by
  intro p hp
  rcases mem_locals_of_localsWith hx hp with ⟨-, htype⟩ | ⟨-, hp⟩
  · exact htype ▸ ht
  · exact hfits.local_typed hp

/-- The body of a lifted function sees the variable it binds. -/
theorem Site.Fits.lift (hfits : site.Fits cx L Γ) (hx : x.isIdentifier = true)
    (hself : x ≠ .self) (ht : cx.IsType type) (locals : List (String × ValType)) :
    (site.bind x type).Fits cx (L.bind x type) ⟨Γ.module, (selfLocal, valueType cx.current) ::
      ([] ++ slots cx.current (site.localsWith x type)) ++ locals⟩ := by
  have hmem : ∀ p ∈ (site.bind x type).locals, p ∈ site.localsWith x type := by
    intro p hp
    rwa [Site.mem_locals, Site.localTypes_bind, ← passed_of_isIdentifier hx,
      ← Site.mem_localsWith] at hp
  refine ⟨hfits.toMatches.bind x type, hfits.covers.bind ht, hfits.provides, List.mem_cons_self,
    ?_, ?_⟩
  · intro l hl
    obtain ⟨p, hp, rfl⟩ := List.mem_map.mp hl
    exact List.mem_append_left _ (List.mem_cons_of_mem _ (List.mem_map_of_mem (hmem p hp)))
  · exact fun p hp => hfits.localsWith_named hx hself p (hmem p hp)

/-- The function that selects a branch sees what the case sees. -/
theorem Site.Fits.reslot (hfits : site.Fits cx L Γ) (extra locals : List (String × ValType)) :
    site.Fits cx L ⟨Γ.module,
      (selfLocal, valueType cx.current) :: (extra ++ slots cx.current site.locals) ++ locals⟩ :=
  ⟨hfits.toMatches, hfits.covers, hfits.provides, List.mem_cons_self,
    fun _ hl => List.mem_append_left _ (List.mem_cons_of_mem _ (List.mem_append_right _ hl)),
    hfits.named⟩

end

/-! ## Typing of code -/

theorem Declared.beforeTemp {Γ : CodeContext} {s : Progress} {t : ValType}
    (h : Declared Γ (s.withTemp t)) : Declared Γ s :=
  ⟨fun l hl => h.locals l (List.mem_append_left _ hl), h.funcs⟩

theorem Declared.uncounted {Γ : CodeContext} {s : Progress} (h : Declared Γ s.counted) :
    Declared Γ s :=
  ⟨h.locals, h.funcs⟩

/-- Lifting a function leaves the frame as it was. -/
theorem Declared.of_frame {Γ : CodeContext} {cls : Name} {own : List Role} {s s' : Progress}
    (hframe : s'.frame = s.frame) (hgrow : FuncsGrow cls own s s')
    (hlocals : ∀ l ∈ s'.frame.locals, l ∈ Γ.locals) (hfuncs : ∀ f ∈ s'.funcs, f ∈ Γ.module.funcs) :
    Declared Γ s :=
  ⟨fun l hl => hlocals l (hframe ▸ hl), fun f hf => hfuncs f (hgrow.mem_funcs hf)⟩

theorem Declared.temp {Γ : CodeContext} {s : Progress} {t : ValType}
    (h : Declared Γ (s.withTemp t)) : (tempName s.frame.temps, t) ∈ Γ.locals :=
  h.locals _ (List.mem_append_right _ (List.mem_singleton_self _))

section

variable {cx : Context} {L : Env} {Γ : CodeContext} {site : Site} {code : Code}
variable (hcx : cx.Proper) (hfits : site.Fits cx L Γ)

include hcx hfits

theorem Site.Fits.coerced (hcode : code.Typed cx Γ) {want : Name}
    (hwant : want ∈ cx.hierarchy.names) :
    Γ.Runs (site.coerced want code) [] [valueType want] := by
  unfold Site.coerced Site.coerce
  split
  · rename_i hconforms
    rw [hfits.members, hfits.current] at hconforms
    have hbelow := (Hierarchy.conforms_class_iff hcx.rooted (.inr hcode.mem) hwant).mp
      ((hcx.conforms_iff (.inr hcode.mem) (.inr hwant)).mp hconforms)
    rw [if_neg (hcx.coherent.ne_selfType hcode.mem)] at hbelow
    rw [List.append_nil]
    exact hcode.runs.subsume (.singleton (hfits.provides.subtype_of_inherits hbelow))
  · exact hcode.runs.append (hfits.provides.runs_cast hcx hcode.mem hwant)

theorem Site.Fits.unboxed (hcode : code.Typed cx Γ) {c : Name} (hc : c = .int ∨ c = .bool) :
    Γ.Runs (site.unboxed c code) [] [.i32] := by
  have hunbox : unboxDefinition c ∈ boxing ++ [stringEqualsDefinition, objectEqualsDefinition] := by
    rcases hc with rfl | rfl <;> simp [boxing]
  have hmem : c ∈ cx.hierarchy.names := by
    rcases hc with rfl | rfl <;> exact hcx.builtin_mem _ rfl
  exact (hfits.coerced hcx hcode hmem).append
    (.op (.call (hfits.provides.hasFunc_helper hunbox)) (.refl _))

omit hcx in
theorem Site.Fits.slot_mem {x t : Name} (hlookup : site.scope.lookup x = some ⟨.local, t⟩) :
    (localId x, valueType (Members.resolve t cx.current)) ∈ Γ.locals :=
  hfits.locals _ (List.mem_map_of_mem (a := ⟨x, t⟩)
    (Site.mem_locals.mpr (Site.localTypes_eq_some.mpr hlookup)))

theorem Site.Fits.allocate_typed {type : Name} (ht : cx.IsType type) :
    (site.allocate type).Typed cx Γ := by
  have hobject := hcx.builtin_mem .object rfl
  unfold Site.allocate
  split
  · have htable : Γ.Runs [.plain (.structGet (classType cx.current) tableField) []]
        [valueType cx.current] [.ref false (tableType cx.current)] :=
      .op (.structGet (hfits.provides.hasObject hcx.current_mem) List.mem_cons_self) (.refl _)
    have hnew : Γ.Runs [.plain (.structGet (tableType cx.current) newField) []]
        [.ref false (tableType cx.current)] [.ref false newSignature] :=
      .op (.structGet (hfits.provides.hasTable hcx.current_mem) List.mem_cons_self)
        (.singleton (.ref (fun _ => rfl) .refl))
    have hcall : Γ.Runs [.plain (.callRef newSignature) []] [.ref false newSignature]
        [objectType .object] :=
      .op (.callRef (hfits.provides.fixed (.func newSignature [] [objectType .object])
        (by simp [fixedTypes]))) (.singleton (.ref (fun _ => rfl) .refl))
    rw [hfits.current]
    refine ⟨hobject, (CodeContext.Runs.getLocal hfits.self).cons (htable.cons (hnew.cons ?_))⟩
    exact hcall.subsume (.singleton (Provides.subtype_nullable .object))
  · rename_i hself
    have hmem := ht.resolve_left hself
    refine ⟨hmem, (CodeContext.Runs.op (.call (hfits.provides.allocator type hmem)) .nil).subsume ?_⟩
    exact .singleton (Provides.subtype_nullable type)

theorem Site.Fits.runs_setField (hprim : cx.current.isPrimitive = false) {a : AttributeEntry}
    (ha : a ∈ cx.members.attributes cx.current cx.current) {tmp : String}
    (htmp : (tmp, valueType (attributeLayout a)) ∈ Γ.locals) :
    Γ.Runs [.plain (.localSet tmp) [],
        .plain (.structSet (classType site.current) (fieldId a.name))
          [getLocal selfLocal, getLocal tmp],
        getLocal tmp]
      [valueType (attributeLayout a)] [valueType (attributeLayout a)] := by
  rw [hfits.current]
  refine CodeContext.Runs.cons (.op (.localSet htmp) (.refl _)) (.cons (.folded ?_
    (.structSet (hfits.provides.hasObject hcx.current_mem) (hasField hprim ha) rfl) (.refl _))
    (.getLocal htmp))
  exact (CodeContext.Runs.getLocal hfits.self).cons ((CodeContext.Runs.getLocal htmp).push _)

omit hfits in
theorem resultLayout_mem {c : Name} (hc : c ∈ cx.hierarchy.names) {e : MethodEntry}
    (he : e ∈ cx.members.methods c c) : resultLayout e ∈ cx.hierarchy.names := by
  have hseen := hcx.coherent.seenMethod hc e he
  unfold resultLayout
  split
  · exact hseen.below_intro.mem_names hcx.rooted (hseen.below_definer.mem_names hcx.rooted hc)
  · rename_i hself
    exact hseen.result_typed.resolve_left hself

theorem Site.Fits.call_typed {c : Name} (hc : c ∈ cx.hierarchy.names) {e : MethodEntry}
    (he : e ∈ cx.members.methods c c) {before : List Instr} (hbefore : Γ.Runs before [] [])
    (hcode : code.Typed cx Γ) {temps : List String}
    (htemps : List.Forall₂ (fun x p => (x, valueType p.type) ∈ Γ.locals) temps e.params)
    {callee : String}
    (hcallee : Γ.module.HasFunc callee e.operands [valueType (resultLayout e)]) :
    (⟨before ++ site.coerced e.intro code ++ temps.map getLocal ++ [.plain (.call callee) []],
      resultLayout e⟩ : Code).Typed cx Γ := by
  have hseen := hcx.coherent.seenMethod hc e he
  have hintro : e.intro ∈ cx.hierarchy.names :=
    hseen.below_intro.mem_names hcx.rooted (hseen.below_definer.mem_names hcx.rooted hc)
  refine ⟨resultLayout_mem hcx hc he, ?_⟩
  have hargs : Γ.Runs (temps.map getLocal) [] (e.params.map fun p => valueType p.type) := by
    refine .pushes ?_
    rw [List.forall₂_map_left_iff, List.forall₂_map_right_iff]
    exact htemps.imp fun _ _ hx => .getLocal hx
  exact ((hbefore.append (hfits.coerced hcx hcode hintro)).append (hargs.push _)).append
    (.op (.call hcallee) (.refl _))

theorem Site.Fits.integer_typed {op : BinaryOp} {instr : Op} (hop : integerOp? op = some instr)
    {l r : Code} (hl : l.Typed cx Γ) (hr : r.Typed cx Γ) :
    (site.integerCode op instr l r).Typed cx Γ := by
  have hinstr : instr ∈ [Op.add, .sub, .mul, .divS, .ltS, .leS, .eq] := by
    cases op <;> cases hop <;> simp
  have hclass : (if op.isArithmetic then Name.int else .bool) = .int ∨
      (if op.isArithmetic then Name.int else .bool) = .bool := by
    split
    · exact .inl rfl
    · exact .inr rfl
  have hmem : (if op.isArithmetic then Name.int else .bool) ∈ cx.hierarchy.names := by
    split <;> exact hcx.builtin_mem _ rfl
  refine ⟨hmem, runs_boxed hfits.provides hclass ?_⟩
  exact ((hfits.unboxed hcx hl (.inl rfl)).append ((hfits.unboxed hcx hr (.inl rfl)).push _)).append
    (.op (.integers hinstr) (.refl _))

theorem Site.Fits.equality_typed {l r : Code} (hl : l.Typed cx Γ) (hr : r.Typed cx Γ) {t : Name} :
    (site.equality t l r).Typed cx Γ := by
  have hbool : Name.bool ∈ cx.hierarchy.names := hcx.builtin_mem _ rfl
  unfold Site.equality
  split
  · rename_i ht
    refine ⟨hbool, runs_boxed hfits.provides (.inr rfl) ?_⟩
    exact ((hfits.unboxed hcx hl ht).append ((hfits.unboxed hcx hr ht).push _)).append
      (.op (.integers (by simp)) (.refl _))
  · split
    · rename_i ht
      have hstring : t ∈ cx.hierarchy.names := ht ▸ hcx.builtin_mem _ rfl
      refine ⟨hbool, runs_boxed hfits.provides (.inr rfl) ?_⟩
      exact ((hfits.coerced hcx hl hstring).append ((hfits.coerced hcx hr hstring).push _)).append
        (.op (.call (hfits.provides.hasFunc_helper (f := stringEqualsDefinition) (by simp)))
          (ht ▸ .refl _))
    · refine ⟨hbool, runs_boxed hfits.provides (.inr rfl) ?_⟩
      exact (hl.runs.append (hr.runs.push _)).append
        (.op (.call (hfits.provides.hasFunc_helper (f := objectEqualsDefinition) (by simp)))
          (.cons (hfits.provides.subtype_object hcx.rooted true hl.mem)
            (.cons (hfits.provides.subtype_object hcx.rooted true hr.mem) .nil)))

end

/-- The labels of a loop differ. -/
theorem label_ne (i j : Nat) : "$#break" ++ toString i ≠ "$#loop" ++ toString j := by
  intro heq
  have hlist := congrArg String.toList heq
  rw [String.toList_append, String.toList_append] at hlist
  cases hlist

theorem runs_loop {Γ : CodeContext} {leave next : String} (hlabels : leave ≠ next)
    {test body : List Instr} {t : ValType} (htest : Γ.Runs test [] [.i32])
    (hbody : Γ.Runs body [] [t]) :
    Γ.Runs [.block leave [] [.loop next (test ++ [.plain .eqz [], .plain (.brIf leave) []] ++ body ++
      [.plain .drop [], .plain (.br next) []])]] [] [] := by
  intro labels
  have hleave : List.lookup leave ((next, []) :: (leave, ([] : List ValType)) :: labels) =
      some [] := by
    rw [List.lookup_cons, beq_false_of_ne hlabels, List.lookup_cons_self]
  have hbreak : TypesAll Γ ((next, []) :: (leave, []) :: labels)
      [.plain .eqz [], .plain (.brIf leave) []] [.i32] [] := by
    have hif : Types Γ ((next, []) :: (leave, []) :: labels) (.plain (.brIf leave) []) [.i32]
        ([] ++ []) := .brIf (.nil (.refl _)) hleave .nil
    exact (CodeContext.Runs.op .eqz (.refl _) _).append (.cons hif (.nil .nil))
  have hnext : TypesAll Γ ((next, []) :: (leave, []) :: labels)
      [.plain .drop [], .plain (.br next) []] [t] [] := by
    have hoperands : TypesAll Γ ((next, []) :: (leave, []) :: labels) [] [] ([] ++ []) := .nil .nil
    have hbr : Types Γ ((next, []) :: (leave, []) :: labels) (.plain (.br next) []) [] [] :=
      .leaves hoperands (.br List.lookup_cons_self) .nil
    exact (CodeContext.Runs.op .drop (.refl _) _).append (.cons hbr (.nil .nil))
  have hloop := ((((htest _).append hbreak).append (hbody _)).append hnext)
  exact .cons (.block nofun (.cons (.loop hloop) (.nil .nil))) (.nil .nil)

end Cool.Lowering
