import Cool.Proofs.Lowering.Classes
import Cool.Proofs.Lowering.CodeTyping

/-! The functions of a class are valid in every module that declares what they refer to. -/

namespace Cool.Lowering

open Wat Typing

/-- Members whose classes are all proper: the builtin ones are as they should be, no class extends
one of constants, and attributes are of installed types. -/
structure Regular (ms : Members) : Prop where
  proper : ∀ c ∈ ms.hierarchy.names, (⟨ms, c⟩ : Context).Proper
  object_mem : Name.object ∈ ms.hierarchy.names
  builtin : ∀ d ∈ Builtin.classes, ms.hierarchy.decl? d.name = some d
  parent_object : ∀ c p, ms.hierarchy.parent? c = some p → p.isPrimitive = false
  attribute_typed : ∀ c ∈ ms.hierarchy.names, c.isPrimitive = false →
    ∀ a ∈ ms.attributes c c, ms.hierarchy.IsType a.type

theorem Regular.coherent {ms : Members} (hms : Regular ms) : ms.Coherent :=
  (hms.proper _ hms.object_mem).coherent

/-- Formals as the body of a method sees them. -/
structure FormalsTyped (ms : Members) (formals : List Formal) : Prop where
  nodup : (formals.map (·.name)).Nodup
  named : ∀ f ∈ formals, f.name.isIdentifier = true ∧ f.name ≠ .self
  typed : ∀ f ∈ formals, f.type ∈ ms.hierarchy.names

def formalSlots (formals : List Formal) : List (String × ValType) :=
  formals.map fun f => (localId f.name, valueType f.type)

/-- A method as it was checked. -/
structure MethodTyped (ms : Members) (c : Name) (d : Method) : Prop where
  formals : FormalsTyped ms d.formals
  entry : ∀ e ∈ ms.methods c c, e.name = d.name → e.params = d.formals.map Formal.parameter
  body : ∃ e t, HasType ⟨ms, c⟩ (methodScope (classScope (ms.attributes c c)) d.formals).lookup
    e d.body t ∧ ∀ n ∈ e.nodes, n.isNamed = true

/-- The initializer of an attribute as it was checked. -/
def InitTyped (ms : Members) (c : Name) (init : Expr) : Prop :=
  ∃ e t, HasType ⟨ms, c⟩
    ((classScope (ms.attributes c c)).enterWith [(.self, .selfType)]).lookup e init t ∧
    ∀ n ∈ e.nodes, n.isNamed = true

/-- The features of a class as they were checked. -/
structure FeaturesTyped (ms : Members) (c : Name) (fs : List Feature) : Prop where
  attributes : ∀ a, .attr a ∈ fs → a.init.isAbsent = false → InitTyped ms c a.init
  methods : ∀ d, .method d ∈ fs → MethodTyped ms c d

theorem FeaturesTyped.tail {ms : Members} {c : Name} {f : Feature} {fs : List Feature}
    (h : FeaturesTyped ms c (f :: fs)) : FeaturesTyped ms c fs :=
  ⟨fun a ha => h.attributes a (List.mem_cons_of_mem _ ha),
    fun d hd => h.methods d (List.mem_cons_of_mem _ hd)⟩

/-- The functions added between two states are valid. -/
def AddsValid (m : Module) (s s' : Progress) : Prop :=
  ∀ f ∈ s'.funcs, f ∈ s.funcs ∨ f.Valid m

namespace AddsValid

variable {m : Module} {s s₁ s₂ : Progress}

theorem refl (s : Progress) : AddsValid m s s :=
  fun _ hf => .inl hf

theorem trans (h : AddsValid m s s₁) (h' : AddsValid m s₁ s₂) : AddsValid m s s₂ := by
  intro f hf
  rcases h' f hf with hf | hvalid
  · exact h f hf
  · exact .inr hvalid

theorem emittingAll (s : Progress) {fs : List Func} (hfs : ∀ f ∈ fs, f.Valid m) :
    AddsValid m s (s.emittingAll fs) :=
  fun f hf => (List.mem_append.mp hf).imp_right (hfs f)

theorem emitting (s : Progress) {f : Func} (hf : f.Valid m) : AddsValid m s (s.emitting f) :=
  emittingAll s fun _ hg => List.mem_singleton.mp hg ▸ hf

end AddsValid

section

variable {ms : Members} {pool : Pool} {m : Module} {c : Name}
variable (hms : Regular ms) (hm : Provides m ms pool) (hc : c ∈ ms.hierarchy.names)

/-! ## Allocators -/

include hms hm hc

/-- The values that the attributes of an object start with. -/
theorem runs_fields (hprim : c.isPrimitive = false) {fields : List Instr}
    (hfields : List.Forall₂ (fun a i => (classSite ms pool c).Defaults (attributeLayout a) i)
      (ms.attributes c c) fields) (locals : List (String × ValType)) :
    CodeContext.Runs ⟨m, locals⟩ (.plain (.globalGet (tableGlobal c)) [] :: fields) []
      ((objectFields c (ms.attributes c c)).map (·.type)) := by
  have hcx := hms.proper c hc
  have hmatches : (classSite ms pool c).Matches ⟨ms, c⟩ _ :=
    matches_classSite (hms.coherent.attributes_nodup hc)
  have hdefault : ∀ a ∈ ms.attributes c c, ∀ i,
      (classSite ms pool c).Defaults (attributeLayout a) i →
      CodeContext.Runs ⟨m, locals⟩ [i] [] [valueType (attributeLayout a)] := by
    intro a ha i hi
    have hmem := attributeLayout_mem hcx ha (hms.attribute_typed c hc hprim a ha)
    have hrun : CodeContext.Runs ⟨m, locals⟩ [i] [] _ :=
      hmatches.runs_default hcx hm (.inr hmem) hi
    rwa [Members.resolve, if_neg (hms.coherent.ne_selfType hmem)] at hrun
  rw [objectFields_eq hprim, List.map_cons, List.map_map]
  refine CodeContext.Runs.cons (.op (.globalGet (hm.tableGlobal c hc)) .nil)
    (CodeContext.Runs.push (.pushes ?_) [_])
  rw [List.forall₂_map_right_iff]
  generalize ms.attributes c c = attributes at hfields hdefault
  induction hfields with
  | nil => exact .nil
  | cons hi _ ih =>
      obtain ⟨ha, hrest⟩ := List.forall_mem_cons.mp hdefault
      exact .cons (ha _ hi) (ih hrest)

theorem Allocates.valid {f : Func} (h : Allocates (classSite ms pool c) c f) : f.Valid m := by
  have hresult : ∀ t ∈ [objectType c], m.HasValType t :=
    fun t ht => List.mem_singleton.mp ht ▸ hm.defines hc
  cases h with
  | primitive hprim hi =>
      refine @valid_of_objectSlots ⟨ms, c⟩ m pool hm _ List.nodup_nil nofun hresult nofun ?_
      cases hi with
      | int hg => exact CodeContext.Runs.op (.globalGet (hm.hasGlobal_int hg)) .nil []
      | string hg => exact CodeContext.Runs.op (.globalGet (hm.hasGlobal_text hg)) .nil []
      | bool => exact CodeContext.Runs.op (.globalGet (hm.hasGlobal_bool false)) .nil []
      | void hnot =>
          rw [hprim] at hnot
          cases hnot
  | @object fields hprim hfields =>
      have hslot : IsObjectSlot ⟨ms, c⟩ ("$o", valueType c) := ⟨c, hc, rfl⟩
      refine valid_of_objectSlots hm (List.nodup_singleton _)
        (fun l hl => List.mem_singleton.mp hl ▸ hslot) hresult nofun ?_
      let Γ : CodeContext := ⟨m, [("$o", valueType c)]⟩
      have hlocal : ("$o", valueType c) ∈ Γ.locals := List.mem_singleton_self _
      have hobject : Γ.Runs [.plain (.structNew (classType c))
          (.plain (.globalGet (tableGlobal c)) [] :: fields)] [] [objectType c] :=
        .folded (runs_fields hms hm hc hprim hfields _) (.structNew (hm.hasObject hc)) (.refl _)
      have hinit : Γ.Runs [.plain (.call (initFunc c)) [getLocal "$o"]] [] [] :=
        .folded (.getLocal hlocal) (.call (hm.initializer c hc hprim)) (.refl _)
      have hleave : Γ.Runs [.plain .refAsNonNull [getLocal "$o"]] [] [objectType c] :=
        .folded (.getLocal hlocal) .refAsNonNull (.refl _)
      exact CodeContext.Runs.cons (.folded hobject (.localSet hlocal)
        (.singleton (Provides.subtype_nullable c))) (hinit.cons hleave) []

theorem newVirtualDefinition_valid : (Site.newVirtualDefinition c).Valid m := by
  have hrooted := hms.coherent.rooted
  refine @valid_of_objectSlots ⟨ms, c⟩ m pool hm _ List.nodup_nil nofun ?_ ?_ ?_
  · exact fun t ht => List.mem_singleton.mp ht ▸ hm.defines hms.object_mem
  · rintro t ⟨⟩
    exact hm.fixed _ (by simp [fixedTypes, Site.newVirtualDefinition])
  · refine (CodeContext.Runs.op (.call (hm.allocator c hc)) .nil).subsume ?_ []
    exact .singleton (.ref id (hm.extends_of_inherits (Hierarchy.inherits_object hrooted hc)))

/-! ## Copying and naming -/

omit hms hm hc in
/-- The slots that the root introduces. -/
theorem object_slot (hco : ms.Coherent) (hmem : Name.object ∈ ms.hierarchy.names)
    (hobject : ms.hierarchy.decl? .object = some Builtin.object) {x : Method}
    (hx : .method x ∈ Builtin.object.features) {slot : MethodEntry}
    (hslot : ms.method? .object x.name .object = some slot) :
    slot ∈ ms.methods .object .object ∧ slot.intro = .object ∧
      slot.params = x.formals.map Formal.parameter ∧ slot.result = x.result := by
  obtain ⟨e, he, hdeclares⟩ := hco.declared_method hmem hobject hx
  have hfound := hco.method?_of_mem hmem he .object
  rw [hdeclares.name, hslot] at hfound
  cases hfound
  have hnone : (ms.siteOf .object).inheritedMethod? x.name = none := by
    simp [Members.Site.inheritedMethod?, Members.siteOf, Hierarchy.parent?_object]
  exact ⟨he, (hdeclares.introduces hnone).2, hdeclares.params, hdeclares.result⟩

omit hc in
theorem Regular.object_signature {x : Method} (hx : .method x ∈ Builtin.object.features)
    {slot : MethodEntry} (hslot : ms.method? .object x.name .object = some slot) :
    .func slot.signatureId (valueType .object :: x.formals.map fun f => valueType f.type)
      [valueType (Members.resolve x.result .object)] ∈ m.types := by
  obtain ⟨he, hintro, hparams, hresult⟩ := object_slot hms.coherent hms.object_mem
    (hms.builtin Builtin.object List.mem_cons_self) hx hslot
  have htype := hm.slot _ hms.object_mem slot he
  rw [signatureType, resultLayout, hintro, hresult, hparams, List.map_map] at htype
  exact htype

theorem HasOwnBody.valid {e : MethodEntry} {f : Func}
    (h : HasOwnBody (classSite ms pool c) c e f) : f.Valid m := by
  have hobject : IsObjectSlot ⟨ms, c⟩ (selfLocal, valueType .object) := ⟨_, hms.object_mem, rfl⟩
  have hrooted := hms.coherent.rooted
  cases h with
  | @copy slot _ hslot =>
      let Γ : CodeContext := ⟨m, [(selfLocal, valueType .object), ("$o", valueType c)]⟩
      have hself : (selfLocal, valueType .object) ∈ Γ.locals := List.mem_cons_self
      have hlocal : ("$o", valueType c) ∈ Γ.locals :=
        List.mem_cons_of_mem _ (List.mem_singleton_self _)
      refine @valid_of_objectSlots ⟨ms, c⟩ m pool hm _ ?_ ?_ ?_ ?_ ?_
      · exact (by decide : [selfLocal, "$o"].Nodup)
      · exact List.forall_mem_cons.mpr ⟨hobject, List.forall_mem_cons.mpr ⟨⟨c, hc, rfl⟩, nofun⟩⟩
      · exact fun t ht => List.mem_singleton.mp ht ▸ hm.defines hms.object_mem
      · rintro t ⟨⟩
        exact hms.object_signature hm (x := ⟨Builtin.span, .copy, [], .selfType, Builtin.none⟩)
          (by simp [Builtin.object, Builtin.method]) hslot
      · have hcast : Γ.Runs [.plain (.refCast (objectType c)) [getLocal selfLocal]] []
            [objectType c] :=
          .folded (.getLocal hself)
            (.refCast (hm.defines hc) (hm.subtype_object hrooted false hc)) (.refl _)
        have hloads : Γ.Runs ((objectFields c (ms.attributes c c)).map fun f =>
            .plain (.structGet (classType c) f.name) [getLocal "$o"]) []
            ((objectFields c (ms.attributes c c)).map (·.type)) :=
          .pushes_map fun f hf =>
            .folded (.getLocal hlocal) (.structGet (hm.hasObject hc) hf) (.refl _)
        have hnew : Γ.Runs [.plain (.structNew (classType c)) _] [] [objectType c] :=
          .folded hloads (.structNew (hm.hasObject hc)) (.refl _)
        exact CodeContext.Runs.cons (.folded hcast (.localSet hlocal)
          (.singleton (Provides.subtype_nullable c)))
          (hnew.subsume (.singleton (hm.subtype_object hrooted false hc))) []
  | @typeName slot text _ hslot htext =>
      have hstring : Name.string ∈ ms.hierarchy.names := (hms.proper c hc).builtin_mem _ rfl
      refine @valid_of_objectSlots ⟨ms, c⟩ m pool hm _ (List.nodup_singleton _)
        (fun l hl => List.mem_singleton.mp hl ▸ hobject) ?_ ?_ ?_
      · exact fun t ht => List.mem_singleton.mp ht ▸ hm.defines hstring
      · rintro t ⟨⟩
        exact hms.object_signature hm (x := ⟨Builtin.span, .typeName, [], .string, Builtin.none⟩)
          (by simp [Builtin.object, Builtin.method]) hslot
      · exact Provides.runs_global (hm.hasGlobal_text htext) []

/-! ## Dispatching functions -/

omit hms hm hc in
theorem numbered_names (i : Nat) (ps : List Parameter) :
    (Site.numbered i ps).map (·.1) =
      (List.range' i ps.length).map fun j => "$p" ++ toString j := by
  induction ps generalizing i with
  | nil => rfl
  | cons p ps ih => rw [Site.numbered, List.map_cons, ih]; rfl

omit hms hm hc in
theorem numbered_types (i : Nat) (ps : List Parameter) :
    (Site.numbered i ps).map (·.2) = ps.map fun p => valueType p.type := by
  induction ps generalizing i with
  | nil => rfl
  | cons p ps ih => rw [Site.numbered, List.map_cons, ih]; rfl

theorem genericDefinition_valid {e : MethodEntry} (he : e ∈ ms.methods c c)
    (hintro : e.intro = c) : (Site.genericDefinition c e).Valid m := by
  have hseen := hms.coherent.seenMethod hc e he
  have hsignature : .func e.signatureId e.operands [valueType (resultLayout e)] ∈ m.types :=
    hm.slot c hc e he
  have hslots : (Site.genericDefinition c e).params ++ (Site.genericDefinition c e).locals =
      (selfLocal, valueType c) :: Site.numbered 0 e.params := List.append_nil _
  let Γ : CodeContext := ⟨m, (selfLocal, valueType c) :: Site.numbered 0 e.params⟩
  have hself : (selfLocal, valueType c) ∈ Γ.locals := List.mem_cons_self
  have hoperands : e.operands = valueType c :: (Site.numbered 0 e.params).map (·.2) := by
    rw [numbered_types, MethodEntry.operands, hintro]
  refine @valid_of_objectSlots ⟨ms, c⟩ m pool hm _ ?_ ?_ ?_ ?_ ?_
  · rw [hslots, List.map_cons, numbered_names, List.nodup_cons]
    refine ⟨fun hself => ?_, List.Nodup.map (fun i j hij => ?_) List.nodup_range'⟩
    · obtain ⟨j, -, heq⟩ := List.mem_map.mp hself
      have hlist := congrArg String.toList heq
      simp [selfLocal] at hlist
    · exact natRepr_injective ((String.append_right_inj _).mp hij)
  · intro l hl
    rw [hslots] at hl
    rcases List.mem_cons.mp hl with rfl | hl
    · exact ⟨c, hc, rfl⟩
    · have htype : l.2 ∈ (Site.numbered 0 e.params).map (·.2) := List.mem_map_of_mem hl
      rw [numbered_types] at htype
      obtain ⟨p, hp, heq⟩ := List.mem_map.mp htype
      exact ⟨p.type, hseen.params_typed p hp, heq.symm⟩
  · exact fun t ht => List.mem_singleton.mp ht ▸ hm.defines
      (resultLayout_mem (hms.proper c hc) hc he)
  · rintro t ⟨⟩
    rw [hoperands] at hsignature
    exact hsignature
  · have hargs : Γ.Runs ((Site.numbered 0 e.params).map fun p => getLocal p.1) []
        ((Site.numbered 0 e.params).map (·.2)) :=
      .pushes_map fun p hp => .getLocal (List.mem_cons_of_mem _ hp)
    have hfirst : (⟨tableField, false, .ref false (tableType c)⟩ : Field) ∈
        objectFields c (ms.attributes c c) := List.mem_cons_self
    have htable : Γ.Runs [.plain (.structGet (classType c) tableField) [getLocal selfLocal]] []
        [.ref false (tableType c)] :=
      .folded (.getLocal hself) (.structGet (hm.hasObject hc) hfirst) (.refl _)
    have hfield : (⟨fieldId e.name, false, .ref false e.signatureId⟩ : Field) ∈
        tableFields (ms.methods c c) := List.mem_cons_of_mem _ (List.mem_map_of_mem he)
    have hslot : Γ.Runs [.plain (.structGet (tableType c) (fieldId e.name)) _] []
        [.ref false e.signatureId] :=
      .folded htable (.structGet (hm.hasTable hc) hfield)
        (.singleton (.ref (fun _ => rfl) .refl))
    have hall := (CodeContext.Runs.getLocal hself).cons ((hargs.push _).append (hslot.push _))
    rw [hslots]
    refine CodeContext.Runs.folded hall (.callRef hsignature) ?_ []
    rw [hoperands]
    exact (Subtypes.refl _).append (.singleton (.ref (fun h => nomatch h) .refl))

/-! ## Sites -/

omit hm in
theorem covers_classScope (hprim : c.isPrimitive = false) :
    (⟨ms, c⟩ : Context).Covers (classScope (ms.attributes c c)).lookup := by
  intro x t hx
  rcases Scope.mem_of_lookup_enterWith hx with hx | hx
  · rcases List.mem_append.mp hx with hx | hx
    · obtain ⟨a, ha, heq⟩ := List.mem_map.mp hx
      cases heq
      exact hms.attribute_typed c hc hprim a ha
    · cases List.mem_singleton.mp hx
      exact .inl rfl
  · cases hx

omit hm in
theorem covers_initScope (hprim : c.isPrimitive = false) : (⟨ms, c⟩ : Context).Covers
    ((classScope (ms.attributes c c)).enterWith [(.self, .selfType)]).lookup := by
  intro x t hx
  rcases Scope.mem_of_lookup_enterWith hx with hx | hx
  · cases List.mem_singleton.mp hx
    exact .inl rfl
  · exact covers_classScope hms hc hprim x t hx

omit hm in
theorem covers_methodScope (hprim : c.isPrimitive = false) {formals : List Formal}
    (htyped : ∀ f ∈ formals, f.type ∈ ms.hierarchy.names) : (⟨ms, c⟩ : Context).Covers
    (methodScope (classScope (ms.attributes c c)) formals).lookup := by
  intro x t hx
  rcases Scope.mem_of_lookup_enterWith hx with hx | hx
  · rcases List.mem_cons.mp hx with heq | hx
    · cases heq
      exact .inl rfl
    · obtain ⟨f, hf, heq⟩ := List.mem_map.mp hx
      cases heq
      exact .inr (htyped f (List.mem_of_mem_filter hf))
  · exact covers_classScope hms hc hprim x t hx

/-- Where the initializers of a class are lowered. -/
theorem fits_classSite (hprim : c.isPrimitive = false) {locals : List (String × ValType)}
    (hself : (selfLocal, valueType c) ∈ locals) :
    (classSite ms pool c).Fits ⟨ms, c⟩
      ((classScope (ms.attributes c c)).enterWith [(.self, .selfType)]).lookup ⟨m, locals⟩ := by
  have hnodup := hms.coherent.attributes_nodup hc
  have hnone : ∀ p, p ∉ (classSite ms pool c).locals := by
    intro p hp
    rw [Site.mem_locals, localTypes_classSite hnodup] at hp
    cases hp
  refine ⟨(matches_classSite hnodup).withSelf, covers_initScope hms hc hprim, hm, hself, ?_,
    fun p hp => absurd hp (hnone p)⟩
  intro l hl
  obtain ⟨p, hp, -⟩ := List.mem_map.mp hl
  exact absurd hp (hnone p)

/-- Where the body of a method is lowered. -/
theorem fits_withFormals (hprim : c.isPrimitive = false) {formals : List Formal}
    (hformals : FormalsTyped ms formals) {locals : List (String × ValType)}
    (hself : (selfLocal, valueType c) ∈ locals) (hslots : ∀ l ∈ formalSlots formals, l ∈ locals) :
    ((classSite ms pool c).withFormals formals).Fits ⟨ms, c⟩
      (methodScope (classScope (ms.attributes c c)) formals).lookup ⟨m, locals⟩ := by
  have hnodup := hms.coherent.attributes_nodup hc
  have hmem : ∀ p ∈ ((classSite ms pool c).withFormals formals).locals,
      ∃ f ∈ formals, f.parameter = p := by
    intro p hp
    rw [Site.mem_locals, Site.localTypes_withFormals hformals.nodup
      (localTypes_classSite hnodup)] at hp
    obtain ⟨f, hf, htype⟩ := Option.map_eq_some_iff.mp hp
    refine ⟨f, List.mem_of_find?_eq_some hf, ?_⟩
    have hname : f.name = p.name := by simpa using List.find?_some hf
    rw [Formal.parameter, hname, htype]
  refine ⟨(matches_classSite hnodup).withFormals (fun f hf => (hformals.named f hf).2)
    hformals.nodup, covers_methodScope hms hc hprim hformals.typed, hm, hself, ?_, ?_⟩
  · intro l hl
    obtain ⟨p, hp, rfl⟩ := List.mem_map.mp hl
    obtain ⟨f, hf, rfl⟩ := hmem p hp
    have hself := hms.coherent.ne_selfType (hformals.typed f hf)
    rw [Formal.parameter_type, Members.resolve, if_neg hself]
    exact hslots _ (List.mem_map_of_mem hf)
  · intro p hp
    obtain ⟨f, hf, rfl⟩ := hmem p hp
    exact hformals.named f hf

/-! ## Initializers -/

omit hms hm hc in
theorem attributeClass_eq_ok {x want : Name}
    (h : (classSite ms pool c).attributeClass x = .ok want) :
    ∃ a ∈ ms.attributes c c, a.name = x ∧ want = attributeLayout a := by
  unfold Site.attributeClass at h
  split at h
  · rename_i a ha
    exact ⟨a, List.mem_of_find?_eq_some ha, by simpa using List.find?_some ha,
      (Except.ok.inj h).symm⟩
  · cases h

theorem Initializes.typed (hprim : c.isPrimitive = false) {fs : List Feature}
    {instrs : List Instr} {s s' : Progress}
    (h : Initializes (classSite ms pool c) fs s instrs s') (hfs : FeaturesTyped ms c fs)
    {locals : List (String × ValType)} (hself : (selfLocal, valueType c) ∈ locals)
    (hd : Declared ⟨m, locals⟩ s') :
    CodeContext.Runs ⟨m, locals⟩ instrs [] [] ∧ AddsTyped ⟨ms, c⟩ m s s' := by
  have hcx := hms.proper c hc
  have hfits := fits_classSite hms hm hc hprim hself
  induction h with
  | nil => exact ⟨.nil [], .refl _⟩
  | method _ ih => exact ih hfs.tail hd
  | absent _ _ ih => exact ih hfs.tail hd
  | @attr a rest want code others s s₁ s₂ ha hwant hinit hrest ih =>
      obtain ⟨e, t, htype, hn⟩ := hfs.attributes a List.mem_cons_self ha
      obtain ⟨hcode, hadds⟩ :=
        codeTyped hcx hprim a.init hinit htype hn hfits (hd.before hrest.grown)
      obtain ⟨hothers, hadds'⟩ := ih hfs.tail hd
      obtain ⟨entry, hentry, hname, rfl⟩ := attributeClass_eq_ok hwant
      have hmem := attributeLayout_mem hcx hentry (hms.attribute_typed c hc hprim entry hentry)
      have hset : CodeContext.Runs ⟨m, locals⟩
          [.plain (.structSet (classType c) (fieldId a.name)) []]
          [valueType c, valueType (attributeLayout entry)] [] := by
        rw [← hname]
        exact .op (.structSet (hm.hasObject hc) (hasField hprim hentry) rfl) (.refl _)
      refine ⟨?_, hadds.trans hadds'⟩
      exact CodeContext.Runs.append ((CodeContext.Runs.getLocal hself).cons
        ((hfits.coerced hcx hcode hmem).push _)) (hset.cons hothers)

omit hc in
theorem runs_initParent {locals : List (String × ValType)}
    (hself : (selfLocal, valueType c) ∈ locals) :
    CodeContext.Runs ⟨m, locals⟩ (classSite ms pool c).initParent [] [] := by
  unfold Site.initParent
  split
  · rename_i p hp
    have hmem := hms.coherent.rooted.parent_mem hp
    refine .folded (.getLocal hself) (.call (hm.initializer p hmem (hms.parent_object c p hp))) ?_
    exact .singleton (hm.subtype_of_inherits (.of_parent hp (.refl p)))
  · exact .nil []

theorem EmitsInit.typed {fs : List Feature} {s s' : Progress}
    (h : EmitsInit (classSite ms pool c) fs s s') (hfs : FeaturesTyped ms c fs)
    (hfuncs : ∀ f ∈ s'.funcs, f ∈ m.funcs) : AddsValid m s s' := by
  cases h with
  | primitive _ => exact .refl _
  | @object own _ s₁ hprim hown =>
      let slots := [(selfLocal, valueType c)] ++ s₁.frame.locals
      have hself : (selfLocal, valueType c) ∈ slots := List.mem_cons_self
      have hd : Declared ⟨m, slots⟩ s₁ :=
        ⟨fun l hl => List.mem_append_right _ hl, fun f hf => hfuncs f (List.mem_append_left _ hf)⟩
      obtain ⟨hruns, hadds⟩ := hown.typed hms hm hc hprim hfs hself hd
      obtain ⟨hnodup, hslots⟩ := temps_slots hown.grown hadds
      have hvalid : ((classSite ms pool c).initDefinition s₁.frame.locals own).Valid m := by
        refine @valid_of_objectSlots ⟨ms, c⟩ m pool hm _ ?_ ?_ nofun nofun
          ((runs_initParent hms hm hself).append hruns [])
        · exact slots_nodup List.nodup_nil nofun hnodup
            (List.forall_mem_map.mpr fun l hl => (hslots l hl).1)
        · exact List.forall_mem_cons.mpr ⟨⟨c, hc, rfl⟩, fun l hl => (hslots l hl).2⟩
      have hlifted : AddsValid m s (s₁.inFrame s.frame) := hadds.funcs
      exact hlifted.trans (.emitting _ hvalid)

/-! ## Methods -/

/-- The receiver as it is received, if it has to be narrowed. -/
def Site.received (site : Site) (entry : MethodEntry) : List (String × ValType) :=
  if entry.intro = site.current then [] else [(receiverLocal, valueType entry.intro)]

omit hms hm hc in
theorem isSharp_receiverLocal : IsSharp receiverLocal := by
  unfold IsSharp
  decide

omit hms hm in
theorem isObjectSlot_narrowed {entry : MethodEntry} {l : String × ValType}
    (hl : l ∈ (classSite ms pool c).narrowed entry) : IsObjectSlot ⟨ms, c⟩ l := by
  unfold Site.narrowed at hl
  split at hl
  · cases hl
  · rw [List.mem_singleton.mp hl]
    exact ⟨c, hc, rfl⟩

omit hms hm hc in
theorem receiver_type (site : Site) (entry : MethodEntry) :
    (site.receiver entry).2 = valueType entry.intro := by
  unfold Site.receiver
  split
  · rename_i hintro
    rw [hintro]
  · rfl

omit hms hm hc in
/-- The slots of a method, with the receiver first and those with a sharp sign last. -/
theorem methodSlots_perm (site : Site) (entry : MethodEntry)
    (params temps : List (String × ValType)) :
    (site.receiver entry :: params ++ (site.narrowed entry ++ temps)).Perm
      ((selfLocal, valueType site.current) :: params ++ (site.received entry ++ temps)) := by
  unfold Site.receiver Site.narrowed Site.received
  split
  · exact .refl _
  · simp only [List.cons_append, List.nil_append]
    refine (List.Perm.cons _ List.perm_middle).trans (.trans (.swap _ _ _) (.cons _ ?_))
    exact List.perm_middle.symm

omit hms hm hc in
theorem received_temps_nodup (site : Site) (entry : MethodEntry) (ts : List ValType) :
    ((site.received entry ++ tempsFrom 0 ts).map (·.1)).Nodup := by
  unfold Site.received
  split
  · exact tempsFrom_nodup 0 ts
  · rw [List.singleton_append, List.map_cons, List.nodup_cons]
    refine ⟨fun hmem => ?_, tempsFrom_nodup 0 ts⟩
    rw [tempsFrom_names] at hmem
    obtain ⟨i, -, heq⟩ := List.mem_map.mp hmem
    have hlist := congrArg String.toList heq
    simp [receiverLocal, tempName] at hlist

theorem runs_narrow {entry : MethodEntry} (hentry : entry ∈ ms.methods c c)
    {locals : List (String × ValType)} (hself : (selfLocal, valueType c) ∈ locals)
    (hreceived : ∀ l ∈ (classSite ms pool c).received entry, l ∈ locals) :
    CodeContext.Runs ⟨m, locals⟩ ((classSite ms pool c).narrow entry) [] [] := by
  have hseen := hms.coherent.seenMethod hc entry hentry
  have hbelow := hseen.below_definer.trans hseen.below_intro
  unfold Site.narrow
  unfold Site.received at hreceived
  split
  · exact .nil []
  · rename_i hintro
    rw [if_neg hintro] at hreceived
    have hcast : CodeContext.Runs ⟨m, locals⟩
        [.plain (.refCast (valueType c)) [getLocal receiverLocal]] [] [valueType c] :=
      .folded (.getLocal (hreceived _ (List.mem_singleton_self _)))
        (.refCast (hm.defines hc) (hm.subtype_of_inherits hbelow)) (.refl _)
    exact .folded hcast (.localSet hself) (.refl _)

/-- The function of a method around a typed body. -/
theorem methodDefinition_valid {entry : MethodEntry} (hentry : entry ∈ ms.methods c c)
    {formals : List Formal} (hformals : FormalsTyped ms formals)
    (hparams : entry.params = formals.map Formal.parameter) {ts : List ValType}
    (htemps : ∀ l ∈ tempsFrom 0 ts, IsObjectSlot ⟨ms, c⟩ l) {body : List Instr}
    (hbody : CodeContext.Runs ⟨m, (classSite ms pool c).receiver entry :: formalSlots formals ++
      ((classSite ms pool c).narrowed entry ++ tempsFrom 0 ts)⟩ body []
      [valueType (resultLayout entry)]) :
    ((classSite ms pool c).methodDefinition entry formals
      ((classSite ms pool c).narrowed entry ++ tempsFrom 0 ts) body).Valid m := by
  have hseen := hms.coherent.seenMethod hc entry hentry
  have hbelow := hseen.below_definer.trans hseen.below_intro
  have hintro := hbelow.mem_names hms.coherent.rooted hc
  have hperm := methodSlots_perm (classSite ms pool c) entry (formalSlots formals) (tempsFrom 0 ts)
  have hreceived : ∀ l ∈ (classSite ms pool c).received entry,
      IsSharp l.1 ∧ IsObjectSlot ⟨ms, c⟩ l := by
    unfold Site.received
    split
    · nofun
    · intro l hl
      rw [List.mem_singleton.mp hl]
      exact ⟨isSharp_receiverLocal, _, hintro, rfl⟩
  refine @valid_of_objectSlots ⟨ms, c⟩ m pool hm _ ?_ ?_ ?_ ?_ ?_
  · refine (hperm.map (·.1)).nodup_iff.mpr ?_
    have hnames : (formalSlots formals).map (·.1) = (formals.map (·.name)).map localId := by
      rw [formalSlots, List.map_map, List.map_map]
      rfl
    rw [List.map_append, List.map_cons, hnames]
    refine slots_nodup hformals.nodup (List.forall_mem_map.mpr hformals.named)
      (received_temps_nodup _ entry ts) (List.forall_mem_map.mpr fun l hl => ?_)
    rcases List.mem_append.mp hl with hl | hl
    · exact (hreceived l hl).1
    · exact isSharp_tempsFrom 0 ts l.1 (List.mem_map_of_mem hl)
  · intro l hl
    rcases List.mem_append.mp (hperm.mem_iff.mp hl) with hl | hl
    · rcases List.mem_cons.mp hl with rfl | hl
      · exact ⟨c, hc, rfl⟩
      · obtain ⟨f, hf, rfl⟩ := List.mem_map.mp hl
        exact ⟨f.type, hformals.typed f hf, rfl⟩
    · rcases List.mem_append.mp hl with hl | hl
      · exact (hreceived l hl).2
      · exact htemps l hl
  · exact fun t ht => List.mem_singleton.mp ht ▸ hm.defines
      (resultLayout_mem (hms.proper c hc) hc hentry)
  · rintro t ⟨⟩
    have hsignature := hm.slot c hc entry hentry
    rw [signatureType, hparams, List.map_map] at hsignature
    rw [Site.methodDefinition, List.map_cons, receiver_type, List.map_map]
    exact hsignature
  · refine (runs_narrow hms hm hc hentry ?_ fun l hl => ?_).append hbody []
    · exact hperm.mem_iff.mpr List.mem_cons_self
    · exact hperm.mem_iff.mpr (List.mem_append_right _ (List.mem_append_left _ hl))

theorem EmitsMethods.typed (hprim : c.isPrimitive = false) {fs : List Feature} {s s' : Progress}
    (h : EmitsMethods (classSite ms pool c) fs s s') (hfs : FeaturesTyped ms c fs)
    (hfuncs : ∀ f ∈ s'.funcs, f ∈ m.funcs) : AddsValid m s s' := by
  have hcx := hms.proper c hc
  induction h with
  | nil => exact .refl _
  | attr _ ih => exact ih hfs.tail hfuncs
  | @method d rest entry code s s₁ s₂ hown hbody hrest ih =>
      obtain ⟨hentry, hname, -⟩ := ownMethod_eq_ok hown
      have hd := hfs.methods d List.mem_cons_self
      obtain ⟨e, t, htype, hn⟩ := hd.body
      obtain ⟨ts, -, hlocals⟩ := hbody.grown.frame.locals
      have hlocals : s₁.frame.locals =
          (classSite ms pool c).narrowed entry ++ tempsFrom 0 ts := hlocals
      have hperm := methodSlots_perm (classSite ms pool c) entry (formalSlots d.formals)
        (tempsFrom 0 ts)
      have hkept := fun f hf => hfuncs f (hrest.grown.mem_funcs hf)
      have hfits := fits_withFormals hms hm hc hprim hd.formals
        (hperm.mem_iff.mpr List.mem_cons_self)
        fun l hl => List.mem_append_left _ (List.mem_cons_of_mem _ hl)
      obtain ⟨hcode, hadds⟩ := codeTyped hcx hprim d.body hbody htype hn hfits
        ⟨fun l hl => List.mem_append_right _ (hlocals ▸ hl),
          fun f hf => hkept f (List.mem_append_left _ hf)⟩
      have htemps : ∀ l ∈ tempsFrom 0 ts, IsObjectSlot ⟨ms, c⟩ l := by
        intro l hl
        rcases hadds.locals l (hlocals ▸ List.mem_append_right _ hl) with hnarrowed | hslot
        · exact isObjectSlot_narrowed hc hnarrowed
        · exact hslot
      have hvalid := methodDefinition_valid hms hm hc hentry hd.formals
        (hd.entry entry hentry hname) htemps
        (hfits.coerced hcx hcode (resultLayout_mem hcx hc hentry))
      rw [← hlocals] at hvalid
      have hlifted : AddsValid m s (s₁.inFrame s.frame) := hadds.funcs
      exact (hlifted.trans (.emitting _ hvalid)).trans (ih hfs.tail hfuncs)

/-! ## Classes -/

/-- The functions of a class are valid. -/
theorem EmitsClass.typed {fs : List Feature} {s s' : Progress} (h : EmitsClass ms pool c fs s s')
    (hfs : FeaturesTyped ms c fs) (hnone : c.isPrimitive = true → fs = [])
    (hfuncs : ∀ f ∈ s'.funcs, f ∈ m.funcs) : AddsValid m s s' := by
  cases h with
  | @mk new own _ s₁ _ hnew hinit hown hmethods =>
      have hkept : ∀ f ∈ s₁.funcs, f ∈ m.funcs := fun f hf => hfuncs f
        (hmethods.grown.mem_funcs (List.mem_append_left _ (List.mem_append_left _ hf)))
      have hownValid : ∀ f ∈ own, f.Valid m := by
        intro f hf
        obtain ⟨e, -, he⟩ := Members.Site.exists_left_of_forall₂ hown hf
        exact he.valid hms hm hc
      have hgenericValid : ∀ f ∈ genericDefinitions ms c, f.Valid m := by
        intro f hf
        obtain ⟨e, he, rfl⟩ := List.mem_map.mp hf
        obtain ⟨hmem, horigin⟩ := List.mem_filter.mp he
        have hseen := hms.coherent.seenMethod hc e hmem
        exact genericDefinition_valid hms hm hc hmem
          (hseen.origin_iff.mp (of_decide_eq_true horigin))
      have hmethodsValid : AddsValid m
          ((s₁.emittingAll own).emittingAll (genericDefinitions ms c)) s' := by
        cases hprim : c.isPrimitive with
        | true =>
            rw [hnone hprim] at hmethods
            cases hmethods
            exact .refl _
        | false => exact hmethods.typed hms hm hc hprim hfs hfuncs
      exact ((((AddsValid.emitting s (hnew.valid hms hm hc)).trans
        (.emitting _ (newVirtualDefinition_valid hms hm hc))).trans
        (hinit.typed hms hm hc hfs hkept)).trans (.emittingAll _ hownValid)).trans
        ((AddsValid.emittingAll _ hgenericValid).trans hmethodsValid)

end

/-- The functions of all classes are valid. -/
theorem EmitsAll.typed {ms : Members} {pool : Pool} {m : Module} {features : Name → List Feature}
    {cs : List Name} {s s' : Progress} (h : EmitsAll ms pool features cs s s') (hms : Regular ms)
    (hm : Provides m ms pool) (hcs : ∀ c ∈ cs, c ∈ ms.hierarchy.names)
    (hfeatures : ∀ c ∈ cs, FeaturesTyped ms c (features c))
    (hnone : ∀ c ∈ cs, c.isPrimitive = true → features c = [])
    (hfuncs : ∀ f ∈ s'.funcs, f ∈ m.funcs) : AddsValid m s s' := by
  induction h with
  | nil => exact .refl _
  | cons hc hrest ih =>
      rw [List.forall_mem_cons] at hcs hfeatures hnone
      have hclass := hc.typed hms hm hcs.1 hfeatures.1 hnone.1
        fun f hf => hfuncs f (hrest.mem_funcs hf)
      exact hclass.trans (ih hcs.2 hfeatures.2 hnone.2 hfuncs)

end Cool.Lowering
