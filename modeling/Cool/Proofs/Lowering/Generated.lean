import Cool.Proofs.Lowering.ClassTyping
import Cool.Proofs.Lowering.Distinct
import Cool.Proofs.Members.Slots

/-! The functions of a program. Every slot in the table of a class has a function that fits it. -/

namespace Cool.Lowering

open Wat

/-! ## Types -/

section

variable {ms : Members} {pool : Pool} {funcs : List Func} {c : Name}

theorem mem_types (hr : ms.hierarchy.Rooted) (hc : c ∈ ms.hierarchy.names) {t : TypeDef}
    (ht : t ∈ classTypes ms c) : t ∈ (moduleOf ms pool funcs).types :=
  List.mem_append_right _ (List.mem_flatMap.mpr ⟨c, (Hierarchy.mem_topological hr).mpr hc, ht⟩)

/-- A method is in the slot that was introduced for it, with the same operands and results. -/
theorem exists_introduced (hco : ms.Coherent) (hc : c ∈ ms.hierarchy.names) {e : MethodEntry}
    (he : e ∈ ms.methods c c) :
    e.intro ∈ ms.hierarchy.names ∧ ∃ i ∈ ms.methods e.intro e.intro, i.origin = .introduced ∧
      i.intro = e.intro ∧ i.name = e.name ∧ i.operands = e.operands ∧
      resultLayout i = resultLayout e := by
  have hseen := hco.seenMethod hc e he
  have hintro := (hseen.below_definer.trans hseen.below_intro).mem_names hco.rooted hc
  obtain ⟨i, hi, hname, heq, hparams, hresult⟩ := hseen.introduced
  refine ⟨hintro, i, hi, (hco.seenMethod hintro i hi).origin_iff.mpr heq, heq, hname, ?_, ?_⟩
  · have htypes := congrArg (List.map valueType) hparams
    rw [List.map_map, List.map_map] at htypes
    rw [MethodEntry.operands, MethodEntry.operands, heq]
    exact congrArg _ htypes
  · rw [resultLayout, resultLayout, hresult, heq]

theorem signatureType_eq (e : MethodEntry) :
    signatureType e = .func e.signatureId e.operands [valueType (resultLayout e)] :=
  rfl

theorem slot_mem (hco : ms.Coherent) (hc : c ∈ ms.hierarchy.names) {e : MethodEntry}
    (he : e ∈ ms.methods c c) : signatureType e ∈ (moduleOf ms pool funcs).types := by
  obtain ⟨hintro, i, hi, horigin, hsame, hname, hoperands, hresult⟩ := exists_introduced hco hc he
  have hsignature : signatureType e = signatureType i := by
    rw [signatureType_eq, signatureType_eq, hoperands, hresult, MethodEntry.signatureId,
      MethodEntry.signatureId, hname, hsame]
  rw [hsignature]
  refine mem_types hco.rooted hintro (List.mem_append_left _ (List.mem_map_of_mem ?_))
  exact List.mem_filter.mpr ⟨hi, decide_eq_true horigin⟩

end

/-- The entry of a method in the class that defines it. -/
theorem exists_defined {ms : Members} {c : Name} {e : MethodEntry} (he : ms.SeenMethod c e) :
    ∃ e' ∈ ms.methods e.definer e.definer, e'.interface = e.interface ∧ e'.name = e.name ∧
      e'.definer = e.definer := by
  obtain ⟨o, ho⟩ := he.defined
  exact ⟨_, ho, rfl, rfl, rfl⟩

/-! ## Functions in slots -/

/-- Whether a function has the type of the slot of a method. -/
structure FitsSlot (f : Func) (e : MethodEntry) : Prop where
  signature : f.signature = some e.signatureId
  params : f.params.map (·.2) = e.operands
  results : f.results = [valueType (resultLayout e)]

/-- What fits a slot depends on the interface of its method only. -/
theorem FitsSlot.of_interface {f : Func} {e e' : MethodEntry} (hf : FitsSlot f e)
    (he : e'.interface = e.interface) : FitsSlot f e' := by
  simp only [MethodEntry.interface, Prod.mk.injEq] at he
  obtain ⟨-, -, hintro, hparams, hresult, hsignature, -⟩ := he
  have htypes := congrArg (List.map valueType) hparams
  rw [List.map_map, List.map_map] at htypes
  refine ⟨hsignature ▸ hf.signature, ?_, ?_⟩
  · rw [hf.params, MethodEntry.operands, MethodEntry.operands, hintro]
    exact congrArg _ htypes.symm
  · rw [hf.results, resultLayout, resultLayout, hintro, hresult]

theorem FitsSlot.hasFunc {f : Func} {e : MethodEntry} (hf : FitsSlot f e) {m : Module}
    (hmem : f ∈ m.funcs) : m.HasFunc f.name e.operands [valueType (resultLayout e)] :=
  .inl ⟨f, hmem, rfl, hf.params, hf.results⟩

theorem builtinMethod_fits (e : MethodEntry) (locals : List (String × ValType))
    (body : List Instr) : FitsSlot (builtinMethod e locals body) e := by
  refine ⟨rfl, ?_, rfl⟩
  rw [builtinMethod, List.map_cons, List.map_map]
  rfl

theorem genericDefinition_fits (e : MethodEntry) :
    FitsSlot (Site.genericDefinition e.intro e) e := by
  refine ⟨rfl, ?_, rfl⟩
  change valueType e.intro :: (Site.numbered 0 e.params).map (·.2) = e.operands
  rw [numbered_types]
  rfl

theorem methodDefinition_fits {site : Site} {e : MethodEntry} {formals : List Formal}
    (hparams : e.params = formals.map Formal.parameter) (locals : List (String × ValType))
    (body : List Instr) : FitsSlot (site.methodDefinition e formals locals body) e := by
  refine ⟨rfl, ?_, rfl⟩
  rw [MethodEntry.operands, hparams, List.map_map]
  change (site.receiver e).2 ::
    (formals.map fun f => (localId f.name, valueType f.type)).map (·.2) = _
  rw [receiver_type, List.map_map]
  rfl

/-- The builtin methods are those with a body, and those every class has its own version of. -/
theorem builtin_covered : ∀ d ∈ Builtin.classes, ∀ x ∈ methodNames d.features,
    (d.name = .object ∧ (x = .copy ∨ x = .typeName)) ∨
      ∃ b ∈ builtinBodies, b.1 = d.name ∧ b.2.1 = x := by
  decide

theorem Allocates.hasFunc {site : Site} {c : Name} {f : Func} (h : Allocates site c f) :
    f.params = [] ∧ f.results = [objectType c] := by
  cases h <;> exact ⟨rfl, rfl⟩

/-- A method among features has its function. -/
theorem EmitsMethods.exists_method {site : Site} {fs : List Feature} {s s' : Progress}
    (h : EmitsMethods site fs s s') {d : Method} (hd : .method d ∈ fs) :
    ∃ entry locals body, site.ownMethod d = .ok entry ∧
      site.methodDefinition entry d.formals locals body ∈ s'.funcs := by
  induction h with
  | nil => cases hd
  | attr _ ih =>
      rcases List.mem_cons.mp hd with heq | hd
      · cases heq
      · exact ih hd
  | method hentry _ hrest ih =>
      rcases List.mem_cons.mp hd with heq | hd
      · cases heq
        exact ⟨_, _, _, hentry, hrest.grown.mem_funcs (Progress.mem_emitting _ _)⟩
      · exact ih hd

/-! ## The functions of a program -/

section

variable {p p' : Program} {ms : Members} {pool : Pool} {common : List Func} {s : Progress}
variable {c : Name}
variable (h : Pipeline.Analyzed p ms p') (hcommon : commonFuncs ms = .ok common)
variable (hemits : EmitsAll ms pool (declaredFeatures p') ms.hierarchy.topological
  { funcs := common } s)

include h hemits

theorem exists_emitsClass (hc : c ∈ ms.hierarchy.names) :
    ∃ s₁ s₂, EmitsClass ms pool c (declaredFeatures p' c) s₁ s₂ ∧ ∀ f ∈ s₂.funcs, f ∈ s.funcs :=
  hemits.exists_class ((Hierarchy.mem_topological h.coherent.rooted).mpr hc)

theorem hasFunc_new (hc : c ∈ ms.hierarchy.names) :
    (moduleOf ms pool s.funcs).HasFunc (newFunc c) [] [objectType c] := by
  obtain ⟨s₁, s₂, hclass, hfuncs⟩ := exists_emitsClass h hemits hc
  cases hclass with
  | @mk new own _ s₃ _ hnew hinit hown hmethods =>
      have hmem := hinit.grown.mem_funcs (List.mem_append_left _ (Progress.mem_emitting s₁ new))
      have hmem' := hmethods.grown.mem_funcs
        (List.mem_append_left _ (List.mem_append_left _ hmem))
      refine .inl ⟨new, hfuncs new hmem', hnew.name_eq, ?_, hnew.hasFunc.2⟩
      rw [hnew.hasFunc.1]
      rfl

theorem hasFunc_newVirtual (hc : c ∈ ms.hierarchy.names) :
    (moduleOf ms pool s.funcs).HasFunc (newVirtualFunc c) [] [objectType .object] := by
  obtain ⟨s₁, s₂, hclass, hfuncs⟩ := exists_emitsClass h hemits hc
  cases hclass with
  | @mk new own _ s₃ _ hnew hinit hown hmethods =>
      have hmem := hinit.grown.mem_funcs
        (Progress.mem_emitting (s₁.emitting new) (Site.newVirtualDefinition c))
      have hmem' := hmethods.grown.mem_funcs
        (List.mem_append_left _ (List.mem_append_left _ hmem))
      exact .inl ⟨_, hfuncs _ hmem', rfl, rfl, rfl⟩

theorem hasFunc_init (hc : c ∈ ms.hierarchy.names) (hprim : c.isPrimitive = false) :
    (moduleOf ms pool s.funcs).HasFunc (initFunc c) [valueType c] [] := by
  obtain ⟨s₁, s₂, hclass, hfuncs⟩ := exists_emitsClass h hemits hc
  cases hclass with
  | @mk new own _ s₃ _ hnew hinit hown hmethods =>
      cases hinit with
      | primitive hnot =>
          rw [show c.isPrimitive = true from hnot] at hprim
          cases hprim
      | object _ hown =>
          have hmem := hmethods.grown.mem_funcs
            (List.mem_append_left _ (List.mem_append_left _ (Progress.mem_emitting _ _)))
          exact .inl ⟨_, hfuncs _ hmem, rfl, rfl, rfl⟩

/-- The function that dispatches to a method is that of the class which introduced it. -/
theorem exists_generic (hc : c ∈ ms.hierarchy.names) {e : MethodEntry}
    (he : e ∈ ms.methods c c) : ∃ i, Site.genericDefinition e.intro i ∈ s.funcs ∧
      i.intro = e.intro ∧ i.name = e.name ∧ i.operands = e.operands ∧
      resultLayout i = resultLayout e := by
  obtain ⟨hintro, i, hi, horigin, hsame⟩ := exists_introduced h.coherent hc he
  obtain ⟨s₁, s₂, hclass, hfuncs⟩ := exists_emitsClass h hemits hintro
  cases hclass with
  | mk hnew hinit hown hmethods =>
      refine ⟨i, hfuncs _ (hmethods.grown.mem_funcs (List.mem_append_right _ ?_)), hsame⟩
      exact List.mem_map_of_mem (List.mem_filter.mpr ⟨hi, decide_eq_true horigin⟩)

theorem hasFunc_generic (hc : c ∈ ms.hierarchy.names) {e : MethodEntry}
    (he : e ∈ ms.methods c c) :
    (moduleOf ms pool s.funcs).HasFunc e.genericId e.operands [valueType (resultLayout e)] := by
  obtain ⟨i, hi, hintro, hname, hoperands, hresult⟩ := exists_generic h hemits hc he
  have hgeneric : i.genericId = e.genericId := by
    rw [MethodEntry.genericId, MethodEntry.genericId, hintro, hname]
  rw [← hintro] at hi
  rw [← hgeneric, ← hoperands, ← hresult]
  exact (genericDefinition_fits i).hasFunc hi

/-- The function of a method that a class of the program declares. -/
theorem exists_own (hc : c ∈ ms.hierarchy.names) (hbuiltin : c.isBuiltin = false)
    {e : MethodEntry} (he : e ∈ ms.methods c c) (hdefiner : e.definer = c) :
    ∃ f ∈ s.funcs, f.name = e.implementationId ∧ FitsSlot f e := by
  obtain ⟨decl, d, hdecl, hd, hname, hparams⟩ := (h.coherent.seenMethod hc e he).declared
  obtain ⟨decl', hdecl', hnames, hheader⟩ := declaredFeatures_own h hc hbuiltin
  rw [hdefiner, hdecl'] at hdecl
  cases hdecl
  obtain ⟨d', hd', hname'⟩ := mem_methodNames.mp (hnames ▸ mem_methodNames.mpr ⟨d, hd, hname⟩)
  obtain ⟨s₁, s₂, hclass, hfuncs⟩ := exists_emitsClass h hemits hc
  cases hclass with
  | mk hnew hinit hown hmethods =>
      obtain ⟨entry, locals, body, hentry, hmem⟩ := hmethods.exists_method hd'
      obtain ⟨hmem', hsame, -⟩ := ownMethod_eq_ok hentry
      obtain rfl := h.coherent.method_unique hc hmem' he (hsame.trans hname')
      refine ⟨_, hfuncs _ hmem, rfl, methodDefinition_fits ?_ _ _⟩
      -- the class declares one method of this name, so the formals are those of the entry
      obtain ⟨b, hb, hbname, hformals⟩ := hheader d' hd'
      obtain ⟨o, ho, hdeclares⟩ := h.coherent.declared_method hc hdecl' hb
      obtain rfl := h.coherent.method_unique hc ho he
        ((hdeclares.name.trans hbname).trans hname')
      rw [hdeclares.params, hformals]

/-- The body a class has of a method that every class has its own version of. -/
theorem exists_perClass (hc : c ∈ ms.hierarchy.names) {e : MethodEntry}
    (he : e ∈ ms.methods c c) (hper : isPerClass e = true) :
    ∃ f ∈ s.funcs, f.name = perClassFunc c e.name ∧ FitsSlot f e := by
  have hobject : Builtin.object ∈ Builtin.classes := List.mem_cons_self
  have hmemobject : Name.object ∈ ms.hierarchy.names := h.mem_of_builtin hobject
  obtain ⟨e', he', hinterface, hname', -⟩ := exists_defined (h.coherent.seenMethod hc e he)
  rw [(of_decide_eq_true hper).2] at he'
  -- the slot it is in was introduced by the root
  have hslot : ∀ {x : Method} {slot : MethodEntry}, .method x ∈ Builtin.object.features →
      e.name = x.name → ms.method? .object x.name .object = some slot →
      slot.intro = .object ∧ slot.params = x.formals.map Formal.parameter ∧
        slot.result = x.result ∧ e.interface = slot.interface := by
    intro x slot hx hname hfound
    obtain ⟨-, hslot⟩ := object_slot h.coherent hmemobject (h.builtin _ hobject) hx hfound
    have hfound' := h.coherent.method?_of_mem hmemobject he' .object
    rw [hname', hname, hfound] at hfound'
    cases hfound'
    exact ⟨hslot.1, hslot.2.1, hslot.2.2, hinterface.symm⟩
  obtain ⟨s₁, s₂, hclass, hfuncs⟩ := exists_emitsClass h hemits hc
  cases hclass with
  | @mk new own _ s₃ _ hnew hinit hown hmethods =>
      obtain ⟨f, hf, hbody⟩ := Members.Site.exists_left_of_forall₂ hown.flip
        (List.mem_filter.mpr ⟨he, hper⟩)
      refine ⟨f, hfuncs f (hmethods.grown.mem_funcs ?_), hbody.name_eq, ?_⟩
      · exact List.mem_append_left _ (List.mem_append_right _ hf)
      · cases hbody with
        | copy hname hfound =>
            obtain ⟨hintro, hparams, hresult, hsame⟩ := hslot
              (x := ⟨Builtin.span, .copy, [], .selfType, Builtin.none⟩)
              (by simp [Builtin.object, Builtin.method]) hname hfound
            refine FitsSlot.of_interface ⟨rfl, ?_, ?_⟩ hsame
            · rw [MethodEntry.operands, hintro, hparams]
              rfl
            · rw [resultLayout, hresult, hintro]
              rfl
        | typeName hname hfound =>
            obtain ⟨hintro, hparams, hresult, hsame⟩ := hslot
              (x := ⟨Builtin.span, .typeName, [], .string, Builtin.none⟩)
              (by simp [Builtin.object, Builtin.method]) hname hfound
            refine FitsSlot.of_interface ⟨rfl, ?_, ?_⟩ hsame
            · rw [MethodEntry.operands, hintro, hparams]
              rfl
            · rw [resultLayout, hresult, hintro]
              rfl

include hcommon

omit hemits in
theorem exists_builtin {d : ClassDecl} (hd : d ∈ Builtin.classes) {e : MethodEntry}
    (he : e ∈ ms.methods d.name d.name) (hdefiner : e.definer = d.name)
    (hper : isPerClass e = false) :
    ∃ f ∈ common, f.name = e.implementationId ∧ FitsSlot f e := by
  have hc := h.mem_of_builtin hd
  obtain ⟨decl, m, hdecl, hm, hname, -⟩ := (h.coherent.seenMethod hc e he).declared
  rw [hdefiner, h.builtin d hd] at hdecl
  cases hdecl
  rcases builtin_covered _ hd _ (mem_methodNames.mpr ⟨m, hm, hname⟩) with
    ⟨hobject, hx⟩ | ⟨b, hb, hbc, hbx⟩
  · rw [isPerClass, decide_eq_true (And.intro hx (hdefiner.trans hobject))] at hper
    cases hper
  · obtain ⟨methods, hmethods, heq⟩ := except_bind_eq_ok.mp hcommon
    obtain ⟨f, hf, e', he', hname', -, rfl⟩ := Members.Site.exists_left_of_forall₂
      (builtinMethods_eq_ok h hmethods).flip hb
    rw [hbc] at he'
    obtain rfl := h.coherent.method_unique hc he he' (hname'.trans hbx).symm
    have hmem : builtinMethod e b.2.2.1 b.2.2.2 ∈ common := by
      rw [← Except.ok.inj heq]
      exact List.mem_append_right _ hf
    exact ⟨_, hmem, rfl, builtinMethod_fits _ _ _⟩

/-- The function that the table of a class holds for a method fits its slot. -/
theorem exists_tableEntry (hc : c ∈ ms.hierarchy.names) {e : MethodEntry}
    (he : e ∈ ms.methods c c) : ∃ f ∈ s.funcs, f.name = tableEntry c e ∧ FitsSlot f e := by
  unfold tableEntry
  split
  · rename_i hper
    exact exists_perClass h hemits hc he hper
  · rename_i hper
    have hseen := h.coherent.seenMethod hc e he
    have hdefiner := hseen.below_definer.mem_names h.coherent.rooted hc
    obtain ⟨e', he', hinterface, hname, hsame⟩ := exists_defined hseen
    have hid : e'.implementationId = e.implementationId := by
      rw [MethodEntry.implementationId, MethodEntry.implementationId, hname, hsame]
    cases hbuiltin : e.definer.isBuiltin with
    | false =>
        obtain ⟨f, hf, hfname, hfits⟩ := exists_own h hemits hdefiner hbuiltin he' hsame
        exact ⟨f, hf, hfname.trans hid, hfits.of_interface hinterface.symm⟩
    | true =>
        obtain ⟨d, hd, hdname⟩ := Hierarchy.isBuiltin_iff.mp hbuiltin
        have hper' : isPerClass e' = false := by
          rw [isPerClass, hname, hsame]
          exact Bool.eq_false_iff.mpr hper
        rw [← hdname] at he'
        obtain ⟨f, hf, hfname, hfits⟩ :=
          exists_builtin h hcommon hd he' (hsame.trans hdname.symm) hper'
        exact ⟨f, hemits.mem_funcs hf, hfname.trans hid, hfits.of_interface hinterface.symm⟩

end

/-- What a module is made of: the constants of the program, the functions every module has, and
those of the classes. -/
theorem generate_eq_ok {p : Program} {ms : Members} {strings : Interner} {out : Output}
    (hout : generate ms strings p = .ok out) :
    ∃ pool common s, Pool.ofProgram strings ms.hierarchy.topological p = .ok pool ∧
      commonFuncs ms = .ok common ∧
      EmitsAll ms pool (declaredFeatures p) ms.hierarchy.topological { funcs := common } s ∧
      out.module = moduleOf ms pool s.funcs := by
  unfold generate at hout
  dsimp only at hout
  split at hout
  · cases hout
  · rename_i pool hpool
    split at hout
    · cases hout
    · rename_i funcs hfuncs
      obtain ⟨common, hcommon, -⟩ := except_bind_eq_ok.mp hfuncs
      rw [functions_eq hcommon] at hfuncs
      cases hrun : (ms.hierarchy.topological.forM fun c =>
          emitClass ms pool c (declaredFeatures p c)) { funcs := common } with
      | error f =>
          rw [hrun] at hfuncs
          cases hfuncs
      | ok r =>
          rw [hrun] at hfuncs
          cases hfuncs
          cases hout
          exact ⟨pool, common, r.2, hpool, hcommon, .of_ok hrun, rfl⟩

end Cool.Lowering
