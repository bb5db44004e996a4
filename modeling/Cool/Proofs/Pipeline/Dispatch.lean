import Cool.Proofs.Lowering.Generated
import Cool.Proofs.Members.Nearest

/-! Virtual dispatch. A call goes through the table of the receiver, and the function it finds in
the slot of the method is the body that the nearest class declares. -/

namespace Cool

namespace Lowering

open Wat

/-! ## Tables -/

/-- The place in a table of the method in a slot, after the allocator. -/
theorem idxOf_tableFields {methods : List MethodEntry}
    (hnodup : ((tableFields methods).map (·.name)).Nodup) {k : Nat} {e : MethodEntry}
    (he : methods[k]? = some e) :
    ((tableFields methods).map (·.name)).idxOf (fieldId e.name) = k + 1 ∧
      (tableFields methods)[k + 1]? = some ⟨fieldId e.name, false, .ref false e.signatureId⟩ := by
  have hfield : (tableFields methods)[k + 1]? =
      some ⟨fieldId e.name, false, .ref false e.signatureId⟩ := by
    rw [tableFields, List.getElem?_cons_succ, List.getElem?_map, he]
    rfl
  refine ⟨?_, hfield⟩
  have hname : ((tableFields methods).map (·.name))[k + 1]? = some (fieldId e.name) := by
    rw [List.getElem?_map, hfield]
    rfl
  obtain ⟨hk, hget⟩ := List.getElem?_eq_some_iff.mp hname
  rw [← hget]
  exact hnodup.idxOf_getElem _ hk

/-- The body of a function that calls what the table of the receiver holds for a method. The table
is that of an object of the class that introduced the method. -/
def dispatching (m : MethodEntry) (params : List (String × ValType)) : List Instr :=
  [.plain (.callRef m.signatureId)
    (params.map (fun p => getLocal p.1) ++
      [.plain (.structGet (tableType m.intro) (fieldId m.name))
        [.plain (.structGet (classType m.intro) tableField) [getLocal selfLocal]]])]

/-- A call of a method on an object of a class runs the function of the given name: the slot that
the dispatching function reads is in one place of the table of every class, and there the table of
the class refers to the function, which is defined once and has the type of the slot. -/
structure Reaches (module : Module) (m : MethodEntry) (cls : Name) (function : String) : Prop where
  reads : ∃ f, module.definitions m.genericId = [f] ∧ f.body = dispatching m f.params
  place : ∃ k super fields super' fields' operands,
    module.type? (tableType m.intro) = some (.struct (tableType m.intro) super fields) ∧
    module.type? (tableType cls) = some (.struct (tableType cls) super' fields') ∧
    (module.global? (tableGlobal cls)).map (·.init) =
      some (.plain (.structNew (tableType cls)) operands) ∧
    (fields.map (·.name)).idxOf (fieldId m.name) = k ∧
    (fields'.map (·.name)).idxOf (fieldId m.name) = k ∧
    fields[k]? = some ⟨fieldId m.name, false, .ref false m.signatureId⟩ ∧
    fields'[k]? = some ⟨fieldId m.name, false, .ref false m.signatureId⟩ ∧
    operands[k]? = some (.plain (.refFunc function) [])
  fits : ∃ f, module.definitions function = [f] ∧ f.signature = some m.signatureId ∧
    module.type? m.signatureId = some (.func m.signatureId (f.params.map (·.2)) f.results)

/-- The function of a method in a class, by the nearest class that declares it. Every class has its
own body of copying and naming as the root declares them. -/
def bodyOf (cls definer x : Name) : String :=
  if (x = .copy ∨ x = .typeName) ∧ definer = .object then perClassFunc cls x
  else perClassFunc definer x

theorem tableEntry_eq (cls : Name) (e : MethodEntry) :
    tableEntry cls e = bodyOf cls e.definer e.name := by
  unfold tableEntry bodyOf isPerClass
  simp only [decide_eq_true_eq]
  rfl

section

variable {p p' : Program} {ms : Members} {pool : Pool} {common : List Func} {s : Progress}
variable (h : Pipeline.Analyzed p ms p') (hms : Named ms)
variable (hcommon : commonFuncs ms = .ok common)
variable (hemits : EmitsAll ms pool (declaredFeatures p') ms.hierarchy.topological
  { funcs := common } s)
variable (hdistinct : (moduleOf ms pool s.funcs).NamesDistinct)

include h hdistinct

theorem type?_tableType {c : Name} (hc : c ∈ ms.hierarchy.names) :
    (moduleOf ms pool s.funcs).type? (tableType c) =
      some (.struct (tableType c) ((ms.hierarchy.parent? c).map tableType)
        (tableFields (ms.methods c c))) :=
  hdistinct.type?_of_mem (mem_types h.coherent.rooted hc
    (List.mem_append_right _ List.mem_cons_self))

theorem global?_tableGlobal {c : Name} (hc : c ∈ ms.hierarchy.names) :
    (moduleOf ms pool s.funcs).global? (tableGlobal c) = some (tableDefinition ms c) :=
  hdistinct.global?_of_mem (List.mem_append_left _
    (List.mem_map_of_mem ((Hierarchy.mem_topological h.coherent.rooted).mpr hc)))

include hemits

theorem exists_dispatching {c : Name} (hc : c ∈ ms.hierarchy.names) {m : MethodEntry}
    (hm : m ∈ ms.methods c c) :
    ∃ f, (moduleOf ms pool s.funcs).definitions m.genericId = [f] ∧
      f.body = dispatching m f.params := by
  obtain ⟨i, hi, hintro, hname, -⟩ := exists_generic h hemits hc hm
  have hid : (Site.genericDefinition m.intro i).name = m.genericId := by
    change i.genericId = m.genericId
    rw [MethodEntry.genericId, MethodEntry.genericId, hintro, hname]
  refine ⟨_, hid ▸ hdistinct.definitions_of_mem hi, ?_⟩
  simp only [Site.genericDefinition, dispatching, MethodEntry.signatureId, hintro, hname,
    List.map_cons, List.cons_append]

include hms hcommon

/-- A slot that a class has in the same place as the class that introduced it. -/
theorem reaches_tableEntry {c r : Name} {m i e : MethodEntry} {k : Nat}
    (hc : c ∈ ms.hierarchy.names) (hm : m ∈ ms.methods c c) (hr : r ∈ ms.hierarchy.names)
    (hintro : m.intro ∈ ms.hierarchy.names) (hi : (ms.methods m.intro m.intro)[k]? = some i)
    (he : (ms.methods r r)[k]? = some e) (hiname : i.name = m.name) (hename : e.name = m.name)
    (hisignature : i.signatureId = m.signatureId) (hesignature : e.signatureId = m.signatureId) :
    Reaches (moduleOf ms pool s.funcs) m r (tableEntry r e) where
  reads := exists_dispatching h hemits hdistinct hc hm
  place := by
    obtain ⟨hplace, hfield⟩ := idxOf_tableFields (tableFields_nodup h.coherent hms hintro) hi
    obtain ⟨hplace', hfield'⟩ := idxOf_tableFields (tableFields_nodup h.coherent hms hr) he
    rw [hiname] at hplace
    rw [hename] at hplace'
    rw [hiname, hisignature] at hfield
    rw [hename, hesignature] at hfield'
    refine ⟨k + 1, _, _, _, _,
      .plain (.refFunc (newVirtualFunc r)) [] ::
        (ms.methods r r).map fun m => .plain (.refFunc (tableEntry r m)) [],
      type?_tableType h hdistinct hintro, type?_tableType h hdistinct hr, ?_, hplace, hplace',
      hfield, hfield', ?_⟩
    · rw [global?_tableGlobal h hdistinct hr]
      rfl
    · rw [List.getElem?_cons_succ, List.getElem?_map, he]
      rfl
  fits := by
    have hmem : e ∈ ms.methods r r := List.mem_of_getElem? he
    obtain ⟨f, hf, hfname, hfits⟩ := exists_tableEntry h hcommon hemits hr hmem
    refine ⟨f, hfname ▸ hdistinct.definitions_of_mem hf, hesignature ▸ hfits.signature, ?_⟩
    rw [hfits.params, hfits.results, ← hesignature]
    exact hdistinct.type?_of_mem (slot_mem h.coherent hr hmem)

end

end Lowering

namespace Pipeline

open Lowering

/-- Virtual dispatch reaches the right body: in the module of an accepted program whose names are
identifiers, a call of a method that a class has, on an object of any class below, runs the body of
the nearest class that declares the method. -/
theorem dispatch_reaches_nearest {p : Program} {ms : Members} {strings : Interner}
    {out : Output} (ha : (analyze p).verdict = .accepted ms)
    (hnamed : ∀ n ∈ p.nodes, n.isNamed = true)
    (hout : generate ms strings (analyze p).program = .ok out) {c r : Name} {m : MethodEntry}
    (hc : c ∈ ms.hierarchy.names) (hm : m ∈ ms.methods c c)
    (hrc : ms.hierarchy.Inherits r c) :
    (∃ d, ms.hierarchy.IsNearest r m.name d) ∧
      ∀ d, ms.hierarchy.IsNearest r m.name d →
        Reaches out.module m r (bodyOf r d m.name) := by
  have h := analyzed_of_accepted ha
  have hco := h.coherent
  obtain ⟨pool, common, s, hpool, hcommon, hemits, hmodule⟩ := generate_eq_ok hout
  have hms := named_of_analyzed h hnamed
  have hdistinct := namesDistinct_moduleOf h hms (Pool.serves_of_ofProgram hpool).ints_nodup
    hcommon hemits
  have hr : r ∈ ms.hierarchy.names := by
    rcases hrc.cases_parent with rfl | ⟨q, hq, -⟩
    · exact hc
    · exact Hierarchy.mem_names_of_parent? hq
  -- the slot was introduced above, and the class has it in the same place
  have hseen := hco.seenMethod hc m hm
  have habove := hrc.trans (hseen.below_definer.trans hseen.below_intro)
  obtain ⟨hintro, i, hi, -, hsame, hname, -⟩ := exists_introduced hco hc hm
  obtain ⟨k, hk⟩ := List.mem_iff_getElem?.mp hi
  obtain ⟨hb, -⟩ := analyze_accepted ha
  have hrooted := Hierarchy.rooted_of_valid (Members.valid_of_build hb)
  obtain ⟨e, he, hinterface⟩ := Members.getElem?_of_inherits hrooted hb
    (Members.hierarchy_of_build hrooted hb ▸ habove) hk
  simp only [MethodEntry.interface, Prod.mk.injEq] at hinterface
  obtain ⟨hename, -, -, -, -, hesignature, -⟩ := hinterface
  have hsignature : i.signatureId = m.signatureId := by
    rw [MethodEntry.signatureId, MethodEntry.signatureId, hsame, hname]
  have hnearest := hco.isNearest_definer hr e (List.mem_of_getElem? he)
  rw [hename, hname] at hnearest
  refine ⟨⟨_, hnearest⟩, fun d hd => ?_⟩
  rw [hd.unique hco.rooted hnearest, ← hename.trans hname, ← tableEntry_eq, hmodule]
  exact reaches_tableEntry h hms hcommon hemits hdistinct hc hm hr hintro hk he hname
    (hename.trans hname) hsignature (hesignature.trans hsignature)

/-- The tree of `class B inherits A { f() : Int { 2 }; };`. -/
def overridingHeir : ClassDecl :=
  let span : Span := ⟨"override.cl", 2⟩
  ⟨span, .named "B", .named "A", [.method ⟨span, .named "f", [], .int, .int { span } "2"⟩]⟩

/-- The tree of `class A { f() : Int { 1 }; };` with the heir that overrides `f`. -/
def overridden : Program :=
  let span : Span := ⟨"override.cl", 1⟩
  ⟨span, [⟨span, .named "A", .object, [.method ⟨span, .named "f", [], .int, .int { span } "1"⟩]⟩,
    overridingHeir]⟩

/-- Whether a program is accepted, has a module, and its class has the method. -/
def hasModuleWith (p : Program) (cls method : Name) : Bool :=
  match (analyze p).verdict with
  | .accepted ms =>
    (generate ms {} (analyze p).program).toOption.isSome && (ms.method? cls method cls).isSome
  | _ => false

theorem dispatch_of_overridden : ∃ ms out m, (analyze overridden).verdict = .accepted ms ∧
    generate ms {} (analyze overridden).program = .ok out ∧
    m ∈ ms.methods (.named "A") (.named "A") ∧
    Reaches out.module m (.named "B") "$B.f.implementation" := by
  have hmodule : hasModuleWith overridden (.named "A") (.named "f") = true := by decide +kernel
  unfold hasModuleWith at hmodule
  split at hmodule
  · rename_i ms ha
    obtain ⟨hb, -⟩ := analyze_accepted ha
    have hh := Members.hierarchy_of_build (Hierarchy.rooted_of_valid (Members.valid_of_build hb)) hb
    rw [Bool.and_eq_true, Option.isSome_iff_exists, Option.isSome_iff_exists] at hmodule
    obtain ⟨⟨out, hout⟩, m, hm⟩ := hmodule
    have hname : m.name = .named "f" := by simpa using List.find?_some hm
    have hout : generate ms {} (analyze overridden).program = .ok out := by
      cases hgenerate : generate ms {} (analyze overridden).program with
      | error e =>
          rw [hgenerate] at hout
          cases hout
      | ok out' =>
          rw [hgenerate] at hout
          cases hout
          rfl
    have hmem : m ∈ ms.methods (.named "A") (.named "A") := List.mem_of_find?_eq_some hm
    have hbelow : ms.hierarchy.Inherits (.named "B") (.named "A") :=
      .of_parent (p := .named "A") (by rw [hh]; decide +kernel) (.refl _)
    have hnearest : ms.hierarchy.IsNearest (.named "B") m.name (.named "B") := by
      refine ⟨.refl _, ⟨overridingHeir, _, ?_, List.mem_cons_self, hname.symm⟩, fun _ he _ => he⟩
      rw [hh]
      exact Hierarchy.decl?_of_mem (Members.valid_of_build hb) (c := overridingHeir)
        (List.mem_append_right _ (by simp [overridden]))
    have hreaches := (dispatch_reaches_nearest ha (by decide +kernel) hout
      (by rw [hh]; decide +kernel) hmem hbelow).2 _ hnearest
    rw [hname] at hreaches
    exact ⟨ms, out, m, ha, hout, hmem, hreaches⟩
  · cases hmodule

end Pipeline

end Cool
