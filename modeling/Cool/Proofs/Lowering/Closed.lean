import Cool.Proofs.Lowering.Generated
import Cool.Proofs.Lowering.Start
import Cool.Proofs.Wat.References

/-! The types, constants and common functions of a module use names that the module defines, and
its exports are told apart by their names. -/

namespace Cool.Lowering

open Wat

/-! ## What every module has -/

/-- The functions every module has besides the builtin methods. -/
def helpers : List Func :=
  boxing ++ [lengthDefinition, charAtDefinition, stringEqualsDefinition, objectEqualsDefinition]

/-- What the imports, types and functions that every module has refer to. -/
def commonReferences : List Reference :=
  [Name.object, .int, .bool, .string].map (fun c => .type (classType c)) ++
    [charsType, lengthSignature, charAtSignature].map .type ++
    [.array charsType, .signature lengthSignature, .signature charAtSignature,
      .struct (classType .int), .struct (classType .string),
      .field (classType .int) valueField, .field (classType .bool) valueField,
      .field (classType .string) charsField] ++
    [tableGlobal .int, tableGlobal .string, trueGlobal, falseGlobal].map .global ++
    helpers.map (fun f => .func f.name) ++
    [.func outStringHost, .func outIntHost, .tag abortTag]

theorem imports_references : ∀ i ∈ imports, ∀ r ∈ i.references, r ∈ commonReferences := by
  decide

theorem fixedTypes_references : ∀ t ∈ fixedTypes, ∀ r ∈ t.references, r ∈ commonReferences := by
  decide

theorem helpers_references : ∀ f ∈ helpers, (f.slots.map (·.1)).Nodup ∧
    ∀ r ∈ f.references, r ∈ f.slots.map (fun s => .slot s.1) ∨ r ∈ commonReferences := by
  decide +kernel

/-- The names of the parameters and locals of a builtin method. -/
def builtinSlots (m : Method) (locals : List (String × ValType)) : List String :=
  selfLocal :: m.formals.map (fun f => localId f.name) ++ locals.map (·.1)

theorem builtinBodies_references : ∀ d ∈ Builtin.classes,
    ∀ m ∈ d.features.filterMap Feature.method?, ∀ b ∈ builtinBodies, b.1 = d.name →
    b.2.1 = m.name → (builtinSlots m b.2.2.1).Nodup ∧
      (∀ s ∈ b.2.2.1, ∀ r ∈ s.2.references, r ∈ commonReferences) ∧
      ∀ r ∈ Instr.referencesAll b.2.2.2,
        r ∈ (builtinSlots m b.2.2.1).map .slot ∨ r ∈ commonReferences := by
  decide +kernel

theorem resolves_common {ms : Members} {pool : Pool} {m : Module} (hm : Provides m ms pool)
    (hbuiltin : ∀ d ∈ Builtin.classes, d.name ∈ ms.hierarchy.names)
    (himports : m.imports = imports) (hhelpers : ∀ f ∈ helpers, f ∈ m.funcs) :
    ∀ r ∈ commonReferences, m.Resolves r := by
  have hclass : ∀ c ∈ [Name.object, .int, .bool, .string], c ∈ ms.hierarchy.names := by
    intro c hc
    have hdeclared : ∀ c ∈ [Name.object, .int, .bool, .string],
        ∃ d ∈ Builtin.classes, d.name = c := by decide
    obtain ⟨d, hd, rfl⟩ := hdeclared c hc
    exact hbuiltin d hd
  have hint : Name.int ∈ ms.hierarchy.names := hclass _ (by decide)
  have hbool : Name.bool ∈ ms.hierarchy.names := hclass _ (by decide)
  have hstring : Name.string ∈ ms.hierarchy.names := hclass _ (by decide)
  unfold commonReferences
  simp only [List.forall_mem_append]
  refine ⟨⟨⟨⟨⟨?_, ?_⟩, ?_⟩, ?_⟩, ?_⟩, ?_⟩
  · rw [List.forall_mem_map]
    exact fun c hc => hm.defines (hclass c hc)
  · rw [List.forall_mem_map]
    intro t ht
    have hname : ∀ t ∈ [charsType, lengthSignature, charAtSignature],
        ∃ d ∈ fixedTypes, d.name = t := by decide
    obtain ⟨d, hd, rfl⟩ := hname t ht
    exact ⟨d, hm.fixed d hd, rfl⟩
  · simp only [List.forall_mem_cons]
    exact ⟨hm.fixed _ (.head _), ⟨_, _, hm.fixed _ (.tail _ (.tail _ (.head _)))⟩,
      ⟨_, _, hm.fixed _ (.tail _ (.tail _ (.tail _ (.head _))))⟩, ⟨_, hm.hasObject hint⟩,
      ⟨_, hm.hasObject hstring⟩, ⟨_, hm.hasObject hint, .tail _ (.head _)⟩,
      ⟨_, hm.hasObject hbool, .tail _ (.head _)⟩, ⟨_, hm.hasObject hstring, .tail _ (.head _)⟩,
      List.forall_mem_nil _⟩
  · simp only [List.forall_mem_map, List.forall_mem_cons]
    exact ⟨⟨_, hm.tableGlobal _ hint⟩, ⟨_, hm.tableGlobal _ hstring⟩,
      ⟨_, hm.hasGlobal_bool true⟩, ⟨_, hm.hasGlobal_bool false⟩,
      List.forall_mem_nil _⟩
  · rw [List.forall_mem_map]
    exact fun f hf => ⟨_, _, .inl ⟨f, hhelpers f hf, rfl, rfl, rfl⟩⟩
  · simp only [List.forall_mem_cons]
    have himported : ∀ i ∈ imports, i ∈ m.imports := fun i hi => himports ▸ hi
    exact ⟨⟨_, _, .inr ⟨⟨_, himported _ (.tail _ (.head _))⟩, rfl⟩⟩,
      ⟨_, _, .inr ⟨⟨_, himported _ (.tail _ (.tail _ (.head _)))⟩, rfl⟩⟩, ⟨_, hm.tag⟩,
      List.forall_mem_nil _⟩

/-- The functions every module has besides the builtin methods are closed. -/
theorem helpers_closed {m : Module} (hresolves : ∀ r ∈ commonReferences, m.Resolves r) :
    ∀ f ∈ helpers, f.Closed m := by
  intro f hf
  obtain ⟨hnodup, hreferences⟩ := helpers_references f hf
  refine ⟨hnodup, fun r hr => ?_⟩
  rcases hreferences r hr with hslot | hcommon
  · obtain ⟨s, hs, rfl⟩ := List.mem_map.mp hslot
    exact CodeContext.resolves_slot hs
  · exact CodeContext.resolves_of_module (hresolves r hcommon)

section

variable {ms : Members} {pool : Pool} {m : Module} (hms : Regular ms) (hm : Provides m ms pool)
variable {c : Name} (hc : c ∈ ms.hierarchy.names)

include hms hm hc

/-- The operands and the result of a method are of defined types. -/
theorem slot_defined {e : MethodEntry} (he : e ∈ ms.methods c c) :
    ∀ t ∈ e.operands ++ [valueType (resultLayout e)], m.HasValType t := by
  have hseen := hms.coherent.seenMethod hc e he
  have hintro := (hseen.below_definer.trans hseen.below_intro).mem_names hms.coherent.rooted hc
  refine List.forall_mem_append.mpr ⟨List.forall_mem_cons.mpr ⟨hm.defines hintro, ?_⟩, ?_⟩
  · exact List.forall_mem_map.mpr fun q hq => hm.defines (hseen.params_typed q hq)
  · exact List.forall_mem_singleton.mpr
      (hm.defines (resultLayout_mem (hms.proper c hc) hc he))

/-- The function of a builtin method is closed. -/
theorem builtinMethod_closed (hresolves : ∀ r ∈ commonReferences, m.Resolves r)
    {b : Name × Name × List (String × ValType) × List Instr} (hb : b ∈ builtinBodies)
    (hclass : b.1 = c) {e : MethodEntry} (he : e ∈ ms.methods c c) (hname : e.name = b.2.1)
    (hdefiner : e.definer = c) : (builtinMethod e b.2.2.1 b.2.2.2).Closed m := by
  obtain ⟨d, hd, hdname, -⟩ := builtinBodies_declared b hb
  obtain ⟨decl, x, hdecl, hx, hxname, hparams⟩ := (hms.coherent.seenMethod hc e he).declared
  rw [hdefiner, ← hclass, ← hdname, hms.builtin d hd] at hdecl
  cases hdecl
  obtain ⟨hnodup, hlocals, hbody⟩ := builtinBodies_references d hd x
    (List.mem_filterMap.mpr ⟨_, hx, rfl⟩) b hb hdname.symm (hname.symm.trans hxname.symm)
  have hslots : (builtinMethod e b.2.2.1 b.2.2.2).slots.map (·.1) = builtinSlots x b.2.2.1 := by
    simp [builtinMethod, Func.slots, builtinSlots, hparams, Formal.parameter]
  obtain ⟨hoperands, hresult⟩ := List.forall_mem_append.mp (slot_defined hms hm hc he)
  refine Func.closed_of_body (hslots ▸ hnodup) (fun t ht => ?_)
    (List.forall_mem_append.mpr ⟨fun s hs => ?_, fun s hs => ?_⟩) hresult fun r hr => ?_
  · cases ht
    exact ⟨_, _, hm.slot c hc e he⟩
  · refine hoperands _ ?_
    rw [← (builtinMethod_fits e b.2.2.1 b.2.2.2).params]
    exact List.mem_map_of_mem hs
  · exact Module.hasValType_iff.mpr fun r hr => hresolves r (hlocals s hs r hr)
  · rcases hbody r hr with hslot | hr
    · obtain ⟨x, hx, rfl⟩ := List.mem_map.mp hslot
      rw [← hslots] at hx
      exact hx
    · exact CodeContext.resolves_of_module (hresolves r hr)

/-! ## Types -/

omit hms in
theorem tableFields_resolve : ∀ f ∈ tableFields (ms.methods c c),
    ∀ r ∈ f.type.references, m.Resolves r := by
  refine List.forall_mem_cons.mpr ⟨fun r hr => ?_, fun f hf r hr => ?_⟩
  · rw [List.mem_singleton.mp hr]
    exact ⟨_, hm.fixed _ (.tail _ (.head _)), rfl⟩
  · obtain ⟨e, he, rfl⟩ := List.mem_map.mp hf
    rw [List.mem_singleton.mp hr]
    exact ⟨_, hm.slot c hc e he, rfl⟩

theorem objectFields_resolve : ∀ f ∈ objectFields c (ms.attributes c c),
    ∀ r ∈ f.type.references, m.Resolves r := by
  refine List.forall_mem_cons.mpr ⟨fun r hr => ?_, fun f hf r hr => ?_⟩
  · rw [List.mem_singleton.mp hr]
    exact ⟨_, hm.table c hc, rfl⟩
  · unfold dataFields at hf
    split at hf
    · rw [List.mem_singleton.mp hf] at hr
      cases hr
    · rename_i hnumber
      split at hf
      · rw [List.mem_singleton.mp hf] at hr
        rw [List.mem_singleton.mp hr]
        exact ⟨_, hm.fixed _ (.head _), rfl⟩
      · rename_i hstring
        have hprim : c.isPrimitive = false := by
          rw [not_or] at hnumber
          simp [Name.isPrimitive, hnumber, hstring]
        obtain ⟨a, ha, rfl⟩ := List.mem_map.mp hf
        have htype := hms.attribute_typed c hc hprim a ha
        have hlayout := attributeLayout_mem (hms.proper c hc) ha htype
        rw [List.mem_singleton.mp hr]
        exact hm.defines hlayout

theorem classTypes_resolve : ∀ t ∈ classTypes ms c, ∀ r ∈ t.references, m.Resolves r := by
  have hparent : ∀ {p}, ms.hierarchy.parent? c = some p → p ∈ ms.hierarchy.names := fun hp =>
    (Hierarchy.Inherits.of_parent hp (.refl _)).mem_names hms.coherent.rooted hc
  intro t ht r hr
  rcases List.mem_append.mp ht with ht | ht
  · obtain ⟨e, he, rfl⟩ := List.mem_map.mp ht
    have hdefined := slot_defined hms hm hc (List.mem_of_mem_filter he)
    exact Module.resolves_of_hasValTypes hdefined r hr
  rcases List.mem_pair.mp ht with rfl | rfl
  · rcases List.mem_append.mp hr with hr | hr
    · obtain ⟨x, hx, rfl⟩ := List.mem_map.mp hr
      obtain ⟨p, hp, rfl⟩ := Option.map_eq_some_iff.mp (Option.mem_toList.mp hx)
      exact ⟨_, hm.hasTable (hparent hp)⟩
    · obtain ⟨f, hf, hr⟩ := List.mem_flatMap.mp hr
      exact tableFields_resolve hm hc f hf r hr
  · rcases List.mem_append.mp hr with hr | hr
    · obtain ⟨x, hx, rfl⟩ := List.mem_map.mp hr
      obtain ⟨p, hp, rfl⟩ := Option.map_eq_some_iff.mp (Option.mem_toList.mp hx)
      exact ⟨_, hm.hasObject (hparent hp)⟩
    · obtain ⟨f, hf, hr⟩ := List.mem_flatMap.mp hr
      exact objectFields_resolve hms hm hc f hf r hr

end

/-- The types of a class extend those of its parent. -/
theorem super_of_classTypes {ms : Members} {c : Name} {t : TypeDef} (ht : t ∈ classTypes ms c)
    {x : String} (hx : x ∈ t.super?.toList) : ∃ p, ms.hierarchy.parent? c = some p ∧
      ∃ u ∈ classTypes ms p, u.name = x := by
  rcases List.mem_append.mp ht with ht | ht
  · obtain ⟨e, -, rfl⟩ := List.mem_map.mp ht
    cases hx
  rcases List.mem_pair.mp ht with rfl | rfl
  · obtain ⟨p, hp, rfl⟩ := Option.map_eq_some_iff.mp (Option.mem_toList.mp hx)
    exact ⟨p, hp, _, List.mem_append_right _ List.mem_cons_self, rfl⟩
  · obtain ⟨p, hp, rfl⟩ := Option.map_eq_some_iff.mp (Option.mem_toList.mp hx)
    exact ⟨p, hp, _, List.mem_append_right _ (List.mem_cons_of_mem _ List.mem_cons_self), rfl⟩

/-- Types extend types before them, since parents come first. -/
theorem supers_earlier {ms : Members} {order : List Name}
    (horder : ms.hierarchy.ParentsFirst order) : UsesEarlier (·.name) (·.super?.toList)
      (fixedTypes ++ order.flatMap (classTypes ms)) := by
  induction order using List.reverseRecOn with
  | nil =>
      have hnone : ∀ t ∈ fixedTypes, t.super? = none := by decide
      rw [List.flatMap_nil, List.append_nil, ← List.nil_append fixedTypes]
      refine (UsesEarlier.nil _ _).append fun t ht x hx => ?_
      rw [hnone t ht] at hx
      cases hx
  | append_singleton order c ih =>
      have hbefore : ms.hierarchy.ParentsFirst order := fun before d after heq =>
        horder before d (after ++ [c]) (by rw [heq, List.append_assoc, List.cons_append])
      rw [List.flatMap_append, List.flatMap_singleton, ← List.append_assoc]
      refine (ih hbefore).append fun t ht x hx => ?_
      obtain ⟨p, hp, u, hu, rfl⟩ := super_of_classTypes ht hx
      exact List.mem_map_of_mem (List.mem_append_right _
        (List.mem_flatMap.mpr ⟨p, horder order c [] rfl p hp, hu⟩))

/-! ## Constants -/

theorem chars_references (text : String) :
    ∀ r ∈ (Pool.chars text).references, r = .array charsType := by
  intro r hr
  rw [Pool.chars, Instr.references, List.mem_append, Instr.referencesAll_eq, List.mem_flatMap] at hr
  rcases hr with hr | ⟨i, hi, hr⟩
  · exact List.mem_singleton.mp hr
  · obtain ⟨b, -, rfl⟩ := List.mem_map.mp hi
    cases hr

section

variable {ms : Members} {pool : Pool}

/-- What a pooled constant refers to. -/
theorem pooled_references {g : Global} (hg : g ∈ pool.globals) : ∃ c, c.isBuiltin = true ∧
    ∀ r ∈ g.references, r = .type (classType c) ∨ r = .struct (classType c) ∨
      r = .global (tableGlobal c) ∨ r = .array charsType := by
  obtain ⟨name, c, contents, rfl, -, hbuiltin, hcontents⟩ := Pool.exists_boxed hg
  refine ⟨c, hbuiltin, fun r hr => ?_⟩
  have hrest : ∀ r ∈ contents.references, r = .array charsType := by
    rcases hcontents with ⟨n, rfl⟩ | ⟨text, rfl⟩
    · nofun
    · exact chars_references text
  simp only [Global.references, Pool.boxed, objectType, ValType.references, Instr.references,
    Op.references, Instr.referencesAll, List.mem_append, List.mem_cons, List.not_mem_nil,
    or_false] at hr
  rcases hr with hr | hr | hr | hr
  · exact .inl hr
  · exact .inr (.inl hr)
  · exact .inr (.inr (.inl hr))
  · exact .inr (.inr (.inr (hrest r hr)))

/-- What the table of a class refers to. -/
theorem table_references {c : Name} : ∀ r ∈ (tableDefinition ms c).references,
    r = .type (tableType c) ∨ r = .struct (tableType c) ∨ r = .func (newVirtualFunc c) ∨
      ∃ e ∈ ms.methods c c, r = .func (tableEntry c e) := by
  intro r hr
  rcases List.mem_append.mp hr with hr | hr
  · exact .inl (List.mem_singleton.mp hr)
  rw [tableDefinition, Instr.references, Instr.referencesAll_eq] at hr
  rcases List.mem_append.mp hr with hr | hr
  · exact .inr (.inl (List.mem_singleton.mp hr))
  obtain ⟨i, hi, hr⟩ := List.mem_flatMap.mp hr
  rcases List.mem_cons.mp hi with rfl | hi
  · exact .inr (.inr (.inl (List.mem_singleton.mp hr)))
  · obtain ⟨e, he, rfl⟩ := List.mem_map.mp hi
    exact .inr (.inr (.inr ⟨e, he, List.mem_singleton.mp hr⟩))

/-- Tables read no constants, and the others read tables only. -/
theorem globals_earlier {order : List Name} (horder : ∀ c : Name, c.isBuiltin = true → c ∈ order) :
    UsesEarlier (·.name) (fun g => g.init.references.filterMap Reference.global?)
      (order.map (tableDefinition ms) ++ pool.globals) := by
  have htables : UsesEarlier (·.name) (fun g => g.init.references.filterMap Reference.global?)
      ([] ++ order.map (tableDefinition ms)) := by
    refine (UsesEarlier.nil _ _).append fun g hg x hx => ?_
    obtain ⟨c, -, rfl⟩ := List.mem_map.mp hg
    obtain ⟨r, hr, hx⟩ := List.mem_filterMap.mp hx
    rcases table_references r (List.mem_append_right _ hr) with rfl | rfl | rfl | ⟨e, -, rfl⟩ <;>
      cases hx
  refine htables.append fun g hg x hx => ?_
  obtain ⟨c, hc, hreferences⟩ := pooled_references hg
  obtain ⟨r, hr, hx⟩ := List.mem_filterMap.mp hx
  rcases hreferences r (List.mem_append_right _ hr) with rfl | rfl | rfl | rfl
  · cases hx
  · cases hx
  · cases hx
    exact List.mem_map_of_mem (List.mem_map_of_mem (horder c hc))
  · cases hx

end

/-! ## Exports -/

/-- An identifier starts with its first component. -/
theorem toList_of_first {x : String} {a : Char} {w : List Char} (hx : first x = some (a :: w)) :
    ∃ rest, x.toList = a :: rest := by
  obtain ⟨rest, hsplit⟩ := List.head?_eq_some_iff.mp hx
  have hjoin : ['.'].intercalate (components x) = x.toList := List.intercalate_splitOn '.'
  rw [hsplit] at hjoin
  cases rest with
  | nil => exact ⟨_, hjoin.symm⟩
  | cons y rest => exact ⟨_, hjoin.symm⟩

/-- Two identifiers are exported under two names, since both start with the same mark. -/
theorem exportName_inj {x y : String} {v w : List Char} (hx : first x = some ('$' :: v))
    (hy : first y = some ('$' :: w)) (h : exportName x = exportName y) : x = y := by
  obtain ⟨v', hv⟩ := toList_of_first hx
  obtain ⟨w', hw⟩ := toList_of_first hy
  have hrest := String.ofList_injective h
  rw [hv, hw, List.drop_one, List.drop_one, List.tail_cons, List.tail_cons] at hrest
  exact String.toList_inj.mp (hv.trans (hrest ▸ hw.symm))

/-- The constants start with a word in lower-case letters. -/
theorem first_pooled {pool : Pool} {g : Global} (hg : g ∈ pool.globals) :
    ∃ w : List Char, first g.name = some ('$' :: w) ∧ w.head?.any Char.isUpper = false := by
  have hname : g.name ∈ pool.globals.map (·.name) := List.mem_map_of_mem hg
  rw [pool_globals_names, List.mem_append, List.mem_append] at hname
  rcases hname with (hname | hname) | hname
  · exact ⟨_, first_bools _ hname, by decide⟩
  · exact ⟨_, first_ints _ hname, by decide⟩
  · exact ⟨_, first_strings _ hname, by decide⟩

section

variable {p p' : Program} {ms : Members} (h : Pipeline.Analyzed p ms p') (hnamed : Named ms)
variable {pool : Pool} {common : List Func} {s : Progress}
variable (hcommon : commonFuncs ms = .ok common)
variable (hemits : EmitsAll ms pool (declaredFeatures p') ms.hierarchy.topological
  { funcs := common } s)

/-- Of the globals only constants are exported: no table is. -/
theorem first_exported {g : Global}
    (hg : g ∈ (moduleOf ms pool s.funcs).globals.filter (·.exported)) :
    ∃ w : List Char, first g.name = some ('$' :: w) ∧ w.head?.any Char.isUpper = false := by
  obtain ⟨hg, hexported⟩ := List.mem_filter.mp hg
  rcases List.mem_append.mp hg with hg | hg
  · obtain ⟨c, -, rfl⟩ := List.mem_map.mp hg
    cases hexported
  · exact first_pooled hg

include h hnamed hcommon hemits

/-- A function starts with the class it belongs to. -/
theorem first_func {f : Func} (hf : f ∈ s.funcs) :
    ∃ c, c.isClassName = true ∧ first f.name = some (classChars c) := by
  obtain ⟨keys, hperm, -, hkeys⟩ := exists_keys h hnamed hcommon hemits
  obtain ⟨k, hk, hname⟩ := List.mem_map.mp (hperm.mem_iff.mp (List.mem_map_of_mem hf))
  obtain ⟨hc, hr⟩ := hkeys k hk
  refine ⟨k.1, hc, ?_⟩
  rw [← hname, first, keyName, Role.components_id (isIdentifier_of_isClassName hc) hr,
    List.head?_cons]

/-- The names a module exports are distinct. The constants among them start with a lower-case
letter, the functions with the upper-case letter of a class. -/
theorem exportNames_nodup (hdistinct : (moduleOf ms pool s.funcs).NamesDistinct) :
    (moduleOf ms pool s.funcs).exportNames.Nodup := by
  have hmark : ∀ x ∈ ((moduleOf ms pool s.funcs).globals.filter (·.exported)).map (·.name) ++
      (s.funcs.filter (·.exported)).map (·.name), ∃ w, first x = some ('$' :: w) := by
    refine List.forall_mem_append.mpr ⟨List.forall_mem_map.mpr fun g hg => ?_,
      List.forall_mem_map.mpr fun f hf => ?_⟩
    · exact (first_exported hg).imp fun w hw => hw.1
    · obtain ⟨c, -, hc⟩ := first_func h hnamed hcommon hemits (List.mem_of_mem_filter hf)
      exact ⟨_, hc⟩
  refine List.Nodup.map_on (fun x hx y hy => ?_) (List.nodup_append'.mpr ⟨?_, ?_, ?_⟩)
  · obtain ⟨v, hv⟩ := hmark x hx
    obtain ⟨w, hw⟩ := hmark y hy
    exact exportName_inj hv hw
  · exact hdistinct.globals.sublist (List.filter_sublist.map _)
  · exact (List.nodup_append'.mp hdistinct.funcs).2.1.sublist (List.filter_sublist.map _)
  · intro x hx hx'
    obtain ⟨g, hg, rfl⟩ := List.mem_map.mp hx
    obtain ⟨f, hf, hname⟩ := List.mem_map.mp hx'
    obtain ⟨w, hw, hlower⟩ := first_exported hg
    obtain ⟨c, hc, hclass⟩ := first_func h hnamed hcommon hemits (List.mem_of_mem_filter hf)
    rw [hname, hw] at hclass
    exact classChars_ne hc hlower (Option.some.inj hclass).symm

end

/-! ## The module of a program -/

section

variable {p p' : Program} {ms : Members} {pool : Pool} {common : List Func} {s : Progress}
variable (h : Pipeline.Analyzed p ms p') (hms : Regular ms)
variable (hcommon : commonFuncs ms = .ok common)
variable (hemits : EmitsAll ms pool (declaredFeatures p') ms.hierarchy.topological
  { funcs := common } s)
variable (hm : Provides (moduleOf ms pool s.funcs) ms pool)

include h hcommon hemits hm

theorem moduleOf_resolves_common :
    ∀ r ∈ commonReferences, (moduleOf ms pool s.funcs).Resolves r := by
  refine resolves_common hm (fun d hd => h.mem_of_builtin hd) rfl fun f hf => ?_
  obtain ⟨methods, -, heq⟩ := except_bind_eq_ok.mp hcommon
  exact hemits.mem_funcs (Except.ok.inj heq ▸ List.mem_append_left _ hf)

theorem globals_resolve : ∀ g ∈ (moduleOf ms pool s.funcs).globals, ∀ r ∈ g.references,
    (moduleOf ms pool s.funcs).Resolves r := by
  refine List.forall_mem_append.mpr ⟨fun g hg r hr => ?_, fun g hg r hr => ?_⟩
  · obtain ⟨c, hc, rfl⟩ := List.mem_map.mp hg
    have hc := (Hierarchy.mem_topological h.coherent.rooted).mp hc
    rcases table_references r hr with rfl | rfl | rfl | ⟨e, he, rfl⟩
    · exact ⟨_, hm.table c hc, rfl⟩
    · exact ⟨_, hm.hasTable hc⟩
    · exact ⟨_, _, hasFunc_newVirtual h hemits hc⟩
    · obtain ⟨f, hf, hname, hfits⟩ := exists_tableEntry h hcommon hemits hc he
      exact ⟨_, _, hname ▸ hfits.hasFunc hf⟩
  · obtain ⟨c, hbuiltin, hreferences⟩ := pooled_references hg
    obtain ⟨d, hd, rfl⟩ := Hierarchy.isBuiltin_iff.mp hbuiltin
    have hc := h.mem_of_builtin hd
    rcases hreferences r hr with rfl | rfl | rfl | rfl
    · exact hm.defines hc
    · exact ⟨_, hm.hasObject hc⟩
    · exact ⟨_, hm.tableGlobal _ hc⟩
    · exact hm.fixed _ (.head _)

include hms

/-- The functions every module has are closed. -/
theorem common_closed : ∀ f ∈ common, f.Closed (moduleOf ms pool s.funcs) := by
  have hbuiltin : ∀ d ∈ Builtin.classes, d.name ∈ ms.hierarchy.names :=
    fun d hd => h.mem_of_builtin hd
  have hresolves := moduleOf_resolves_common h hcommon hemits hm
  obtain ⟨methods, hmethods, heq⟩ := except_bind_eq_ok.mp hcommon
  intro f hf
  rw [← Except.ok.inj heq] at hf
  rcases List.mem_append.mp hf with hf | hf
  · exact helpers_closed hresolves f hf
  · obtain ⟨b, hb, e, he, hname, hdefiner, rfl⟩ := Members.Site.exists_left_of_forall₂
      (builtinMethods_eq_ok h hmethods) hf
    obtain ⟨d, hd, hdname, -⟩ := builtinBodies_declared b hb
    exact builtinMethod_closed hms hm (hdname ▸ hbuiltin d hd) hresolves hb rfl he hname hdefiner

/-- A module is closed if the functions of its classes are valid. -/
theorem moduleOf_closed
    (hvalid : ∀ f ∈ s.funcs, f ∈ common ∨ f.Valid (moduleOf ms pool s.funcs)) :
    (moduleOf ms pool s.funcs).Closed where
  imports i hi r hr :=
    moduleOf_resolves_common h hcommon hemits hm r (imports_references i hi r hr)
  types := by
    refine List.forall_mem_append.mpr ⟨fun t ht r hr => ?_, fun t ht r hr => ?_⟩
    · exact moduleOf_resolves_common h hcommon hemits hm r (fixedTypes_references t ht r hr)
    · obtain ⟨c, hc, ht⟩ := List.mem_flatMap.mp ht
      have hc := (Hierarchy.mem_topological h.coherent.rooted).mp hc
      exact classTypes_resolve hms hm hc t ht r hr
  globals := globals_resolve h hcommon hemits hm
  funcs f hf := (hvalid f hf).elim (common_closed h hms hcommon hemits hm f) (·.closed)
  supers_earlier := supers_earlier (Hierarchy.topological_parentsFirst h.coherent.rooted)
  globals_earlier := globals_earlier fun c hbuiltin => by
    obtain ⟨d, hd, rfl⟩ := Hierarchy.isBuiltin_iff.mp hbuiltin
    exact (Hierarchy.mem_topological h.coherent.rooted).mpr (h.mem_of_builtin hd)

end

end Cool.Lowering
