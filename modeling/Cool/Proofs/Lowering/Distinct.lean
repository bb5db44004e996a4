import Cool.Proofs.Lowering.Classes
import Cool.Proofs.Wat.Typing

/-! The names of a module are distinct. Every name belongs to a class or to the constants, and what
it is to its class can be read off its components. -/

namespace Cool.Lowering

open Wat

/-- The module around the functions of a program. -/
def moduleOf (ms : Members) (pool : Pool) (funcs : List Func) : Module where
  imports := imports
  types := fixedTypes ++ ms.hierarchy.topological.flatMap (classTypes ms)
  globals := ms.hierarchy.topological.map (tableDefinition ms) ++ pool.globals
  funcs := funcs

/-- Members whose names are identifiers, those of classes with an upper-case letter first. -/
structure Named (ms : Members) : Prop where
  classes : ∀ c ∈ ms.hierarchy.names, c.isClassName = true
  methods : ∀ c ∈ ms.hierarchy.names, ∀ e ∈ ms.methods c c, e.name.isIdentifier = true
  attributes : ∀ c ∈ ms.hierarchy.names, ∀ a ∈ ms.attributes c c, a.name.isIdentifier = true

theorem isIdentifier_of_isClassName {c : Name} (hc : c.isClassName = true) :
    c.isIdentifier = true :=
  (Bool.and_eq_true_iff.mp hc).1

/-- The name of a class does not start like one of the constants. -/
theorem classChars_ne {c : Name} (hc : c.isClassName = true) {w : List Char}
    (hw : w.head?.any Char.isUpper = false) : classChars c ≠ '$' :: w := by
  intro heq
  have hupper := (Bool.and_eq_true_iff.mp hc).2
  rw [(List.cons.inj heq).2, hw] at hupper
  cases hupper

theorem builtin_isNamed : ∀ d ∈ Builtin.classes, ∀ n ∈ d.nodes, n.isNamed = true := by
  decide

section

variable {p p' : Program} {ms : Members}

/-- The declaration of a class of an accepted program gives names if the program does. -/
theorem isNamed_of_decl? (h : Pipeline.Analyzed p ms p') (hp : ∀ n ∈ p.nodes, n.isNamed = true)
    {c : Name} (hc : c ∈ ms.hierarchy.names) {decl : ClassDecl}
    (hdecl : ms.hierarchy.decl? c = some decl) :
    decl.name = c ∧ ∀ n ∈ decl.nodes, n.isNamed = true := by
  cases hbuiltin : c.isBuiltin with
  | true =>
      obtain ⟨d, hd, rfl⟩ := Hierarchy.isBuiltin_iff.mp hbuiltin
      cases hdecl.symm.trans (h.builtin d hd)
      exact ⟨rfl, builtin_isNamed _ hd⟩
  | false =>
      obtain ⟨d, d', rfl, hd⟩ := h.own c hc hbuiltin
      cases hdecl.symm.trans hd.declared
      refine ⟨rfl, fun n hn => hp n (List.mem_cons_of_mem _ ?_)⟩
      exact List.mem_flatMap.mpr ⟨_, hd.mem, hn⟩

theorem named_of_analyzed (h : Pipeline.Analyzed p ms p') (hp : ∀ n ∈ p.nodes, n.isNamed = true) :
    Named ms := by
  have hco := h.coherent
  have hfeature : ∀ {decl : ClassDecl} {f : Feature} {n : Node}, f ∈ decl.features →
      n ∈ f.nodes → n ∈ decl.nodes := fun hf hn =>
    List.mem_cons_of_mem _ (List.mem_flatMap.mpr ⟨_, hf, hn⟩)
  refine ⟨fun c hc => ?_, fun c hc e he => ?_, fun c hc a ha => ?_⟩
  · obtain ⟨decl, -, hdecl, -⟩ := hco.resolved c hc
    obtain ⟨rfl, hnamed⟩ := isNamed_of_decl? h hp hc hdecl
    exact hnamed (.classDecl decl) List.mem_cons_self
  · have hseen := hco.seenMethod hc e he
    obtain ⟨decl, d, hdecl, hd, hname, -⟩ := hseen.declared
    have hdefiner := hseen.below_definer.mem_names hco.rooted hc
    rw [← hname]
    exact (isNamed_of_decl? h hp hdefiner hdecl).2 (.method d) (hfeature hd List.mem_cons_self)
  · obtain ⟨hbelow, decl, d, hdecl, hd, howns⟩ := hco.seenAttribute hc a ha
    have howner := hbelow.mem_names hco.rooted hc
    rw [howns.name]
    exact (isNamed_of_decl? h hp howner hdecl).2 (.attr d) (hfeature hd List.mem_cons_self)

end

/-! ## Types -/

/-- What a type is to the class it belongs to. -/
inductive TypeRole where
  | signature (method : Name)
  | table
  | object

namespace TypeRole

/-- The name of a type of a class. -/
def id (c : Name) : TypeRole → String
  | signature x => "$" ++ c.text ++ "." ++ x.text ++ ".signature"
  | table => tableType c
  | object => classType c

/-- The components of the name of a type. -/
def parts (c : Name) : TypeRole → List (List Char)
  | signature x => [classChars c, x.text.toList, "signature".toList]
  | table => [classChars c ++ "#vtable".toList]
  | object => [classChars c]

def Proper : TypeRole → Prop
  | signature x => x.isIdentifier = true
  | table | object => True

theorem components_id {c : Name} (hc : c.isIdentifier = true) {r : TypeRole} (hr : r.Proper) :
    components (r.id c) = r.parts c := by
  cases r with
  | signature x =>
      rw [id, components_suffix _ (z := "signature") (by decide), components_append,
        components_class hc, components_text hr]
      rfl
  | table =>
      rw [id, tableType, components_of_not_mem]
      · simp [parts, classChars]
      · rw [String.toList_append, String.toList_append, List.mem_append, List.mem_append, not_or,
          not_or]
        exact ⟨⟨by decide, Name.not_mem_text hc (by decide)⟩, by decide⟩
  | object => exact components_class hc

theorem hash_not_mem {c : Name} (hc : c.isIdentifier = true) : '#' ∉ classChars c := by
  rw [classChars, List.mem_cons, not_or]
  exact ⟨by decide, Name.not_mem_text hc (by decide)⟩

/-- The name of a type tells its class and its role. -/
theorem id_inj {c c' : Name} (hc : c.isIdentifier = true) (hc' : c'.isIdentifier = true)
    {r r' : TypeRole} (hr : r.Proper) (hr' : r'.Proper) (h : r.id c = r'.id c') :
    c = c' ∧ r = r' := by
  have hparts := congrArg components h
  rw [components_id hc hr, components_id hc' hr'] at hparts
  cases r <;> cases r' <;> simp only [parts, List.cons.injEq, and_true, reduceCtorEq,
    and_false, List.append_cancel_right_eq] at hparts
  case signature.signature x y =>
    exact ⟨classChars_inj hc hc' hparts.1,
      congrArg _ (Name.text_inj hr hr' (String.toList_inj.mp hparts.2))⟩
  case table.table | object.object => exact ⟨classChars_inj hc hc' hparts, rfl⟩
  -- only the name of a table has a hash in it
  case table.object => exact absurd (hparts ▸ by simp) (hash_not_mem hc')
  case object.table => exact absurd (hparts ▸ by simp) (hash_not_mem hc)

end TypeRole

def introducedMethods (ms : Members) (c : Name) : List MethodEntry :=
  (ms.methods c c).filter (·.origin = .introduced)

/-- The types of a class, by their roles. -/
def typeRoles (ms : Members) (c : Name) : List TypeRole :=
  (introducedMethods ms c).map (fun m => .signature m.name) ++ [.table, .object]

theorem fixedTypes_components : ∀ t ∈ fixedTypes,
    components t.name = ['$' :: "charsArr".toList] ∨
      (components t.name).length = 2 ∨ (components t.name).length = 4 := by
  decide

section

variable {ms : Members} (hco : ms.Coherent) (hnamed : Named ms)

include hco

theorem classTypes_names {c : Name} (hc : c ∈ ms.hierarchy.names) :
    (classTypes ms c).map (·.name) = (typeRoles ms c).map (TypeRole.id c) := by
  rw [classTypes, typeRoles, List.map_append, List.map_append, List.map_map, List.map_map]
  congr 1
  refine List.map_congr_left fun m hm => ?_
  obtain ⟨hmem, horigin⟩ := List.mem_filter.mp hm
  have hintro : m.intro = c := (hco.seenMethod hc m hmem).origin_iff.mp (by simpa using horigin)
  change m.signatureId = (TypeRole.signature m.name).id c
  rw [← hintro]
  rfl

theorem typeRoles_nodup {c : Name} (hc : c ∈ ms.hierarchy.names) : (typeRoles ms c).Nodup := by
  have hinj : Function.Injective TypeRole.signature := fun _ _ h => TypeRole.signature.inj h
  have hnames := (hco.methods_nodup hc).sublist
    ((List.filter_sublist (p := fun m : MethodEntry => m.origin = .introduced)).map (·.name))
  have hsignatures := hnames.map hinj
  rw [List.map_map] at hsignatures
  refine List.nodup_append'.mpr ⟨hsignatures, by simp, fun r hr hr' => ?_⟩
  obtain ⟨m, -, rfl⟩ := List.mem_map.mp hr
  simp at hr'

include hnamed

omit hco in
theorem typeRoles_proper {c : Name} (hc : c ∈ ms.hierarchy.names) :
    ∀ r ∈ typeRoles ms c, r.Proper := by
  intro r hr
  rcases List.mem_append.mp hr with hr | hr
  · obtain ⟨m, hm, rfl⟩ := List.mem_map.mp hr
    exact hnamed.methods c hc m (List.mem_of_mem_filter hm)
  · rcases List.mem_pair.mp hr with rfl | rfl <;> trivial

omit hco in
/-- The types that belong to no class have names of another form. -/
theorem fixedTypes_apart {c : Name} (hc : c ∈ ms.hierarchy.names) {r : TypeRole} (hr : r.Proper)
    {t : TypeDef} (ht : t ∈ fixedTypes) : t.name ≠ r.id c := by
  have hcls := hnamed.classes c hc
  have hid := isIdentifier_of_isClassName hcls
  intro heq
  have hparts := congrArg components heq
  rw [TypeRole.components_id hid hr] at hparts
  have hcomponents := fixedTypes_components t ht
  rw [hparts] at hcomponents
  cases r with
  | signature x => simp [TypeRole.parts] at hcomponents
  | object =>
      refine hcomponents.elim (fun hchars => ?_) (by simp [TypeRole.parts])
      exact classChars_ne hcls (by decide) (List.cons.inj hchars).1
  | table =>
      refine hcomponents.elim (fun hchars => ?_) (by simp [TypeRole.parts])
      have hmem : '#' ∈ '$' :: "charsArr".toList := (List.cons.inj hchars).1 ▸ by simp
      exact absurd hmem (by decide)

theorem types_nodup (pool : Pool) (funcs : List Func) :
    ((moduleOf ms pool funcs).types.map (·.name)).Nodup := by
  have hmem := fun {c} => (Hierarchy.mem_topological (c := c) hco.rooted).mp
  change ((fixedTypes ++ ms.hierarchy.topological.flatMap (classTypes ms)).map (·.name)).Nodup
  rw [List.map_append, List.map_flatMap]
  refine List.nodup_append'.mpr ⟨by decide, List.nodup_flatMap.mpr ⟨fun c hc => ?_, ?_⟩, ?_⟩
  · rw [classTypes_names hco (hmem hc)]
    refine (typeRoles_nodup hco (hmem hc)).map_on fun r hr r' hr' heq => ?_
    have hproper := typeRoles_proper hnamed (hmem hc)
    have hid := isIdentifier_of_isClassName (hnamed.classes c (hmem hc))
    exact (TypeRole.id_inj hid hid (hproper r hr) (hproper r' hr') heq).2
  · refine (Hierarchy.topological_nodup hco.rooted).imp_of_mem fun {c c'} hc hc' hne x hx hx' => ?_
    dsimp only at hx hx'
    rw [classTypes_names hco (hmem hc)] at hx
    rw [classTypes_names hco (hmem hc')] at hx'
    obtain ⟨r, hr, rfl⟩ := List.mem_map.mp hx
    obtain ⟨r', hr', heq⟩ := List.mem_map.mp hx'
    refine hne (TypeRole.id_inj ?_ ?_ ?_ ?_ heq.symm).1
    · exact isIdentifier_of_isClassName (hnamed.classes c (hmem hc))
    · exact isIdentifier_of_isClassName (hnamed.classes c' (hmem hc'))
    · exact typeRoles_proper hnamed (hmem hc) r hr
    · exact typeRoles_proper hnamed (hmem hc') r' hr'
  · intro x hx hx'
    obtain ⟨t, ht, rfl⟩ := List.mem_map.mp hx
    obtain ⟨c, hc, hx'⟩ := List.mem_flatMap.mp hx'
    rw [classTypes_names hco (hmem hc)] at hx'
    obtain ⟨r, hr, heq⟩ := List.mem_map.mp hx'
    exact fixedTypes_apart hnamed (hmem hc) (typeRoles_proper hnamed (hmem hc) r hr) ht
      heq.symm

end

/-! ## Globals -/

/-- The first component of a name. -/
def first (x : String) : Option (List Char) :=
  (components x).head?

theorem disjoint_of_first {xs ys : List String} {a : Option (List Char)}
    (hxs : ∀ x ∈ xs, first x = a) (hys : ∀ y ∈ ys, first y ≠ a) : xs.Disjoint ys :=
  fun x hx hx' => hys x hx' (hxs x hx)

theorem components_tableGlobal {c : Name} (hc : c.isIdentifier = true) :
    components (tableGlobal c) = [classChars c, "vtable".toList, "canon".toList] := by
  rw [tableGlobal, components_suffix _ (z := "vtable.canon") (by decide), components_class hc]
  rfl

theorem components_intGlobal (n : Int32) :
    components (intGlobal n) =
      ['$' :: "int".toList, "const".toList, (toString n.toInt).toList] := by
  rw [intGlobal, show "$int.const." = "$int" ++ ".const." from rfl,
    components_between _ _ (z := "const") (by decide),
    components_of_not_mem (dot_not_mem_intRepr n.toInt)]
  rfl

theorem components_stringGlobal (i : Nat) :
    components (stringGlobal i) = ['$' :: "str".toList, "const".toList, (toString i).toList] := by
  rw [stringGlobal, show "$str.const." = "$str" ++ ".const." from rfl,
    components_between _ _ (z := "const") (by decide), components_natRepr]
  rfl

theorem tableGlobal_inj {c c' : Name} (hc : c.isIdentifier = true) (hc' : c'.isIdentifier = true)
    (h : tableGlobal c = tableGlobal c') : c = c' := by
  have hcomponents := congrArg components h
  rw [components_tableGlobal hc, components_tableGlobal hc'] at hcomponents
  exact classChars_inj hc hc' (List.cons.inj hcomponents).1

theorem intGlobal_injective : Function.Injective intGlobal := fun _ _ h =>
  Int32.toInt_inj.mp (intRepr_injective ((String.append_right_inj "$int.const.").mp h))

theorem stringGlobal_injective : Function.Injective stringGlobal := fun _ _ h =>
  natRepr_injective ((String.append_right_inj "$str.const.").mp h)

theorem stringDefinitions_names (i : Nat) (ss : List Symbol) :
    (Pool.stringDefinitions i ss).map (·.name) = (List.range' i ss.length).map stringGlobal := by
  induction ss generalizing i with
  | nil => rfl
  | cons s ss ih =>
      rw [Pool.stringDefinitions, List.map_cons, ih, List.length_cons, List.range'_succ,
        List.map_cons]
      rfl

theorem pool_globals_names (pool : Pool) :
    pool.globals.map (·.name) = [trueGlobal, falseGlobal] ++ pool.ints.map intGlobal ++
      (List.range' 0 pool.strings.length).map stringGlobal := by
  rw [Pool.globals, List.map_append, List.map_append, stringDefinitions_names, List.map_map]
  rfl

theorem first_bools : ∀ x ∈ [trueGlobal, falseGlobal], first x = some ('$' :: "bool".toList) := by
  decide

theorem first_ints {ns : List Int32} :
    ∀ x ∈ ns.map intGlobal, first x = some ('$' :: "int".toList) := by
  intro x hx
  obtain ⟨n, -, rfl⟩ := List.mem_map.mp hx
  rw [first, components_intGlobal]
  rfl

theorem first_strings {is : List Nat} :
    ∀ x ∈ is.map stringGlobal, first x = some ('$' :: "str".toList) := by
  intro x hx
  obtain ⟨i, -, rfl⟩ := List.mem_map.mp hx
  rw [first, components_stringGlobal]
  rfl

theorem first_tables {cs : List Name} (hcs : ∀ c ∈ cs, c.isClassName = true) :
    ∀ x ∈ cs.map tableGlobal, ∃ c, c.isClassName = true ∧ first x = some (classChars c) := by
  intro x hx
  obtain ⟨c, hc, rfl⟩ := List.mem_map.mp hx
  refine ⟨c, hcs c hc, ?_⟩
  rw [first, components_tableGlobal (isIdentifier_of_isClassName (hcs c hc))]
  rfl

theorem pool_globals_nodup {pool : Pool} (hpool : pool.ints.Nodup) :
    (pool.globals.map (·.name)).Nodup := by
  rw [pool_globals_names]
  refine List.nodup_append'.mpr ⟨List.nodup_append'.mpr ⟨by decide, ?_, ?_⟩, ?_, ?_⟩
  · exact hpool.map intGlobal_injective
  · exact disjoint_of_first first_bools fun y hy => by rw [first_ints y hy]; decide
  · exact (List.nodup_range' 1).map stringGlobal_injective
  · refine List.disjoint_comm.mp (disjoint_of_first first_strings fun y hy => ?_)
    rcases List.mem_append.mp hy with hy | hy
    · rw [first_bools y hy]
      decide
    · rw [first_ints y hy]
      decide

theorem globals_nodup {ms : Members} (hco : ms.Coherent) (hnamed : Named ms) {pool : Pool}
    (hpool : pool.ints.Nodup) (funcs : List Func) :
    ((moduleOf ms pool funcs).globals.map (·.name)).Nodup := by
  have hclasses : ∀ c ∈ ms.hierarchy.topological, c.isClassName = true := fun c hc =>
    hnamed.classes c ((Hierarchy.mem_topological hco.rooted).mp hc)
  have htables : (ms.hierarchy.topological.map tableGlobal).Nodup :=
    (Hierarchy.topological_nodup hco.rooted).map_on fun c hc c' hc' heq =>
      tableGlobal_inj (isIdentifier_of_isClassName (hclasses c hc))
        (isIdentifier_of_isClassName (hclasses c' hc')) heq
  -- a class starts with an upper-case letter, the words of the constants do not
  have hapart : ∀ w : List Char, w.head?.any Char.isUpper = false →
      ∀ x ∈ ms.hierarchy.topological.map tableGlobal, first x ≠ some ('$' :: w) := by
    intro w hw x hx heq
    obtain ⟨c, hc, hfirst⟩ := first_tables hclasses x hx
    exact classChars_ne hc hw (Option.some.inj (hfirst.symm.trans heq))
  change ((ms.hierarchy.topological.map (tableDefinition ms) ++ pool.globals).map (·.name)).Nodup
  rw [List.map_append, List.map_map]
  refine List.nodup_append'.mpr ⟨htables, pool_globals_nodup hpool, ?_⟩
  rw [pool_globals_names, List.disjoint_append_right, List.disjoint_append_right]
  refine ⟨⟨?_, ?_⟩, ?_⟩
  · exact List.disjoint_comm.mp (disjoint_of_first first_bools (hapart _ (by decide)))
  · exact List.disjoint_comm.mp (disjoint_of_first first_ints (hapart _ (by decide)))
  · exact List.disjoint_comm.mp (disjoint_of_first first_strings (hapart _ (by decide)))

/-! ## Functions -/

/-- The functions that every module has, by the classes they belong to and their roles. -/
def commonKeys : List (Name × Role) :=
  [(.int, .helper "toI32"), (.int, .helper "fromI32"), (.bool, .helper "toI32"),
    (.bool, .helper "fromI32"), (.string, .helper "length"), (.string, .helper "charAt"),
    (.string, .helper "equals"), (.object, .helper "equals")] ++
    builtinBodies.map fun b => (b.1, .implementation b.2.1)

def keyName (k : Name × Role) : String :=
  k.2.id k.1

theorem mem_methodNames {fs : List Feature} {x : Name} :
    x ∈ methodNames fs ↔ ∃ d, .method d ∈ fs ∧ d.name = x := by
  unfold methodNames
  rw [List.mem_map]
  constructor
  · rintro ⟨d, hd, rfl⟩
    exact ⟨d, Feature.mem_of_method? hd, rfl⟩
  · rintro ⟨d, hd, rfl⟩
    exact ⟨d, List.mem_filterMap.mpr ⟨_, hd, rfl⟩, rfl⟩

section

variable {p p' : Program} {ms : Members} (h : Pipeline.Analyzed p ms p')

include h

/-- The function of a builtin method is one of the slot that its class declares. -/
theorem builtinMethods_eq_ok {methods : List Func} (hm : builtinMethods ms = .ok methods) :
    List.Forall₂ (fun b f => ∃ e ∈ ms.methods b.1 b.1, e.name = b.2.1 ∧ e.definer = b.1 ∧
      f = builtinMethod e b.2.2.1 b.2.2.2) builtinBodies methods := by
  rw [builtinMethods, mapM_eq_ok_iff] at hm
  refine ((List.forall₂_and_left _ _).mpr ⟨fun b hb => hb, hm⟩).imp fun b f hbf => ?_
  obtain ⟨hb, hf⟩ := hbf
  obtain ⟨d, hd, hname, hx⟩ := builtinBodies_declared b hb
  obtain ⟨m, hm, hmx⟩ := mem_methodNames.mp hx
  have hc := h.mem_of_builtin hd
  obtain ⟨e, he, hdeclares⟩ := h.coherent.declared_method hc (h.builtin d hd) hm
  have hfound := h.coherent.method?_of_mem hc he d.name
  rw [hdeclares.name, hmx, hname] at hfound
  rw [hname] at he
  refine ⟨e, he, hdeclares.name.trans hmx, hdeclares.definer.trans hname, ?_⟩
  simpa [hfound] using hf.symm

theorem commonFuncs_names {common : List Func} (hcommon : commonFuncs ms = .ok common) :
    common.map (·.name) = commonKeys.map keyName := by
  obtain ⟨methods, hmethods, heq⟩ := except_bind_eq_ok.mp hcommon
  have hnames : methods.map (·.name) =
      builtinBodies.map fun b => keyName (b.1, Role.implementation b.2.1) := by
    refine Members.Site.map_eq_of_forall₂ (builtinMethods_eq_ok h hmethods) ?_
    rintro b f ⟨e, -, hname, hdefiner, rfl⟩
    rw [keyName, ← hname, ← hdefiner]
    rfl
  rw [← Except.ok.inj heq, List.map_append, hnames]
  rfl

omit h in
theorem declaredFeatures_builtin {c : Name} (hc : c.isBuiltin = true) :
    declaredFeatures p' c = [] :=
  if_pos hc

omit h in
theorem methodNames_checked {cx : Typing.Context} {scope : Scope Name Name}
    {fs fs' : List Feature} (hfs : List.Forall₂ (Typing.AcceptsFeature cx scope) fs fs') :
    methodNames fs' = methodNames fs := by
  induction hfs with
  | nil => rfl
  | cons hf _ ih =>
      cases hf with
      | attr => exact ih
      | method => exact congrArg (_ :: ·) ih

/-- A class of the program declares the methods whose bodies were checked. -/
theorem declaredFeatures_own {c : Name} (hc : c ∈ ms.hierarchy.names)
    (hbuiltin : c.isBuiltin = false) : ∃ decl, ms.hierarchy.decl? c = some decl ∧
      methodNames (declaredFeatures p' c) = methodNames decl.features ∧
      ∀ m', .method m' ∈ declaredFeatures p' c →
        ∃ m, .method m ∈ decl.features ∧ m.name = m'.name ∧ m.formals = m'.formals := by
  obtain ⟨d, d', rfl, hd⟩ := h.own c hc hbuiltin
  have heq : declaredFeatures p' d.name = d'.features := by
    rw [declaredFeatures, if_neg (by simp [hbuiltin]), hd.found]
  rw [heq]
  exact ⟨d, hd.declared, methodNames_checked hd.features, fun m' hm' => hd.method_of_mem hm'⟩

theorem classRoles_declared_nodup {c : Name} (hc : c ∈ ms.hierarchy.names) :
    (classRoles ms c (declaredFeatures p' c)).Nodup := by
  cases hbuiltin : c.isBuiltin with
  | true =>
      rw [declaredFeatures_builtin hbuiltin]
      exact classRoles_nodup (h.coherent.methods_nodup hc) List.nodup_nil fun m _ => nofun
  | false =>
      obtain ⟨decl, hdecl, hnames, -⟩ := declaredFeatures_own h hc hbuiltin
      obtain ⟨decl', draft, hdecl', haccepted, -⟩ := h.coherent.resolved c hc
      cases hdecl.symm.trans hdecl'
      have hdraft : draft.methods.map (·.name) = methodNames decl.features :=
        Members.Site.map_eq_of_forall₂ haccepted.methods fun _ _ hm => hm.name
      refine classRoles_nodup (h.coherent.methods_nodup hc) ?_ fun m hm hmem => ?_
      · rw [hnames, ← hdraft]
        exact haccepted.methods_nodup
      -- a class that declares the method defines it, and is then no builtin class
      · obtain ⟨hm, hper⟩ := List.mem_filter.mp hm
        rw [hnames] at hmem
        obtain ⟨d, hd, hdname⟩ := mem_methodNames.mp hmem
        obtain ⟨e, he, hdeclares⟩ := h.coherent.declared_method hc hdecl hd
        obtain rfl := h.coherent.method_unique hc he hm (hdeclares.name.trans hdname)
        have hobject : c = .object :=
          hdeclares.definer.symm.trans (of_decide_eq_true hper).2
        rw [hobject] at hbuiltin
        cases hbuiltin

omit h in
theorem commonKeys_proper : ∀ k ∈ commonKeys, k.1.isClassName = true ∧ k.2.Proper := by
  decide

omit h in
theorem commonKeys_role : ∀ k ∈ commonKeys, k.1.isBuiltin = true ∧
    ((∃ x, k.2 = .helper x) ∨ ∃ x, k.2 = .implementation x ∧ x ≠ .copy ∧ x ≠ .typeName) := by
  intro k hk
  rcases List.mem_append.mp hk with hk | hk
  · have hall : ∀ k ∈ commonKeys.take 8, k.1.isBuiltin = true ∧ ∃ x, k.2 = .helper x := by
      simp [commonKeys, Name.isBuiltin]
    exact (hall k hk).imp_right .inl
  · obtain ⟨b, hb, rfl⟩ := List.mem_map.mp hk
    have hall : ∀ b ∈ builtinBodies, b.1.isBuiltin = true ∧ b.2.1 ≠ .copy ∧ b.2.1 ≠ .typeName := by
      decide
    exact (hall b hb).imp_right fun hne => .inr ⟨_, rfl, hne⟩

omit h in
/-- No class emits a function that every module starts with. -/
theorem commonKeys_apart {c : Name} {r : Role} (hk : (c, r) ∈ commonKeys) :
    r ∉ classRoles ms c (declaredFeatures p' c) ∧ r.number? = none := by
  obtain ⟨hbuiltin, hrole⟩ := commonKeys_role (c, r) hk
  dsimp only at hbuiltin hrole
  rw [declaredFeatures_builtin hbuiltin]
  rcases hrole with ⟨x, rfl⟩ | ⟨x, rfl, hcopy, htype⟩
  · refine ⟨fun hr => ?_, rfl⟩
    rcases mem_classRoles hr with hr | hr | hr | ⟨m, -, -, hr⟩ | ⟨m, -, hr⟩ | ⟨y, -, hr⟩ <;>
      cases hr
  · refine ⟨fun hr => ?_, rfl⟩
    rcases mem_classRoles hr with hr | hr | hr | ⟨m, -, hper, hr⟩ | ⟨m, -, hr⟩ | ⟨y, hy, -⟩
    · cases hr
    · cases hr
    · cases hr
    · cases hr
      exact (of_decide_eq_true hper).1.elim hcopy htype
    · cases hr
    · cases hy

/-- The method that a class declares is among those that can be called on it. -/
theorem exists_declared {c x : Name} (hc : c ∈ ms.hierarchy.names)
    (hx : x ∈ methodNames (declaredFeatures p' c)) :
    ∃ e ∈ ms.methods c c, e.name = x ∧ e.definer = c := by
  cases hbuiltin : c.isBuiltin with
  | true =>
      rw [declaredFeatures_builtin hbuiltin] at hx
      cases hx
  | false =>
      obtain ⟨decl, hdecl, hnames, -⟩ := declaredFeatures_own h hc hbuiltin
      rw [hnames] at hx
      obtain ⟨d, hd, rfl⟩ := mem_methodNames.mp hx
      obtain ⟨e, he, hdeclares⟩ := h.coherent.declared_method hc hdecl hd
      exact ⟨e, he, hdeclares.name, hdeclares.definer⟩

/-- The functions of the classes come after those every module starts with. -/
theorem exists_emitted {pool : Pool} {common : List Func} {s : Progress}
    (hemits : EmitsAll ms pool (declaredFeatures p') ms.hierarchy.topological
      { funcs := common } s) :
    ∃ (new : List Func) (keys : List (Name × Role)), s.funcs = common ++ new ∧
      (new.map (·.name)).Perm (keys.map keyName) ∧ keys.Nodup ∧
      ∀ k ∈ keys, k.1 ∈ ms.hierarchy.names ∧
        (k.2 ∈ classRoles ms k.1 (declaredFeatures p' k.1) ∨ k.2.number? ≠ none) := by
  have hmem := fun {c} => (Hierarchy.mem_topological (c := c) h.coherent.rooted).mp
  obtain ⟨new, keys, hfuncs, hnames, hnodup, hkeys⟩ := hemits.grown
    (Hierarchy.topological_nodup h.coherent.rooted)
    (fun c hc m hm => (h.coherent.seenMethod (hmem hc) m hm).origin_iff.mp)
    fun c hc => classRoles_declared_nodup h (hmem hc)
  exact ⟨new, keys, hfuncs, hnames, hnodup, fun k hk => (hkeys k hk).imp_left hmem⟩

variable (hnamed : Named ms)

include hnamed

theorem classRoles_proper {c : Name} (hc : c ∈ ms.hierarchy.names) {r : Role}
    (hr : r ∈ classRoles ms c (declaredFeatures p' c)) : r.Proper := by
  rcases mem_classRoles hr with rfl | rfl | rfl | ⟨m, hm, -, rfl⟩ | ⟨m, hm, rfl⟩ | ⟨x, hx, rfl⟩
  · trivial
  · trivial
  · trivial
  · exact hnamed.methods c hc m hm
  · exact hnamed.methods c hc m hm
  · obtain ⟨e, he, rfl, -⟩ := exists_declared h hc hx
    exact hnamed.methods c hc e he

/-- The functions of a module belong to classes, each in a role of its own. -/
theorem exists_keys {pool : Pool} {common : List Func} {s : Progress}
    (hcommon : commonFuncs ms = .ok common)
    (hemits : EmitsAll ms pool (declaredFeatures p') ms.hierarchy.topological
      { funcs := common } s) :
    ∃ keys : List (Name × Role), (s.funcs.map (·.name)).Perm (keys.map keyName) ∧ keys.Nodup ∧
      ∀ k ∈ keys, k.1.isClassName = true ∧ k.2.Proper := by
  obtain ⟨new, keys, hfuncs, hnames, hnodup, hkeys⟩ := exists_emitted h hemits
  refine ⟨commonKeys ++ keys, ?_, ?_, List.forall_mem_append.mpr ⟨commonKeys_proper, ?_⟩⟩
  · rw [hfuncs, List.map_append, List.map_append, commonFuncs_names h hcommon]
    exact hnames.append_left _
  · refine List.nodup_append'.mpr ⟨by decide, hnodup, fun k hk hk' => ?_⟩
    have hapart : k.2 ∉ classRoles ms k.1 (declaredFeatures p' k.1) ∧ k.2.number? = none :=
      commonKeys_apart hk
    exact (hkeys k hk').2.elim hapart.1 fun hne => hne hapart.2
  · intro k hk
    obtain ⟨hc, hr⟩ := hkeys k hk
    refine ⟨hnamed.classes _ hc, ?_⟩
    rcases hr with hr | hr
    · exact classRoles_proper h hnamed hc hr
    · cases hk : k.2 <;> simp_all [Role.number?, Role.Proper]

theorem funcs_nodup {pool : Pool} {common : List Func} {s : Progress}
    (hcommon : commonFuncs ms = .ok common)
    (hemits : EmitsAll ms pool (declaredFeatures p') ms.hierarchy.topological
      { funcs := common } s) :
    (imports.map (·.id) ++ s.funcs.map (·.name)).Nodup := by
  obtain ⟨keys, hperm, hnodup, hkeys⟩ := exists_keys h hnamed hcommon hemits
  have hproper : ∀ k ∈ keys, k.1.isIdentifier = true ∧ k.2.Proper := fun k hk =>
    (hkeys k hk).imp_left isIdentifier_of_isClassName
  refine List.nodup_append'.mpr ⟨by decide, hperm.nodup_iff.mpr ?_, fun x hx hx' => ?_⟩
  · refine hnodup.map_on fun k hk k' hk' heq => ?_
    obtain ⟨hc, hr⟩ := hproper k hk
    obtain ⟨hc', hr'⟩ := hproper k' hk'
    obtain ⟨hcls, hrole⟩ := Role.id_inj hc hc' hr hr' heq
    exact Prod.ext hcls hrole
  -- an import is a single component, a function has its class in front
  · obtain ⟨k, hk, rfl⟩ := List.mem_map.mp (hperm.mem_iff.mp hx')
    have hlength : ∀ x ∈ imports.map (·.id), (components x).length = 1 := by decide
    have hone := hlength _ hx
    obtain ⟨hc, hr⟩ := hproper k hk
    rw [keyName, Role.components_id hc hr] at hone
    cases hk : k.2 <;> simp [hk, Role.parts] at hone

end

/-! ## Fields -/

theorem fieldId_inj {x y : Name} (hx : x.isIdentifier = true) (hy : y.isIdentifier = true)
    (h : fieldId x = fieldId y) : x = y :=
  Name.text_inj hx hy ((String.append_right_inj "$").mp h)

/-- The fields a program names are distinct, and differ from those with a hash in front. -/
theorem fieldIds_nodup {xs : List Name} (hxs : xs.Nodup)
    (hids : ∀ x ∈ xs, x.isIdentifier = true) {f : String} (hf : '#' ∈ f.toList) :
    (f :: xs.map fieldId).Nodup := by
  refine List.nodup_cons.mpr ⟨fun hmem => ?_, ?_⟩
  · obtain ⟨x, hx, rfl⟩ := List.mem_map.mp hmem
    rw [fieldId, String.toList_append, List.mem_append] at hf
    exact hf.elim (by decide) (Name.not_mem_text (hids x hx) (by decide))
  · exact hxs.map_on fun x hx y hy => fieldId_inj (hids x hx) (hids y hy)

section

variable {ms : Members} (hco : ms.Coherent) (hnamed : Named ms) {c : Name}
  (hc : c ∈ ms.hierarchy.names)

include hco hnamed hc

theorem tableFields_nodup : ((tableFields (ms.methods c c)).map (·.name)).Nodup := by
  have hnodup := fieldIds_nodup (f := newField) (hco.methods_nodup hc) (fun x hx => by
    obtain ⟨e, he, rfl⟩ := List.mem_map.mp hx
    exact hnamed.methods c hc e he) (by decide)
  rw [List.map_map] at hnodup
  rw [tableFields, List.map_cons, List.map_map]
  exact hnodup

theorem objectFields_nodup : ((objectFields c (ms.attributes c c)).map (·.name)).Nodup := by
  have hnodup := fieldIds_nodup (f := tableField) (hco.attributes_nodup hc) (fun x hx => by
    obtain ⟨a, ha, rfl⟩ := List.mem_map.mp hx
    exact hnamed.attributes c hc a ha) (by decide)
  rw [List.map_map] at hnodup
  unfold objectFields dataFields
  split
  · exact (by decide : [tableField, valueField].Nodup)
  · split
    · exact (by decide : [tableField, charsField].Nodup)
    · rw [List.map_cons, List.map_map]
      exact hnodup

end

/-- An object type of a module is that of a class or that of its table. -/
theorem exists_class_of_hasStruct {ms : Members} (hr : ms.hierarchy.Rooted) {pool : Pool}
    {funcs : List Func} {t : String} {fields : List Field}
    (ht : (moduleOf ms pool funcs).HasStruct t fields) : ∃ c ∈ ms.hierarchy.names,
      fields = tableFields (ms.methods c c) ∨ fields = objectFields c (ms.attributes c c) := by
  obtain ⟨super, ht⟩ := ht
  rcases List.mem_append.mp ht with ht | ht
  · simp [fixedTypes] at ht
  · obtain ⟨c, hc, ht⟩ := List.mem_flatMap.mp ht
    refine ⟨c, (Hierarchy.mem_topological hr).mp hc, ?_⟩
    rcases List.mem_append.mp ht with ht | ht
    · obtain ⟨m, -, hm⟩ := List.mem_map.mp ht
      cases hm
    · rcases List.mem_pair.mp ht with ht | ht
      · cases ht
        exact .inl rfl
      · cases ht
        exact .inr rfl

/-- In the module of an accepted program whose names are identifiers, each name stands for one
thing. -/
theorem namesDistinct_moduleOf {p p' : Program} {ms : Members} (h : Pipeline.Analyzed p ms p')
    (hnamed : Named ms) {pool : Pool} (hpool : pool.ints.Nodup) {common : List Func}
    {s : Progress} (hcommon : commonFuncs ms = .ok common)
    (hemits : EmitsAll ms pool (declaredFeatures p') ms.hierarchy.topological
      { funcs := common } s) : (moduleOf ms pool s.funcs).NamesDistinct where
  types := types_nodup h.coherent hnamed pool s.funcs
  globals := globals_nodup h.coherent hnamed hpool s.funcs
  funcs := funcs_nodup h hnamed hcommon hemits
  fields t fields ht := by
    obtain ⟨c, hc, hfields⟩ := exists_class_of_hasStruct h.coherent.rooted ht
    rcases hfields with rfl | rfl
    · exact tableFields_nodup h.coherent hnamed hc
    · exact objectFields_nodup h.coherent hnamed hc

end Cool.Lowering
