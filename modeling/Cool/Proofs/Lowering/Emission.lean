import Cool.Lowering.Program
import Cool.Proofs.Lowering.NoCode
import Cool.Proofs.Pipeline.Acceptance

/-! Which accepted programs have a module: those without a feature that has no code. -/

namespace Cool.Lowering

open Typing (Env Context AcceptsFeature classScope methodScope)

/-! ## The sites of a class -/

/-- Where the features of a class are lowered. -/
def classSite (ms : Members) (pool : Pool) (cls : Name) : Site :=
  ⟨ms, pool, cls, ({} : Scope Name Binding).enterWith
    ((ms.attributes cls cls).map fun a => (a.name, ⟨.field, a.type⟩))⟩

/-- Where the body of a method is lowered. -/
def Site.withFormals (site : Site) (formals : List Formal) : Site :=
  { site with scope := site.scope.enterWith (formals.map fun f => (f.name, ⟨.local, f.type⟩)) }

/-- The types of formals, by name. -/
def formalTypes (formals : List Formal) : Env := fun x =>
  (formals.find? (·.name = x)).map (·.type)

section

variable {ms : Members} {pool : Pool} {c : Name}

theorem lookup_classSite (hattributes : ((ms.attributes c c).map (·.name)).Nodup) (x : Name) :
    (classSite ms pool c).scope.lookup x =
      ((ms.attributes c c).find? (·.name = x)).map fun a => ⟨.field, a.type⟩ := by
  unfold classSite
  rw [Scope.lookup_enterWith_map hattributes]
  exact Option.or_none

theorem lookup_classScope (hattributes : ((ms.attributes c c).map (·.name)).Nodup) {x : Name}
    (hx : x ≠ .self) :
    (classScope (ms.attributes c c)).lookup x =
      ((ms.attributes c c).find? (·.name = x)).map (·.type) := by
  unfold classScope
  have hlast := Scope.lookup_enterWith_map hattributes (·.type) ({} : Scope Name Name) x
  rw [Scope.lookup_enterWith] at hlast ⊢
  rw [List.filter_append, List.filter_singleton]
  simp only [Ne.symm hx, decide_false, cond_false, List.append_nil]
  exact hlast.trans Option.or_none

/-- The attributes of a class are seen by its features as they were when these were checked. -/
theorem matches_classSite (hattributes : ((ms.attributes c c).map (·.name)).Nodup) :
    (classSite ms pool c).Matches ⟨ms, c⟩ (classScope (ms.attributes c c)).lookup := by
  refine ⟨rfl, rfl, fun x hx => ?_, fun x t hxt => ?_⟩
  · rw [lookup_classSite hattributes, lookup_classScope hattributes hx, Option.map_map]
    rfl
  · rw [lookup_classSite hattributes] at hxt
    obtain ⟨a, ha, heq⟩ := Option.map_eq_some_iff.mp hxt
    cases heq
    exact ⟨a, List.mem_of_find?_eq_some ha, by simpa using List.find?_some ha, rfl⟩

theorem localTypes_classSite (hattributes : ((ms.attributes c c).map (·.name)).Nodup) :
    (classSite ms pool c).localTypes = fun _ => none := by
  funext x
  unfold Site.localTypes
  rw [lookup_classSite hattributes]
  cases (ms.attributes c c).find? (·.name = x) <;> rfl

theorem Site.Matches.withSelf {site : Site} {cx : Context} {scope : Scope Name Name}
    (hm : site.Matches cx scope.lookup) :
    site.Matches cx (scope.enterWith [(.self, .selfType)]).lookup := by
  refine ⟨hm.members, hm.current, fun x hx => ?_, hm.fields⟩
  rw [Scope.lookup_enterWith_singleton, if_neg hx, hm.lookup x hx]

theorem Site.Ready.withSelf {site : Site} {cx : Context} {scope : Scope Name Name}
    (hr : site.Ready cx scope) : site.Ready cx (scope.enterWith [(.self, .selfType)]) :=
  ⟨hr.toMatches.withSelf, hr.zero, hr.empty⟩

theorem Site.lookup_withFormals {site : Site} {formals : List Formal}
    (hformals : (formals.map (·.name)).Nodup) (x : Name) :
    (site.withFormals formals).scope.lookup x =
      ((formals.find? (·.name = x)).map fun f => ⟨.local, f.type⟩).or (site.scope.lookup x) :=
  Scope.lookup_enterWith_map hformals _ _ x

theorem Site.Matches.withFormals {site : Site} {cx : Context} {scope : Scope Name Name}
    (hm : site.Matches cx scope.lookup) {formals : List Formal}
    (hself : ∀ f ∈ formals, f.name ≠ .self)
    (hformals : (formals.map (·.name)).Nodup) :
    (site.withFormals formals).Matches cx (methodScope scope formals).lookup := by
  have hkept : formals.filter (·.name ≠ .self) = formals :=
    List.filter_eq_self.mpr fun f hf => by simpa using hself f hf
  refine ⟨hm.members, hm.current, fun x hx => ?_, fun x t hxt => ?_⟩
  · have hlast := Scope.lookup_enterWith_map hformals (·.type) scope x
    rw [Site.lookup_withFormals hformals, methodScope, hkept]
    rw [Scope.lookup_enterWith] at hlast ⊢
    rw [List.filter_cons_of_neg (by simpa using Ne.symm hx), hlast, hm.lookup x hx]
    cases formals.find? (·.name = x) <;> rfl
  · rw [Site.lookup_withFormals hformals] at hxt
    cases hf : formals.find? (·.name = x) with
    | none =>
        rw [hf] at hxt
        exact hm.fields x t hxt
    | some f =>
        rw [hf] at hxt
        cases hxt

theorem Site.Ready.withFormals {site : Site} {cx : Context} {scope : Scope Name Name}
    (hr : site.Ready cx scope) {formals : List Formal} (hself : ∀ f ∈ formals, f.name ≠ .self)
    (hformals : (formals.map (·.name)).Nodup) :
    (site.withFormals formals).Ready cx (methodScope scope formals) :=
  ⟨hr.toMatches.withFormals hself hformals, hr.zero, hr.empty⟩

theorem Site.localTypes_withFormals {site : Site} {formals : List Formal}
    (hformals : (formals.map (·.name)).Nodup) (hnone : site.localTypes = fun _ => none) :
    (site.withFormals formals).localTypes = formalTypes formals := by
  funext x
  have hx := congrFun hnone x
  unfold Site.localTypes formalTypes at *
  rw [Site.lookup_withFormals hformals]
  cases formals.find? (·.name = x) with
  | none => exact hx
  | some f => rfl

end

/-! ## Settling a class -/

/-- The features that have no code. The value of an attribute needs a class that represents its
type, even if it is not initialized. -/
def FeatureNoCode (cx : Context) : Feature → Prop
  | .attr a => NoLayout (Members.resolve a.type cx.current) ∨
      a.init.isAbsent = false ∧ NoCode cx (fun _ => none) a.init
  | .method m => NoCode cx (formalTypes m.formals) m.body

/-- A class has code where every attribute it has, inherited ones included, is of a type that has a
class, and its features have code. -/
def HasCode (ms : Members) (c : Name) (features : List Feature) : Prop :=
  (c.isPrimitive = true ∨ ∀ a ∈ ms.attributes c c, ¬ NoLayout (attributeLayout a)) ∧
    ∀ f ∈ features, ¬ FeatureNoCode ⟨ms, c⟩ f

/-- What is needed to lower features of a class that were checked. -/
structure Site.Prepared (site : Site) (cx : Context) (scope : Scope Name Name)
    (fs fs' : List Feature) : Prop extends site.Ready cx scope where
  accepted : List.Forall₂ (AcceptsFeature cx scope) fs fs'
  pooled : ∀ f ∈ fs', ∀ n ∈ f.nodes, site.pool.Holds n
  no_locals : site.localTypes = fun _ => none
  attributes : ∀ a, .attr a ∈ fs' → ∃ e ∈ site.members.attributes site.current site.current,
    site.attributeClass a.name = .ok (attributeLayout e) ∧
      attributeLayout e = Members.resolve a.type site.current
  methods : ∀ m, .method m ∈ fs' → (∃ entry, site.ownMethod m = .ok entry) ∧
    (∀ f ∈ m.formals, f.name ≠ .self) ∧ (m.formals.map (·.name)).Nodup

section

variable {cx : Context} {site : Site} {scope : Scope Name Name} {fs fs' : List Feature}

/-- The initializers are lowered where every attribute with one has code for it. -/
theorem settles_initializers (hcx : cx.Installed) (hp : site.Prepared cx scope fs fs') :
    Settles (site.initializers fs')
      (∀ a, .attr a ∈ fs' → ¬ (a.init.isAbsent = false ∧ NoCode cx (fun _ => none) a.init)) := by
  obtain ⟨hr, haccepted, hn, hlocals, hattributes, -⟩ := hp
  induction haccepted with
  | nil =>
      rw [Site.initializers]
      exact (Settles.pure _).congr (by simp)
  | @cons f f' fs fs' hf hfs ih =>
      rw [List.forall_mem_cons] at hn
      have hrest := ih hn.2 fun a ha => hattributes a (List.mem_cons_of_mem _ ha)
      cases hf with
      | method hbody hresult =>
          rw [Site.initializers]
          exact hrest.congr (by simp)
      | @attr a init t hinit hfit =>
          obtain ⟨e, -, hc, -⟩ := hattributes _ List.mem_cons_self
          have hnodes := (List.forall_mem_cons.mp hn.1).2
          have hi := settles_lower hcx a.init hinit hr.withSelf hnodes
          rw [Settled, hlocals] at hi
          rw [Site.initializers]
          dsimp only
          cases habsent : init.isAbsent with
          | true => exact hrest.congr (by simp [habsent])
          | false =>
              refine (Settles.lift_bind hc ((hi.map _).bind fun _ => hrest.bind fun _ =>
                .pure _)).congr ?_
              simp [habsent]

/-- The methods are lowered where every body has code. -/
theorem settles_emitMethods (hcx : cx.Installed) (hp : site.Prepared cx scope fs fs') :
    Settles (site.emitMethods fs')
      (∀ m, .method m ∈ fs' → ¬ NoCode cx (formalTypes m.formals) m.body) := by
  obtain ⟨hr, haccepted, hn, hlocals, -, hmethods⟩ := hp
  induction haccepted with
  | nil =>
      rw [Site.emitMethods]
      exact (Settles.pure _).congr (by simp)
  | @cons f f' fs fs' hf hfs ih =>
      rw [List.forall_mem_cons] at hn
      have hrest := ih hn.2 fun m hm => hmethods m (List.mem_cons_of_mem _ hm)
      cases hf with
      | attr hinit hfit =>
          rw [Site.emitMethods]
          exact hrest.congr (by simp)
      | @method m body t hbody hresult =>
          obtain ⟨⟨entry, hentry⟩, hself, hformals⟩ := hmethods _ List.mem_cons_self
          have hnodes : ∀ n ∈ body.nodes, site.pool.Holds n := fun n hmem =>
            (List.forall_mem_cons.mp hn.1).2 n (List.mem_append_right _ hmem)
          have hb := settles_lower hcx m.body hbody (hr.withFormals hself hformals) hnodes
          rw [Settled, Site.localTypes_withFormals hformals hlocals] at hb
          rw [Site.emitMethods]
          refine (Settles.bind (.lift_bind hentry ((hb.map _).inFrame _ |>.bind fun _ =>
            .emit _)) fun _ => hrest).congr ?_
          simp

theorem exists_newDefinition_iff (hr : site.Ready cx scope) {cls : Name} :
    (∃ f, site.newDefinition cls = .ok f) ↔ cls.isPrimitive = true ∨
      ∀ a ∈ site.members.attributes cls cls, ¬ NoLayout (attributeLayout a) := by
  unfold Site.newDefinition
  cases hprimitive : cls.isPrimitive with
  | true =>
      have hlaid : ¬ NoLayout cls := by
        rintro (rfl | rfl | rfl) <;> cases hprimitive
      obtain ⟨i, hi⟩ := hr.exists_defaultValue_iff.mpr hlaid
      rw [if_pos rfl, hi]
      exact ⟨fun _ => Or.inl rfl, fun _ => ⟨_, rfl⟩⟩
  | false =>
      simp only [← hr.exists_defaultValue_iff, ← exists_mapM_ok_iff]
      cases (site.members.attributes cls cls).mapM fun a =>
          site.defaultValue (attributeLayout a) with
      | ok fields => exact ⟨fun _ => Or.inr ⟨fields, rfl⟩, fun _ => ⟨_, rfl⟩⟩
      | error f =>
          constructor
          · rintro ⟨_, h⟩
            cases h
          · rintro (h | ⟨_, h⟩) <;> cases h

/-- The builtin methods that every class has its own version of. -/
theorem exists_perClassDefinitions
    (hcopy : ∃ m, site.members.method? .object .copy .object = some m)
    (hname : ∃ m, site.members.method? .object .typeName .object = some m) {cls : Name}
    (hpooled : ∃ g, site.pool.text cls.text = .ok g) :
    ∃ fs, site.perClassDefinitions cls = .ok fs := by
  refine exists_mapM_ok_iff.mpr fun m hm => ?_
  split
  · obtain ⟨m, hm⟩ := hcopy
    rw [Site.copyDefinition, hm]
    exact ⟨_, rfl⟩
  · obtain ⟨m, hm⟩ := hname
    obtain ⟨g, hg⟩ := hpooled
    rw [Site.typeNameDefinition, hm, hg]
    exact ⟨_, rfl⟩

theorem Settles.emitAll (fs : List Wat.Func) : Settles (emitAll fs) True :=
  ⟨fun _ _ => ⟨_, rfl⟩, fun h => absurd trivial h⟩

/-- The initializer of a class, which the builtin classes of constants do without. -/
def Site.emitInitIfAny (site : Site) (features : List Feature) : Lower Unit :=
  if site.current.isPrimitive then pure () else site.emitInit features

theorem emitClass_eq (ms : Members) (pool : Pool) (cls : Name) (features : List Feature) :
    emitClass ms pool cls features = (do
      let new ← (classSite ms pool cls).newDefinition cls
      emit new
      emit (Site.newVirtualDefinition cls)
      (classSite ms pool cls).emitInitIfAny features
      let own ← (classSite ms pool cls).perClassDefinitions cls
      emitAll own
      emitAll (((ms.methods cls cls).filter (·.origin = .introduced)).map
        (Site.genericDefinition cls))
      (classSite ms pool cls).emitMethods features) := by
  unfold emitClass Site.emitInitIfAny classSite
  cases cls.isPrimitive with
  | true => rfl
  | false => rfl

theorem settles_emitClass {ms : Members} {pool : Pool} {c : Name}
    (hcx : (⟨ms, c⟩ : Context).Installed) (hp : (classSite ms pool c).Prepared ⟨ms, c⟩ scope fs fs')
    (hperClass : ∃ own, (classSite ms pool c).perClassDefinitions c = .ok own)
    (hprimitive : c.isPrimitive = true → fs' = []) :
    Settles (emitClass ms pool c fs') (HasCode ms c fs') := by
  have hinit : Settles ((classSite ms pool c).emitInitIfAny fs')
      (∀ a, .attr a ∈ fs' →
        ¬ (a.init.isAbsent = false ∧ NoCode ⟨ms, c⟩ (fun _ => none) a.init)) := by
    unfold Site.emitInitIfAny
    split
    · rename_i hprim
      exact (Settles.pure _).congr (by simp [hprimitive hprim])
    · refine (((settles_initializers hcx hp).inFrame {}).bind fun r => .emit _).congr ?_
      simp
  rw [emitClass_eq]
  refine (((Settles.lift _).congr (exists_newDefinition_iff hp.toReady)).bind fun new =>
    (Settles.emit _).bind fun _ => (Settles.emit _).bind fun _ => hinit.bind fun _ =>
    ((Settles.lift _).congr (iff_true_intro hperClass)).bind fun own =>
    (Settles.emitAll _).bind fun _ => (Settles.emitAll _).bind fun _ =>
    settles_emitMethods hcx hp).congr ?_
  simp only [true_and]
  constructor
  · rintro ⟨hnew, hattrs, hmethods⟩
    refine ⟨hnew, fun f hf => ?_⟩
    cases f with
    | method m => exact hmethods m hf
    | attr a =>
        rintro (hno | hno)
        · obtain ⟨e, he, -, hlayout⟩ := hp.attributes a hf
          rcases hnew with hprim | hnew
          · rw [hprimitive hprim] at hf
            cases hf
          · exact hnew e he (hlayout ▸ hno)
        · exact hattrs a hf hno
  · rintro ⟨hnew, hall⟩
    exact ⟨hnew, fun a ha hno => hall _ ha (Or.inr hno), fun m hm => hall _ hm⟩

end

/-! ## Settling a program -/

section

variable {p p' : Program} {ms : Members} {pool : Pool}

theorem builtinBodies_declared : ∀ b ∈ builtinBodies, ∃ d ∈ Builtin.classes, d.name = b.1 ∧
    b.2.1 ∈ (d.features.filterMap Feature.method?).map (·.name) := by
  decide

theorem exists_commonFuncs (h : Pipeline.Analyzed p ms p') : ∃ fs, commonFuncs ms = .ok fs := by
  have hbuiltin : ∃ fs, builtinMethods ms = .ok fs := by
    refine exists_mapM_ok_iff.mpr fun b hb => ?_
    obtain ⟨d, hd, hdb, hb⟩ := builtinBodies_declared b hb
    obtain ⟨e, he⟩ := h.method?_builtin hd hb
    rw [hdb] at he
    obtain ⟨cls, name, locals, body⟩ := b
    dsimp only at he ⊢
    rw [he]
    exact ⟨_, rfl⟩
  obtain ⟨fs, hfs⟩ := hbuiltin
  rw [commonFuncs, hfs]
  exact ⟨_, rfl⟩

/-- What is known where the features of a class are lowered. -/
theorem prepared_classSite (h : Pipeline.Analyzed p ms p')
    (hserves : pool.Serves ms.hierarchy.topological p') {c : Name}
    (hc : c ∈ ms.hierarchy.names) :
    ∃ fs, (classSite ms pool c).Prepared ⟨ms, c⟩ (classScope (ms.attributes c c)) fs
      (declaredFeatures p' c) := by
  have hcx := h.installed c hc
  have hready : (classSite ms pool c).Ready ⟨ms, c⟩ (classScope (ms.attributes c c)) :=
    ⟨matches_classSite (h.coherent.attributes_nodup hc), hserves.zero, hserves.empty⟩
  have hlocals : (classSite ms pool c).localTypes = fun _ => none :=
    localTypes_classSite (h.coherent.attributes_nodup hc)
  unfold declaredFeatures
  cases hbuiltin : c.isBuiltin with
  | true => exact ⟨[], hready, .nil, by simp, hlocals, by simp, by simp⟩
  | false =>
      obtain ⟨d, d', rfl, hd⟩ := h.own c hc hbuiltin
      rw [if_neg (by simp), hd.found]
      refine ⟨d.features, hready, hd.features, ?_, hlocals, ?_, ?_⟩
      · intro f hf n hn
        refine hserves.nodes n (List.mem_cons_of_mem _ (List.mem_flatMap.mpr ⟨d', hd.mem', ?_⟩))
        exact List.mem_cons_of_mem _ (List.mem_flatMap.mpr ⟨f, hf, hn⟩)
      · intro a ha
        obtain ⟨b, hb, hname, htype⟩ := hd.attribute_of_mem ha
        obtain ⟨e, he, howns⟩ := h.coherent.declared_attribute hc hd.declared hb
        have hfound := h.coherent.attribute?_of_mem hc he d.name
        rw [howns.name, hname] at hfound
        refine ⟨e, he, ?_, ?_⟩
        · simp only [Site.attributeClass, classSite, hfound]
        · rw [attributeLayout, howns.type, howns.owner, htype]
          rfl
      · intro m hm
        obtain ⟨b, hb, hname, hformals⟩ := hd.method_of_mem hm
        obtain ⟨e, he, hdeclares⟩ := h.coherent.declared_method hc hd.declared hb
        have hfound := h.coherent.method?_of_mem hc he d.name
        rw [hdeclares.name, hname] at hfound
        refine ⟨⟨e, ?_⟩, ?_, ?_⟩
        · simp only [Site.ownMethod, classSite, hfound]
          exact if_pos hdeclares.definer
        · rw [← hformals]
          exact fun f hf => (hdeclares.formals_typed f hf).2
        · rw [← hformals]
          exact hdeclares.formals_nodup

theorem isBuiltin_of_isPrimitive {c : Name} (hc : c.isPrimitive = true) : c.isBuiltin = true := by
  simp only [Name.isPrimitive, Bool.or_eq_true, decide_eq_true_eq] at hc
  rcases hc with (rfl | rfl) | rfl <;> rfl

theorem not_isPrimitive {c : Name} (hc : c.isBuiltin = false) : c.isPrimitive = false :=
  Bool.eq_false_iff.mpr fun hprim => Bool.eq_false_iff.mp hc (isBuiltin_of_isPrimitive hprim)

theorem settles_class (h : Pipeline.Analyzed p ms p')
    (hserves : pool.Serves ms.hierarchy.topological p') {c : Name}
    (hc : c ∈ ms.hierarchy.names) :
    Settles (emitClass ms pool c (declaredFeatures p' c))
      (HasCode ms c (declaredFeatures p' c)) := by
  obtain ⟨fs, hp⟩ := prepared_classSite h hserves hc
  have hobject : Builtin.object ∈ Builtin.classes := List.mem_cons_self
  have hpooled : ∃ g, pool.text c.text = .ok g :=
    hserves.names c ((Hierarchy.mem_topological h.coherent.rooted).mpr hc)
  have hperClass : ∃ own, (classSite ms pool c).perClassDefinitions c = .ok own :=
    exists_perClassDefinitions (h.method?_builtin hobject (by decide))
      (h.method?_builtin hobject (by decide)) hpooled
  refine settles_emitClass (h.installed c hc) hp hperClass fun hprimitive => ?_
  rw [declaredFeatures, if_pos (isBuiltin_of_isPrimitive hprimitive)]

/-- The attributes of the builtin classes are of types that have a class. -/
theorem builtin_attribute_type : ∀ d ∈ Builtin.classes,
    ∀ a ∈ d.features.filterMap Feature.attribute?, a.type ∈ [Name.primSlot, .int] := by
  decide

theorem layout_of_owns {site : Members.Site} {a : Attribute} {e : AttributeEntry}
    (howns : site.Owns a e) : attributeLayout e = Members.resolve a.type site.cls := by
  rw [attributeLayout, howns.type, howns.owner]
  rfl

/-- An inherited attribute has the type it was declared with. -/
theorem attribute_laid (h : Pipeline.Analyzed p ms p')
    (hall : ∀ d ∈ p'.classes, ∀ f ∈ d.features, ¬ FeatureNoCode ⟨ms, d.name⟩ f) {c : Name}
    (hc : c ∈ ms.hierarchy.names) {a : AttributeEntry} (ha : a ∈ ms.attributes c c) :
    ¬ NoLayout (attributeLayout a) := by
  obtain ⟨hbelow, decl, b, hdecl, hb, howns⟩ := h.coherent.seenAttribute hc a ha
  rw [layout_of_owns howns]
  cases hbuiltin : a.owner.isBuiltin with
  | true =>
      obtain ⟨d, hd, hname⟩ := Hierarchy.isBuiltin_iff.mp hbuiltin
      rw [← hname, h.builtin d hd, Option.some.injEq] at hdecl
      subst hdecl
      have htype := builtin_attribute_type d hd b (List.mem_filterMap.mpr ⟨_, hb, rfl⟩)
      simp only [List.mem_cons, List.not_mem_nil, or_false] at htype
      unfold NoLayout
      rcases htype with htype | htype
      · rw [Members.resolve, htype, if_neg (by decide)]
        decide
      · rw [Members.resolve, htype, if_neg (by decide)]
        decide
  | false =>
      have howner : a.owner ∈ ms.hierarchy.names :=
        Hierarchy.Inherits.mem_names h.coherent.rooted hbelow hc
      obtain ⟨d, d', hname, hd⟩ := h.own a.owner howner hbuiltin
      rw [← hname, hd.declared, Option.some.injEq] at hdecl
      subst hdecl
      obtain ⟨b', hb', htype⟩ := hd.mem_of_attribute hb
      have hlaid := hall d' hd.mem' _ hb'
      rw [hd.name, hname] at hlaid
      rw [← htype]
      exact fun hno => hlaid (Or.inl hno)

/-- Every class has code exactly if no feature of the program is without. -/
theorem hasCode_iff (h : Pipeline.Analyzed p ms p') :
    (∀ c ∈ ms.hierarchy.topological, HasCode ms c (declaredFeatures p' c)) ↔
      ∀ d ∈ p'.classes, ∀ f ∈ d.features, ¬ FeatureNoCode ⟨ms, d.name⟩ f := by
  simp only [Hierarchy.mem_topological h.coherent.rooted]
  constructor
  · intro hcode d' hd' f hf
    obtain ⟨d, hd⟩ := h.listed d' hd'
    have hown := (hcode d.name hd.name_mem).2
    rw [declaredFeatures, if_neg (by simp [hd.not_builtin]), hd.found] at hown
    rw [hd.name]
    exact hown f hf
  · intro hall c hc
    refine ⟨Or.inr fun a ha => attribute_laid h hall hc ha, fun f hf => ?_⟩
    cases hbuiltin : c.isBuiltin with
    | true => simp [declaredFeatures, hbuiltin] at hf
    | false =>
        obtain ⟨d, d', rfl, hd⟩ := h.own c hc hbuiltin
        rw [declaredFeatures, if_neg (by simp [hd.not_builtin]), hd.found] at hf
        have hf' := hall d' hd.mem' f hf
        rwa [hd.name] at hf'

theorem functions_eq {common : List Wat.Func} (hcommon : commonFuncs ms = .ok common) :
    functions ms pool p' =
      ((ms.hierarchy.topological.forM fun c => emitClass ms pool c (declaredFeatures p' c))
        { funcs := common }).map fun r => r.2.funcs := by
  rw [functions, hcommon]
  change ((List.forM _ _ : Lower Unit).run { funcs := common } >>= fun r => .ok r.2.funcs) = _
  rw [StateT.run]
  cases (ms.hierarchy.topological.forM fun c =>
    emitClass ms pool c (declaredFeatures p' c)) { funcs := common } <;> rfl

/-- The functions of an accepted program are lowered exactly if all its features have code. -/
theorem exists_functions_iff (h : Pipeline.Analyzed p ms p')
    (hserves : pool.Serves ms.hierarchy.topological p') :
    (∃ fs, functions ms pool p' = .ok fs) ↔
      ∀ d ∈ p'.classes, ∀ f ∈ d.features, ¬ FeatureNoCode ⟨ms, d.name⟩ f := by
  obtain ⟨common, hcommon⟩ := exists_commonFuncs h
  have hsettles := (Settles.forM (P := fun c => HasCode ms c (declaredFeatures p' c))
    fun c hc => settles_class h hserves
      ((Hierarchy.mem_topological h.coherent.rooted).mp hc)).congr (hasCode_iff h)
  rw [functions_eq hcommon]
  constructor
  · rintro ⟨fs, hfs⟩
    by_contra hnot
    obtain ⟨f, hf⟩ := hsettles.fault hnot { funcs := common }
    rw [hf] at hfs
    cases hfs
  · intro hall
    obtain ⟨r, hr⟩ := hsettles.ok hall { funcs := common }
    rw [hr]
    exact ⟨_, rfl⟩

end

end Cool.Lowering
