import Cool.Proofs.Lowering.LiftPoints
import Cool.Proofs.Pipeline.ValidCode

/-! The functions of a module. Those that are lifted match the lets, the branches and the cases of
the program one to one, and each writes back what its place says. All others are functions that
every module has, or are the functions of a class. -/

namespace Cool

namespace Lowering

open Wat

/-! ## Places in features -/

/-- What is visible in the features of a class: its attributes. -/
def visibleAttributes (ms : Members) (c : Name) : Visible :=
  (ms.attributes c c).map fun a => (a.name, ⟨.field, a.type⟩)

/-- What is visible in the body of a method. -/
def Visible.bindAll (vs : Visible) (formals : List Formal) : Visible :=
  formals.foldl (fun vs f => vs.bind f.name f.type) vs

theorem visible_classSite {ms : Members} {pool : Pool} {c : Name}
    (hnodup : ((ms.attributes c c).map (·.name)).Nodup) :
    (classSite ms pool c).visible = visibleAttributes ms c := by
  have hkeys : ((visibleAttributes ms c).map (·.1)).Nodup := by
    rw [visibleAttributes, List.map_map]
    exact hnodup
  have hempty : ({} : Scope Name Binding).visible = [] := rfl
  rw [Site.visible, classSite, Scope.visible_enterWith, hempty]
  exact Scope.foldl_bindIn hkeys

theorem visible_withFormals (site : Site) (formals : List Formal) :
    (site.withFormals formals).visible = site.visible.bindAll formals := by
  rw [Site.visible, Site.withFormals, Scope.visible_enterWith, List.foldl_map]
  rfl

/-- The places in the initializer or the body of a feature. -/
def featurePoints (vs : Visible) : Feature → List (Visible × LiftPoint)
  | .attr a => liftPoints vs a.init
  | .method m => liftPoints (vs.bindAll m.formals) m.body

/-- The places in the features of a class. -/
def classPoints (ms : Members) (c : Name) (fs : List Feature) :
    List (Name × Visible × LiftPoint) :=
  (fs.flatMap (featurePoints (visibleAttributes ms c))).map fun q => (c, q)

/-- The places in a program. -/
def programPoints (ms : Members) (p : Program) : List (Name × Visible × LiftPoint) :=
  p.classes.flatMap fun d => classPoints ms d.name d.features

/-! ## Functions of classes -/

/-- A function that is lifted at a place, and called in one of the given functions. -/
def WritesBackIn (funcs : List Func) (q : Name × Visible × LiftPoint) (g : Func) : Prop :=
  q.2.2.WritesBack q.1 q.2.1 g ∧
    ∃ caller ∈ funcs, Contains (q.2.2.call q.2.1 g.name) caller.body

theorem WritesBackIn.mono {funcs funcs' : List Func} {q : Name × Visible × LiftPoint} {g : Func}
    (h : WritesBackIn funcs q g) (hfuncs : funcs ⊆ funcs') : WritesBackIn funcs' q g := by
  obtain ⟨hwrites, caller, hcaller, hcall⟩ := h
  exact ⟨hwrites, caller, hfuncs hcaller, hcall⟩

/-- Between two states functions are finished: one for each of the given places, and others. -/
def Finishing (other : Func → Prop) (ks : List (Name × Visible × LiftPoint)) (s s' : Progress) :
    Prop :=
  ∃ new others lifted points, s'.funcs = s.funcs ++ new ∧ new.Perm (others ++ lifted) ∧
    (∀ g ∈ others, other g) ∧ points.Perm ks ∧ List.Forall₂ (WritesBackIn new) points lifted

namespace Finishing

variable {other other' : Func → Prop} {ks ks' : List (Name × Visible × LiftPoint)}
variable {s s₁ s₂ : Progress}

theorem of_others {gs : List Func} (hgs : ∀ g ∈ gs, other g) :
    Finishing other [] s (s.emittingAll gs) :=
  ⟨gs, gs, [], [], rfl, by rw [List.append_nil], hgs, .refl _, .nil⟩

theorem refl (other : Func → Prop) (s : Progress) : Finishing other [] s s :=
  ⟨[], [], [], [], (List.append_nil _).symm, .refl _, nofun, .refl _, .nil⟩

theorem weaken (h : Finishing other ks s s₁) (hother : ∀ g, other g → other' g)
    (hks : ks.Perm ks') : Finishing other' ks' s s₁ := by
  obtain ⟨new, others, lifted, points, hfuncs, hnew, hothers, hpoints, hlifted⟩ := h
  exact ⟨new, others, lifted, points, hfuncs, hnew, fun g hg => hother g (hothers g hg),
    hpoints.trans hks, hlifted⟩

theorem trans (h : Finishing other ks s s₁) (h' : Finishing other ks' s₁ s₂) :
    Finishing other (ks ++ ks') s s₂ := by
  obtain ⟨new, others, lifted, points, hfuncs, hnew, hothers, hpoints, hlifted⟩ := h
  obtain ⟨new', others', lifted', points', hfuncs', hnew', hothers', hpoints', hlifted'⟩ := h'
  refine ⟨new ++ new', others ++ others', lifted ++ lifted', points ++ points', ?_, ?_, ?_,
    hpoints.append hpoints', List.rel_append (hlifted.imp fun q g h => ?_)
      (hlifted'.imp fun q g h => ?_)⟩
  · rw [hfuncs', hfuncs, List.append_assoc]
  · refine (hnew.append hnew').trans ?_
    simp only [List.append_assoc]
    exact (List.perm_append_comm_assoc _ _ _).append_left _
  · exact List.forall_mem_append.mpr ⟨hothers, hothers'⟩
  · exact h.mono (List.subset_append_left _ _)
  · exact h.mono (List.subset_append_right _ _)

/-- A function around the code of expressions is finished after those lifted from them. -/
theorem of_lifting {cls : Name} {is : List Instr} {points : List (Visible × LiftPoint)} {g : Func}
    (h : Lifting cls is points s s₁) (hinner : Contains is g.body) (hg : other g) :
    Finishing other (points.map fun q => (cls, q)) s (s₁.emitting g) := by
  obtain ⟨new, places, hfuncs, hplaces, hnew⟩ := h
  refine ⟨new ++ [g], [g], new, places.map fun q => (cls, q), ?_, List.perm_append_comm, ?_,
    hplaces.map _, ?_⟩
  · rw [Progress.emitting, hfuncs, List.append_assoc]
  · intro f hf
    rw [List.mem_singleton.mp hf]
    exact hg
  · rw [List.forall₂_map_left_iff]
    refine hnew.imp fun q f => ?_
    rintro ⟨hwrites, hcall | ⟨caller, hcaller, hcall⟩⟩
    · exact ⟨hwrites, g, List.mem_append_right _ (List.mem_singleton_self g), hcall.trans hinner⟩
    · exact ⟨hwrites, caller, List.mem_append_left _ hcaller, hcall⟩

end Finishing

/-- Whether a feature is an attribute. -/
def isAttribute : Feature → Bool
  | .attr _ => true
  | .method _ => false

theorem Initializes.lifting {site : Site} {fs : List Feature} {s s' : Progress}
    {instrs : List Instr} (h : Initializes site fs s instrs s') :
    Lifting site.current instrs ((fs.filter isAttribute).flatMap (featurePoints site.visible))
      s s' := by
  induction h with
  | nil => exact .refl _ _ _
  | method _ ih => exact ih
  | @absent a rest _ _ _ ha _ ih =>
      rw [List.filter_cons_of_pos rfl, List.flatMap_cons, featurePoints, liftPoints_of_isAbsent ha]
      exact ih
  | @attr a rest want code others _ _ _ _ _ hinit _ ih =>
      rw [List.filter_cons_of_pos rfl, List.flatMap_cons]
      refine (hinit.lifting.within ?_).trans (ih.within ?_)
      · exact ((contains_coerced ..).right [_]).left _
      · exact ((Contains.refl _).right [_]).right _

theorem EmitsInit.finishing {site : Site} {fs : List Feature} {s s' : Progress}
    (h : EmitsInit site fs s s') {other : Func → Prop}
    (hfs : site.current.isPrimitive = true → fs = [])
    (hother : site.current.isPrimitive = false → ∀ g : Func,
      g.name = initFunc site.current → other g) :
    Finishing other (((fs.filter isAttribute).flatMap (featurePoints site.visible)).map
      fun q => (site.current, q)) s s' := by
  cases h with
  | primitive hprim =>
      rw [hfs hprim]
      exact .refl other s
  | object hprim hown =>
      exact .of_lifting hown.lifting ((Contains.refl _).right _) (hother hprim _ rfl)

theorem EmitsMethods.finishing {site : Site} {fs : List Feature} {s s' : Progress}
    (h : EmitsMethods site fs s s') {other : Func → Prop}
    (hother : ∀ x ∈ methodNames fs, ∀ g : Func,
      g.name = (Role.implementation x).id site.current → other g) :
    Finishing other (((fs.filter fun f => !isAttribute f).flatMap
      (featurePoints site.visible)).map fun q => (site.current, q)) s s' := by
  induction h with
  | nil => exact .refl other _
  | attr _ ih => exact ih hother
  | @method m rest entry code s s₁ s₂ hentry hbody _ ih =>
      obtain ⟨-, hname, hdefiner⟩ := ownMethod_eq_ok hentry
      have hbody' := hbody.lifting
      rw [visible_withFormals] at hbody'
      rw [List.filter_cons_of_pos rfl, List.flatMap_cons, List.map_append]
      refine Finishing.trans (.of_lifting hbody' ((contains_coerced ..).right _) ?_)
        (ih fun x hx => hother x (List.mem_cons_of_mem _ hx))
      refine hother m.name List.mem_cons_self _ ?_
      rw [← hname, ← hdefiner]
      rfl

/-- A function with the name of one of the functions of a class that are not lifted. -/
def HasRole (ms : Members) (features : Name → List Feature) (c : Name) (g : Func) : Prop :=
  ∃ r ∈ classRoles ms c (features c), g.name = r.id c

theorem exists_role {c : Name} {gs : List Func} {roles : List Role}
    (hnames : gs.map (·.name) = roles.map (Role.id c)) {g : Func} (hg : g ∈ gs) :
    ∃ r ∈ roles, g.name = r.id c := by
  obtain ⟨r, hr, heq⟩ := List.mem_map.mp (hnames ▸ List.mem_map_of_mem hg)
  exact ⟨r, hr, heq.symm⟩

/-- The places in initializers come before those in methods. -/
theorem classPoints_perm (ms : Members) (c : Name) (fs : List Feature) :
    (((fs.filter isAttribute).flatMap (featurePoints (visibleAttributes ms c))).map
        (fun q => (c, q)) ++
      ((fs.filter fun f => !isAttribute f).flatMap (featurePoints (visibleAttributes ms c))).map
        fun q => (c, q)).Perm (classPoints ms c fs) := by
  rw [← List.map_append, ← List.flatMap_append]
  exact ((List.filter_append_perm isAttribute fs).flatMap_right _).map _

theorem EmitsClass.finishing {ms : Members} {pool : Pool} {features : Name → List Feature}
    {c : Name} {s s' : Progress} (h : EmitsClass ms pool c (features c) s s')
    (hnodup : ((ms.attributes c c).map (·.name)).Nodup)
    (hintro : ∀ m ∈ ms.methods c c, m.origin = .introduced → m.intro = c)
    (hfs : c.isPrimitive = true → features c = []) :
    Finishing (HasRole ms features c) (classPoints ms c (features c)) s s' := by
  have hrole : ∀ {gs : List Func} (roles : List Role), gs.map (·.name) = roles.map (Role.id c) →
      (∀ r ∈ roles, r ∈ classRoles ms c (features c)) → ∀ g ∈ gs, HasRole ms features c g := by
    intro gs roles hnames hroles g hg
    obtain ⟨r, hr, hname⟩ := exists_role hnames hg
    exact ⟨r, hroles r hr, hname⟩
  have hmem : ∀ {r : Role}, r ∈ classRoles ms c (features c) → ∀ g : Func, g.name = r.id c →
      HasRole ms features c g := fun hr g hg => ⟨_, hr, hg⟩
  have hvisible : (classSite ms pool c).visible = visibleAttributes ms c :=
    visible_classSite hnodup
  cases h with
  | @mk new own _ s₁ _ hnew hinit hown hmethods =>
      have hnew' : Finishing (HasRole ms features c) [] s (s.emitting new) :=
        .of_others (hrole [.new] (congrArg (· :: []) hnew.name_eq) (by simp [classRoles]))
      have hvirtual : Finishing (HasRole ms features c) [] (s.emitting new)
          ((s.emitting new).emitting (Site.newVirtualDefinition c)) :=
        .of_others (hrole [.newVirtual] rfl (by simp [classRoles]))
      have hinit' := hinit.finishing hfs fun hprim =>
        hmem (r := .init) (by simp [classRoles, initRoles, show c.isPrimitive = false from hprim])
      have hown' : Finishing (HasRole ms features c) [] s₁ (s₁.emittingAll own) :=
        .of_others (hrole _ (perClass_names hown) (by simp +contextual [classRoles, perClassRoles]))
      have hgeneric : Finishing (HasRole ms features c) [] (s₁.emittingAll own)
          ((s₁.emittingAll own).emittingAll (genericDefinitions ms c)) :=
        .of_others (hrole _ (genericDefinitions_names hintro) (by simp +contextual [classRoles]))
      have hmethods' := hmethods.finishing fun x hx =>
        hmem (r := .implementation x) (by simp [classRoles, hx])
      rw [hvisible] at hinit' hmethods'
      refine (((((hnew'.trans hvirtual).trans hinit').trans hown').trans hgeneric).trans
        hmethods').weaken (fun _ hg => hg) ?_
      simp only [List.nil_append, List.append_nil]
      exact classPoints_perm ms c (features c)

theorem EmitsAll.finishing {ms : Members} {pool : Pool} {features : Name → List Feature}
    {cs : List Name} {s s' : Progress} (h : EmitsAll ms pool features cs s s')
    (hnodup : ∀ c ∈ cs, ((ms.attributes c c).map (·.name)).Nodup)
    (hintro : ∀ c ∈ cs, ∀ m ∈ ms.methods c c, m.origin = .introduced → m.intro = c)
    (hfs : ∀ c ∈ cs, c.isPrimitive = true → features c = []) :
    Finishing (fun g => ∃ c ∈ cs, HasRole ms features c g)
      (cs.flatMap fun c => classPoints ms c (features c)) s s' := by
  induction h with
  | nil => exact .refl _ _
  | @cons c rest s s₁ s₂ hc _ ih =>
      rw [List.forall_mem_cons] at hnodup hintro hfs
      rw [List.flatMap_cons]
      have hfirst := hc.finishing hnodup.1 hintro.1 hfs.1
      have hothers := ih hnodup.2 hintro.2 hfs.2
      refine (hfirst.weaken (fun g hg => ?_) (.refl _)).trans (hothers.weaken ?_ (.refl _))
      · exact ⟨c, List.mem_cons_self, hg⟩
      · rintro g ⟨d, hd, hg⟩
        exact ⟨d, List.mem_cons_of_mem _ hd, hg⟩

end Lowering

namespace Pipeline

open Lowering Wat

/-! ## Programs -/

/-- The classes of an accepted program after the builtin ones. -/
theorem names_of_accepted {p : Program} {ms : Members}
    (ha : (analyze p).verdict = .accepted ms) :
    ms.hierarchy.names = (Builtin.classes ++ (analyze p).program.classes).map (·.name) := by
  obtain ⟨hb, hp⟩ := analyze_accepted ha
  have hv := Members.valid_of_build hb
  obtain ⟨-, hh⟩ := Members.coherent_of_build (Hierarchy.rooted_of_valid hv) hb
  rw [hh, Hierarchy.names_build hv, List.map_append, List.map_append, classNames_eq hp.classes]

/-- The places in the classes of the hierarchy are those in the program. -/
theorem programPoints_perm {p : Program} {ms : Members}
    (ha : (analyze p).verdict = .accepted ms) :
    (ms.hierarchy.topological.flatMap fun c =>
      classPoints ms c (declaredFeatures (analyze p).program c)).Perm
      (programPoints ms (analyze p).program) := by
  have h := analyzed_of_accepted ha
  have hr := h.coherent.rooted
  have htopological : ms.hierarchy.topological.Perm ms.hierarchy.names :=
    (List.perm_ext_iff_of_nodup (Hierarchy.topological_nodup hr) hr.names_nodup).mpr fun _ =>
      Hierarchy.mem_topological hr
  refine (htopological.flatMap_right _).trans (.of_eq ?_)
  rw [names_of_accepted ha, List.map_append, List.flatMap_append, List.flatMap_map,
    List.flatMap_map]
  have hbuiltin : ∀ d ∈ Builtin.classes,
      classPoints ms d.name (declaredFeatures (analyze p).program d.name) = [] := by
    intro d hd
    rw [declaredFeatures_builtin (Hierarchy.isBuiltin_iff.mpr ⟨d, hd, rfl⟩)]
    rfl
  have hown : ∀ d ∈ (analyze p).program.classes,
      declaredFeatures (analyze p).program d.name = d.features := by
    intro d' hd'
    obtain ⟨d, hd⟩ := h.listed d' hd'
    rw [hd.name, declaredFeatures, if_neg (by simp [hd.not_builtin]), hd.found]
  rw [List.flatMap_eq_nil_iff.mpr hbuiltin, List.nil_append]
  exact List.flatMap_congr fun d hd => by rw [hown d hd]

/-- Write-back of lifted functions is exact. The functions of a module match the lets, the branches
and the cases of its program one to one, apart from those that every module has and from the
functions of its classes. A lifted function takes the locals that are visible at its place with the
variable it binds, and hands back those of the outer ones that are assigned free there; the code
after its call stores each of them into the local it came from and leaves the value. -/
theorem lifted_functions_write_back {p : Program} {ms : Members} {strings : Interner} {out : Output}
    (ha : (analyze p).verdict = .accepted ms)
    (hout : generate ms strings (analyze p).program = .ok out) :
    ∃ others lifted points, out.module.funcs.Perm (others ++ lifted) ∧
      points.Perm (programPoints ms (analyze p).program) ∧
      List.Forall₂ (WritesBackIn out.module.funcs) points lifted ∧
      ∀ g ∈ others, (∃ common, commonFuncs ms = .ok common ∧ g ∈ common) ∨
        ∃ c ∈ ms.hierarchy.names, HasRole ms (declaredFeatures (analyze p).program) c g := by
  have h := analyzed_of_accepted ha
  have hmem := fun {c : Name} => (Hierarchy.mem_topological h.coherent.rooted (c := c)).mp
  obtain ⟨pool, common, s, -, hcommon, hemits, heq⟩ := generate_eq_ok hout
  obtain ⟨new, others, lifted, points, hfuncs, hnew, hothers, hpoints, hlifted⟩ :=
    hemits.finishing (fun c hc => h.coherent.attributes_nodup (hmem hc))
      (fun c hc m hm => (h.coherent.seenMethod (hmem hc) m hm).origin_iff.mp)
      (fun c _ hprim => declaredFeatures_builtin (isBuiltin_of_isPrimitive hprim))
  have hmodule : out.module.funcs = common ++ new := by
    rw [heq]
    exact hfuncs
  refine ⟨common ++ others, lifted, points, ?_, hpoints.trans (programPoints_perm ha), ?_, ?_⟩
  · rw [hmodule, List.append_assoc]
    exact hnew.append_left common
  · rw [hmodule]
    exact hlifted.imp fun _ _ hq => hq.mono (List.subset_append_right _ _)
  · intro g hg
    rcases List.mem_append.mp hg with hg | hg
    · exact .inl ⟨common, hcommon, hg⟩
    · obtain ⟨c, hc, hrole⟩ := hothers g hg
      exact .inr ⟨c, hmem hc, hrole⟩

/-- The tree of a class with an attribute `a : Int` and with a method `f(y : Int, z : Int) : Int`
that assigns its first formal and hides the second one,
`let z : Int in { z <- 2; case z of a : Int => y <- a; esac; }`. -/
def hidden : Program :=
  let span : Span := ⟨"hidden.cl", 1⟩
  let m : Mark := { span }
  let a : Name := .named "a"
  let y : Name := .named "y"
  let z : Name := .named "z"
  ⟨span, [⟨span, .named "A", .object,
    [.attr ⟨span, a, .int, .noExpr m⟩,
      .method ⟨span, .named "f", [⟨span, y, .int⟩, ⟨span, z, .int⟩], .int,
        .letIn m z .int (.noExpr m)
          (.block m [.assign m z (.int m "2"),
            .caseOf m (.object m z) [.mk span a .int (.assign m y (.object m a))]])⟩]⟩]⟩

theorem lifted_functions_write_back_hidden : ∃ ms out, (analyze hidden).verdict = .accepted ms ∧
    generate ms {} (analyze hidden).program = .ok out ∧
    ∃ g ∈ out.module.funcs, g.params.map (·.1) = ["$self", "$y", "$z"] ∧ g.results.length = 2 ∧
      ∃ caller ∈ out.module.funcs,
        Contains [.plain (.call g.name) [], .plain (.localSet "$y") []] caller.body := by
  have hmodule : (analyze hidden).verdict.acceptedWith (fun ms =>
      (generate ms {} (analyze hidden).program).toOption.isSome &&
        (programPoints ms (analyze hidden).program).any fun q =>
          (q.2.2.taken q.2.1).map (·.1) = [.named "y", .named "z"] &&
            (q.2.2.back q.2.1).map (·.1) = [.named "y"] && q.2.2.leading = []) = true := by
    decide +kernel
  obtain ⟨ms, ha, hms⟩ := Verdict.exists_of_acceptedWith hmodule
  rw [Bool.and_eq_true] at hms
  cases hout : generate ms {} (analyze hidden).program with
  | error e =>
      rw [hout] at hms
      cases hms.1
  | ok out =>
      obtain ⟨q, hq, hplace⟩ := List.any_eq_true.mp hms.2
      simp only [Bool.and_eq_true, decide_eq_true_eq] at hplace
      obtain ⟨⟨htaken, hback⟩, hleading⟩ := hplace
      obtain ⟨others, lifted, points, hfuncs, hpoints, hlifted, -⟩ :=
        lifted_functions_write_back ha hout
      obtain ⟨g, hg, hwrites, hcall⟩ := Members.Site.exists_left_of_forall₂ hlifted.flip
        (hpoints.mem_iff.mpr hq)
      obtain ⟨value, hresults⟩ := hwrites.results
      have hids : (q.2.2.back q.2.1).map (fun p => localId p.1) = ["$y"] := by
        rw [← Function.comp_def, ← List.map_map, hback]
        rfl
      refine ⟨ms, out, ha, hout, g, hfuncs.mem_iff.mpr (List.mem_append_right _ hg), ?_, ?_, ?_⟩
      · rw [hwrites.params, hleading, List.nil_append, List.map_cons, List.map_map]
        have hslots : (Prod.fst ∘ slot q.1) = localId ∘ (·.1) := rfl
        rw [hslots, ← List.map_map, htaken]
        rfl
      · have hcount := congrArg List.length hback
        simp only [List.length_map, List.length_cons, List.length_nil] at hcount
        rw [hresults, List.length_cons, List.length_map, hcount]
      · rw [LiftPoint.call, hids] at hcall
        exact hcall

end Pipeline

end Cool
