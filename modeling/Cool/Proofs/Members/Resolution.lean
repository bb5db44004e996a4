import Cool.Proofs.Hierarchy.Topological
import Cool.Proofs.Members.Draft

/-! The members of all classes. Classes are added parents first, so the members of a class are those
of its parent, as they are in the end, together with what its own features give. -/

namespace Cool.Members

/-- Where the features of a class are resolved once its ancestors are. -/
def siteOf (ms : Members) (c : Name) : Site :=
  ⟨ms.hierarchy, c, (ms.hierarchy.parent? c).map fun p => (ms.of? p).getD { cls := p }⟩

/-- What a class inherits. -/
def inherited (ms : Members) (c : Name) : ClassMembers :=
  (ms.siteOf c).parent?.getD { cls := c }

/-- The members of a class with the given draft of its own features. -/
def membersOf (ms : Members) (c : Name) (draft : Draft) : ClassMembers :=
  ⟨c, (ms.inherited c).attributes ++ draft.attributes,
    Site.allMethods (ms.inherited c).methods draft.methods⟩

/-- A class whose features were added, starting from some numbers of slots. -/
structure Added (ms : Members) (reports : List (Report Problem)) (c : Name) (decl : ClassDecl)
    (draft : Draft) : Prop where
  declared : ms.hierarchy.decl? c = some decl
  drafted : ∃ a k, draft =
    decl.features.foldl (ms.siteOf c).addFeature { attributeCount := a, methodCount := k }
  of?_eq : ms.of? c = some (ms.membersOf c draft)
  reported : draft.reports ⊆ reports

/-! ## Adding classes -/

theorem isSome_of?_iff {ms : Members} {c : Name} :
    (ms.of? c).isSome = true ↔ c ∈ ms.classes.map (·.cls) := by
  simp [of?, List.find?_isSome]

theorem of?_eq_none {ms : Members} {c : Name} (hc : c ∉ ms.classes.map (·.cls)) :
    ms.of? c = none := by
  rw [← Option.not_isSome_iff_eq_none, isSome_of?_iff]
  exact hc

/-- What is known while classes are added: those done so far are complete. -/
structure Adding (h : Hierarchy) (done : List Name) (state : Members × List (Report Problem)) :
    Prop where
  hierarchy : state.1.hierarchy = h
  classes : state.1.classes.map (·.cls) = done
  parents : ∀ c ∈ done, ∀ p, h.parent? c = some p → p ∈ done
  added : ∀ c ∈ done, ∃ decl draft, Added state.1 state.2 c decl draft
  sources : ∀ r ∈ state.2, ∃ c ∈ done, ∃ decl draft,
    Added state.1 state.2 c decl draft ∧ r ∈ draft.reports

/-- The site of a class stays as it is where the members of its parent do. -/
theorem siteOf_congr {ms ms' : Members} {c : Name} (hh : ms'.hierarchy = ms.hierarchy)
    (hof : ∀ p, ms.hierarchy.parent? c = some p → ms'.of? p = ms.of? p) :
    ms'.siteOf c = ms.siteOf c := by
  unfold siteOf
  rw [hh]
  cases hp : ms.hierarchy.parent? c with
  | none => rfl
  | some p => simp [hof p hp]

theorem Added.congr {ms ms' : Members} {reports reports' : List (Report Problem)} {c : Name}
    {decl : ClassDecl} {draft : Draft} (hc : Added ms reports c decl draft)
    (hh : ms'.hierarchy = ms.hierarchy)
    (hof : ∀ p, ms.hierarchy.parent? c = some p → ms'.of? p = ms.of? p)
    (hofc : ms'.of? c = ms.of? c) (hreports : reports ⊆ reports') :
    Added ms' reports' c decl draft := by
  have hsite := siteOf_congr hh hof
  refine ⟨hh ▸ hc.declared, hsite ▸ hc.drafted, ?_, fun r hr => hreports (hc.reported hr)⟩
  rw [hofc, hc.of?_eq]
  simp only [membersOf, inherited, hsite]

/-- What adding a class does, in terms of its site and its draft. -/
theorem addClass_eq {ms : Members} {reports : List (Report Problem)} {c : Name} {decl : ClassDecl}
    (hdecl : ms.hierarchy.decl? c = some decl) {draft : Draft}
    (hdraft : decl.features.foldl (ms.siteOf c).addFeature
      { attributeCount := ms.attributeCount, methodCount := ms.methodCount } = draft) :
    addClass (ms, reports) c =
      (⟨ms.hierarchy, ms.classes ++ [ms.membersOf c draft], draft.attributeCount,
        draft.methodCount⟩, reports ++ draft.reports) := by
  subst hdraft
  simp only [addClass, hdecl]
  rfl

theorem Adding.addClass {h : Hierarchy} {done : List Name}
    {state : Members × List (Report Problem)} (ha : Adding h done state) {c : Name}
    (hc : c ∈ h.names) (hnew : c ∉ done) (hparent : ∀ p, h.parent? c = some p → p ∈ done) :
    Adding h (done ++ [c]) (addClass state c) := by
  obtain ⟨ms, reports⟩ := state
  obtain ⟨hh, hclasses, hparents, hadded, hsources⟩ := ha
  dsimp only at hh hclasses hadded hsources
  subst hh
  cases hd : ms.hierarchy.decl? c with
  | none =>
      have hhas := Hierarchy.has_iff.mpr hc
      simp only [Hierarchy.decl?, Option.map_eq_none_iff] at hd
      simp [Hierarchy.has, hd] at hhas
  | some decl =>
      generalize hdraft : decl.features.foldl (ms.siteOf c).addFeature
        { attributeCount := ms.attributeCount, methodCount := ms.methodCount } = draft
      rw [addClass_eq hd hdraft]
      generalize hms : Members.mk ms.hierarchy (ms.classes ++ _) _ _ = ms'
      -- the classes done so far keep their members, and the new one is found at the end
      have hof : ∀ d ∈ done, ms'.of? d = ms.of? d := by
        intro d hdone
        obtain ⟨_, _, had⟩ := hadded d hdone
        rw [← hms]
        exact (List.find?_append).trans
          (by simp [show ms.classes.find? _ = _ from had.of?_eq, had.of?_eq])
      have hkeep : ∀ d ∈ done, ∀ decl' draft', Added ms reports d decl' draft' →
          Added ms' (reports ++ draft.reports) d decl' draft' := by
        intro d hmem decl' draft' had
        exact had.congr (hms ▸ rfl) (fun p hp => hof p (hparents d hmem p hp)) (hof d hmem)
          (List.subset_append_left _ _)
      have hlast : Added ms' (reports ++ draft.reports) c decl draft := by
        have hnone : ms.classes.find? (·.cls = c) = none := of?_eq_none (hclasses ▸ hnew)
        have hsite : ms'.siteOf c = ms.siteOf c :=
          siteOf_congr (hms ▸ rfl) fun p hp => hof p (hparent p hp)
        refine ⟨hms ▸ hd, ⟨ms.attributeCount, ms.methodCount, ?_⟩, ?_,
          List.subset_append_right _ _⟩
        · rw [hsite, ← hdraft]
        · have hsame : ms'.membersOf c draft = ms.membersOf c draft := by
            simp only [membersOf, inherited, hsite]
          rw [hsame, ← hms]
          refine List.find?_append.trans ?_
          rw [hnone]
          simp [membersOf]
      refine ⟨hms ▸ rfl, by simp [← hms, hclasses, membersOf], ?_, ?_, ?_⟩
      · intro d hmem p hp
        refine List.mem_append_left _ ?_
        rcases List.mem_append.mp hmem with hmem | hmem
        · exact hparents d hmem p hp
        · exact hparent p (List.mem_singleton.mp hmem ▸ hp)
      · intro d hmem
        rcases List.mem_append.mp hmem with hmem | hmem
        · obtain ⟨decl', draft', had⟩ := hadded d hmem
          exact ⟨decl', draft', hkeep d hmem decl' draft' had⟩
        · rw [List.mem_singleton.mp hmem]
          exact ⟨decl, draft, hlast⟩
      · intro r hr
        rcases List.mem_append.mp hr with hr | hr
        · obtain ⟨d, hmem, decl', draft', had, hin⟩ := hsources r hr
          exact ⟨d, List.mem_append_left _ hmem, decl', draft', hkeep d hmem decl' draft' had, hin⟩
        · exact ⟨c, by simp, decl, draft, hlast, hr⟩

/-- Adding classes of which each comes after its parent completes all of them, and keeps what adding
one new class keeps. -/
theorem Adding.foldl {h : Hierarchy} {P : Members × List (Report Problem) → Prop}
    (step : ∀ {done state c}, Adding h done state → c ∉ done → P state →
      P (Members.addClass state c))
    {done rest : List Name} {state : Members × List (Report Problem)} (ha : Adding h done state)
    (hstate : P state) (hmem : ∀ c ∈ rest, c ∈ h.names) (hnodup : (done ++ rest).Nodup)
    (hfirst : h.ParentsFirst (done ++ rest)) :
    Adding h (done ++ rest) (rest.foldl Members.addClass state) ∧
      P (rest.foldl Members.addClass state) := by
  induction rest generalizing done state with
  | nil => simpa using ⟨ha, hstate⟩
  | cons c rest ih =>
      obtain ⟨hc, hrest⟩ := List.forall_mem_cons.mp hmem
      have hnew : c ∉ done := fun hin =>
        (List.nodup_append.mp hnodup).2.2 c hin c List.mem_cons_self rfl
      have hadding := ha.addClass hc hnew (hfirst done c rest rfl)
      have heq : done ++ c :: rest = done ++ [c] ++ rest := by simp
      rw [heq] at hnodup hfirst ⊢
      exact ih hadding (step ha hnew hstate) hrest hnodup hfirst

/-! ## Parents first -/

/-- The members after classes were added one after the other, each whatever is known of its
parent. -/
def addAll (h : Hierarchy) (order : List Name) : Members × List (Report Problem) :=
  order.foldl addClass ({ hierarchy := h }, [])

theorem addAll_append_singleton (h : Hierarchy) (order : List Name) (c : Name) :
    addAll h (order ++ [c]) = addClass (addAll h order) c := by
  simp [addAll]

theorem addAll_induction {h : Hierarchy} {P : Members × List (Report Problem) → Prop}
    {order : List Name} (hsub : ∀ c ∈ order, c ∈ h.names) (hnodup : order.Nodup)
    (hfirst : h.ParentsFirst order) (start : P ({ hierarchy := h }, []))
    (step : ∀ {done state c}, Adding h done state → c ∉ done → P state → P (addClass state c)) :
    Adding h order (addAll h order) ∧ P (addAll h order) :=
  have hempty : Adding h [] ({ hierarchy := h }, []) := ⟨rfl, rfl, by simp, by simp, by simp⟩
  hempty.foldl step start hsub hnodup hfirst

theorem adding_addAll {h : Hierarchy} (hr : h.Rooted) {s : Hierarchy.Visit} {pending : List Name}
    (hs : s.Orderly h pending) : Adding h s.order (addAll h s.order) := by
  refine (addAll_induction (P := fun _ => True) hs.sub hs.nodup (fun before c after heq p hp => ?_)
    trivial fun _ _ _ => trivial).1
  exact hs.parents before c after heq (Hierarchy.not_onCycle hr c) p hp (hr.parent_mem hp)

/-- Adding a class behind its parent adds the classes that a visit puts in order. The classes whose
visit is going on lie below the class, so none of them is added on the way. -/
theorem addBehindParent_eq {h : Hierarchy} (hr : h.Rooted) {fuel : Nat} {pending : List Name}
    {s : Hierarchy.Visit} {c : Name} (hs : s.Orderly h pending) (hnodup : pending.Nodup)
    (hsub : pending ⊆ h.names) (hc : c ∈ h.names)
    (hpending : ∀ d ∈ pending, Relation.TransGen (fun c p => h.parent? c = some p) d c)
    (hfuel : h.size + 1 ≤ pending.length + fuel) :
    addBehindParent fuel (addAll h s.order) c = addAll h (h.visit fuel s c).order := by
  induction fuel generalizing pending s c with
  | zero =>
      have hlen := (hnodup.subperm hsub).length_le
      simp only [Hierarchy.names, List.length_map] at hlen
      simp only [Hierarchy.size] at hfuel
      omega
  | succ fuel ih =>
      have ha := adding_addAll hr hs
      have hdone : ∀ d, ((addAll h s.order).1.of? d).isSome = true ↔ d ∈ s.order := fun d => by
        rw [isSome_of?_iff, ha.classes]
      have hnot : c ∉ pending := fun hin => Hierarchy.not_onCycle hr c (hpending c hin)
      rw [addBehindParent, Hierarchy.visit, ha.hierarchy]
      by_cases hmet : c ∈ s.met
      -- the class was added, and its parent before it
      · have hin : c ∈ s.order := ((hs.met_iff c).mp hmet).resolve_right hnot
        rw [if_pos hmet]
        cases hp : h.parent? c with
        | none => simp only [hdone, hin, if_true]
        | some p => simp only [hdone, ha.parents c hin p hp, hin, if_true]
      · have hout : c ∉ s.order := fun hin => hmet ((hs.met_iff c).mpr (.inl hin))
        rw [if_neg hmet]
        cases hp : h.parent? c with
        | none =>
            simp only [hdone, hout, if_false]
            exact (addAll_append_singleton h s.order c).symm
        | some p =>
            have hpmem := hr.parent_mem hp
            have hmark := hs.mark hmet
            have hbelow : ∀ d ∈ c :: pending,
                Relation.TransGen (fun c p => h.parent? c = some p) d p :=
              List.forall_mem_cons.mpr ⟨.single hp, fun d hd => (hpending d hd).tail hp⟩
            have hnodup' : (c :: pending).Nodup := List.nodup_cons.mpr ⟨hnot, hnodup⟩
            have hsub' : c :: pending ⊆ h.names := List.cons_subset.mpr ⟨hc, hsub⟩
            have hfuel' : h.size + 1 ≤ (c :: pending).length + fuel := by
              rw [List.length_cons]
              omega
            have hvisits := Hierarchy.visits_visit hnodup' hsub'
              (fun d hd => (hmark.met_iff d).mpr (.inr hd)) hpmem hfuel'
            have hup := (hvisits.orderly hmark hpmem hbelow).1
            -- where the parent was added already, its visit leaves everything as it is
            have hparent : (if ((addAll h s.order).1.of? p).isSome then addAll h s.order
                else addBehindParent fuel (addAll h s.order) p) =
                addAll h (h.visit fuel ⟨c :: s.met, s.order⟩ p).order := by
              split
              · rename_i hsome
                rw [Hierarchy.visit_of_met]
                exact List.mem_cons_of_mem _ ((hs.met_iff p).mpr (.inl ((hdone p).mp hsome)))
              · exact ih hmark hnodup' hsub' hpmem hbelow hfuel'
            have hlast : c ∉ (h.visit fuel ⟨c :: s.met, s.order⟩ p).order :=
              hup.apart c List.mem_cons_self
            simp only [hparent, Hierarchy.has_iff.mpr hpmem, if_true]
            rw [if_neg, ← addAll_append_singleton]
            rw [isSome_of?_iff, (adding_addAll hr hup).classes]
            exact hlast

/-- Classes are added in the topological order. -/
theorem foldl_addBehindParent {h : Hierarchy} (hr : h.Rooted) :
    h.names.foldl (addBehindParent (h.size + 1)) ({ hierarchy := h }, []) =
      addAll h h.topological := by
  have hfold : ∀ {cs : List Name} {s : Hierarchy.Visit}, cs ⊆ h.names → s.Orderly h [] →
      cs.foldl (addBehindParent (h.size + 1)) (addAll h s.order) =
        addAll h (cs.foldl (h.visit (h.size + 1)) s).order := by
    intro cs
    induction cs with
    | nil => exact fun _ _ => rfl
    | cons c cs ih =>
        intro s hcs hs
        obtain ⟨hc, hrest⟩ := List.cons_subset.mp hcs
        have hvisits : h.Visits s c (h.visit (h.size + 1) s c) :=
          Hierarchy.visits_visit List.nodup_nil (List.nil_subset _) (List.nil_subset _) hc (by simp)
        rw [List.foldl_cons, List.foldl_cons, addBehindParent_eq hr hs List.nodup_nil
          (List.nil_subset _) hc (by simp) (by simp)]
        exact ih hrest (hvisits.orderly hs hc (by simp)).1
  exact hfold (List.Subset.refl _) (.empty h)

/-! ## Members without reports -/

/-- The members of a tree of classes whose features were all accepted. -/
structure Coherent (ms : Members) : Prop where
  rooted : ms.hierarchy.Rooted
  resolved : ∀ c ∈ ms.hierarchy.names, ∃ decl draft, ms.hierarchy.decl? c = some decl ∧
    (ms.siteOf c).Accepted decl.features draft ∧ ms.of? c = some (ms.membersOf c draft)

theorem valid_of_build {h : Hierarchy} {ms : Members} {reports : List (Report Problem)}
    (hb : build h = .ok (ms, reports)) : h.valid = true := by
  by_contra hv
  rw [build, if_neg hv] at hb
  cases hb

theorem build_eq_ok {h : Hierarchy} (hv : h.valid = true)
    (hr : (h.names.foldl (addBehindParent (h.size + 1)) ({ hierarchy := h }, [])).2 = []) :
    build h =
      .ok ((h.names.foldl (addBehindParent (h.size + 1)) ({ hierarchy := h }, [])).1, []) := by
  rw [build, if_pos hv]
  exact congrArg Except.ok (Prod.ext rfl hr)

/-- Members that were built are complete and have what adding one new class keeps, whatever was
reported. -/
theorem build_induction {h : Hierarchy} {ms : Members} {reports : List (Report Problem)}
    {P : Members × List (Report Problem) → Prop} (hr : h.Rooted)
    (hb : build h = .ok (ms, reports)) (start : P ({ hierarchy := h }, []))
    (step : ∀ {done state c}, Adding h done state → c ∉ done → P state → P (addClass state c)) :
    Adding h h.topological (ms, reports) ∧ P (ms, reports) := by
  rw [build, if_pos (valid_of_build hb), foldl_addBehindParent hr] at hb
  rw [← Except.ok.inj hb]
  exact addAll_induction (fun c hc => (Hierarchy.mem_topological hr).mp hc)
    (Hierarchy.topological_nodup hr) (Hierarchy.topological_parentsFirst hr) start step

theorem adding_of_build {h : Hierarchy} {ms : Members} {reports : List (Report Problem)}
    (hr : h.Rooted) (hb : build h = .ok (ms, reports)) : Adding h h.topological (ms, reports) :=
  (build_induction (P := fun _ => True) hr hb trivial fun _ _ _ => trivial).1

theorem hierarchy_of_build {h : Hierarchy} {ms : Members} {reports : List (Report Problem)}
    (hr : h.Rooted) (hb : build h = .ok (ms, reports)) : ms.hierarchy = h :=
  (adding_of_build hr hb).hierarchy

theorem parent_not_primitive_of_build {p : Program} {ms : Members}
    {reports : List (Report Problem)} (hb : build (Hierarchy.build p).1 = .ok (ms, reports))
    {c q : Name} (hq : ms.hierarchy.parent? c = some q) : q.isPrimitive = false := by
  have hv := valid_of_build hb
  rw [hierarchy_of_build (Hierarchy.rooted_of_valid hv) hb] at hq
  exact Hierarchy.parent_not_primitive hv hq

theorem coherent_of_build {h : Hierarchy} {ms : Members} (hr : h.Rooted)
    (hb : build h = .ok (ms, [])) : ms.Coherent ∧ ms.hierarchy = h := by
  obtain ⟨hh, -, -, hadded, -⟩ := adding_of_build hr hb
  dsimp only at hh hadded
  refine ⟨⟨hh ▸ hr, ?_⟩, hh⟩
  intro c hc
  rw [hh] at hc
  obtain ⟨decl, draft, had⟩ := hadded c ((Hierarchy.mem_topological hr).mpr hc)
  obtain ⟨a, k, hdraft⟩ := had.drafted
  have hnone : draft.reports = [] := List.subset_nil.mp had.reported
  rw [hdraft] at hnone
  have hstart : (ms.siteOf c).Accepted [] { attributeCount := a, methodCount := k } :=
    ⟨.nil, List.nodup_nil, .nil, List.nodup_nil⟩
  have haccepted := Site.foldl_addFeature_accepted hstart hnone
  exact ⟨decl, draft, had.declared, hdraft ▸ haccepted, had.of?_eq⟩

end Cool.Members
