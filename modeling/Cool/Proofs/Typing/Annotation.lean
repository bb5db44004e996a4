import Cool.Proofs.Document.Written
import Cool.Proofs.Members.Declarations
import Cool.Proofs.Scope
import Cool.Proofs.Tree.Occurrences
import Cool.Proofs.Typing.Halting
import Cool.Proofs.Typing.Program

/-! Annotation is total and honest. Checking gives every expression a type, except in the branches
that it skips, and where nothing is reported no expression has the type of ill-typed ones. Both
follow from types that never come up: if a name is no class and stands in no declaration, then no
rule makes it the type of an expression. -/

namespace Cool

/-! ## Members that avoid a type -/

/-- Whether a feature is declared without a certain type. -/
def Feature.Avoids (bad : Name) : Feature → Prop
  | .method m => m.result ≠ bad ∧ ∀ f ∈ m.formals, f.type ≠ bad
  | .attr a => a.type ≠ bad

namespace Members

/-- Whether members do without a certain type. -/
structure Avoid (bad : Name) (attributes : List AttributeEntry) (methods : List MethodEntry) :
    Prop where
  attributes : ∀ a ∈ attributes, a.type ≠ bad
  methods : ∀ m ∈ methods, m.result ≠ bad

variable {bad : Name}

theorem Avoid.addFeature {site : Site} {draft : Draft}
    (h : Avoid bad draft.attributes draft.methods) {f : Feature} (hf : f.Avoids bad) :
    Avoid bad (site.addFeature draft f).attributes (site.addFeature draft f).methods := by
  cases f with
  | attr a =>
      rw [Site.addFeature, Site.addAttribute]
      split
      · exact h
      · exact ⟨List.forall_mem_append.mpr ⟨h.attributes, List.forall_mem_singleton.mpr hf⟩,
          h.methods⟩
  | method m =>
      have hadded : ∀ e : MethodEntry, e.result = m.result →
          ∀ e' ∈ draft.methods ++ [e], e'.result ≠ bad := fun e he =>
        List.forall_mem_append.mpr ⟨h.methods, List.forall_mem_singleton.mpr (he ▸ hf.1)⟩
      rw [Site.addFeature, Site.addMethod]
      split
      · exact h
      · dsimp only
        split
        · split
          · exact ⟨h.attributes, hadded _ rfl⟩
          · rw [Site.override]
            dsimp only
            split
            · exact ⟨h.attributes, hadded _ rfl⟩
            · exact h
        · exact h

theorem Avoid.foldl {site : Site} {draft : Draft} (h : Avoid bad draft.attributes draft.methods)
    {features : List Feature} (hfs : ∀ f ∈ features, f.Avoids bad) :
    Avoid bad (features.foldl site.addFeature draft).attributes
      (features.foldl site.addFeature draft).methods := by
  induction features generalizing draft with
  | nil => exact h
  | cons f features ih =>
      obtain ⟨hf, hfs⟩ := List.forall_mem_cons.mp hfs
      exact ih (h.addFeature hf) hfs

theorem avoid_allMethods {inherited own : List MethodEntry}
    (hinherited : ∀ m ∈ inherited, m.result ≠ bad) (hown : ∀ m ∈ own, m.result ≠ bad) :
    ∀ m ∈ Site.allMethods inherited own, m.result ≠ bad := by
  intro m hm
  rcases Site.mem_allMethods hm with hm | ⟨i, hi, rfl⟩
  · exact hown m hm
  · exact hinherited i hi

/-- Whether the members of all classes do without a certain type. -/
def Avoids (ms : Members) (bad : Name) : Prop :=
  ∀ own ∈ ms.classes, Avoid bad own.attributes own.methods

theorem Avoids.addClass {ms : Members} (h : ms.Avoids bad) {reports : List (Report Problem)}
    {c : Name}
    (hdecl : ∀ decl, ms.hierarchy.decl? c = some decl → ∀ f ∈ decl.features, f.Avoids bad) :
    (addClass (ms, reports) c).1.Avoids bad := by
  have hnothing : Avoid bad [] [] := ⟨by simp, by simp⟩
  have hof : ∀ p, Avoid bad ((ms.of? p).getD { cls := p }).attributes
      ((ms.of? p).getD { cls := p }).methods := by
    intro p
    cases hown : ms.of? p with
    | none => exact hnothing
    | some own => exact h own (List.mem_of_find?_eq_some hown)
  rw [Members.addClass]
  dsimp only
  split
  · exact h
  · rename_i decl hd
    refine List.forall_mem_append.mpr ⟨h, List.forall_mem_singleton.mpr ?_⟩
    have hdraft : ∀ (site : Site) (a k : Nat),
        let draft := decl.features.foldl site.addFeature { attributeCount := a, methodCount := k }
        Avoid bad draft.attributes draft.methods :=
      fun site a k => Avoid.foldl hnothing (hdecl decl hd)
    have hinherited : Avoid bad
        (((ms.hierarchy.parent? c).map fun p => (ms.of? p).getD { cls := p }).getD
          { cls := c }).attributes
        (((ms.hierarchy.parent? c).map fun p => (ms.of? p).getD { cls := p }).getD
          { cls := c }).methods := by
      cases ms.hierarchy.parent? c with
      | none => exact hnothing
      | some p => exact hof p
    exact ⟨List.forall_mem_append.mpr ⟨hinherited.attributes, (hdraft _ _ _).attributes⟩,
      avoid_allMethods hinherited.methods (hdraft _ _ _).methods⟩

/-- Members do without a type that no declaration mentions, whatever is reported about them. -/
theorem avoids_of_build {h : Hierarchy} {ms : Members} {reports : List (Report Problem)}
    (hr : h.Rooted) (hb : build h = .ok (ms, reports))
    (hdecl : ∀ c decl, h.decl? c = some decl → ∀ f ∈ decl.features, f.Avoids bad) :
    ms.Avoids bad :=
  (build_induction (P := fun state => state.1.Avoids bad) hr hb (by simp [Avoids])
    fun hadding _ havoids => havoids.addClass fun decl hd =>
      hdecl _ decl (hadding.hierarchy ▸ hd)).2

end Members

namespace Typing

variable {α β : Type} {cx : Context} {bad : Name}

/-! ## Types that never come up -/

/-- Whether no variable of a scope has a certain type. -/
def ScopeAvoids (scope : Scope Name Name) (bad : Name) : Prop :=
  ∀ x t, scope.lookup x = some t → t ≠ bad

namespace Context

/-- Whether a name is no class and no type that the language has of itself, and stands in no
declaration of a member. -/
structure Avoids (cx : Context) (bad : Name) : Prop where
  rooted : cx.hierarchy.Rooted
  names : bad ∉ cx.hierarchy.names
  builtin : bad.isBuiltin = false
  special : Name.selfType ≠ bad ∧ Name.noType ≠ bad
  members : cx.members.Avoids bad

namespace Avoids

variable (hcx : cx.Avoids bad)

include hcx

theorem of_builtin {t : Name} (ht : t.isBuiltin = true) : t ≠ bad := by
  rintro rfl
  exact Bool.false_ne_true (hcx.builtin.symm.trans ht)

theorem of_has {t : Name} (ht : cx.hierarchy.has t = true) : t ≠ bad := by
  rintro rfl
  exact hcx.names (Hierarchy.has_iff.mp ht)

theorem of_typeDefined {t : Name} (ht : cx.members.typeDefined t = true) : t ≠ bad := by
  rcases (Bool.or_eq_true _ _).mp ht with ht | ht
  · rw [of_decide_eq_true ht]
    exact hcx.special.1
  · exact hcx.of_has ht

theorem joinWithin {a : Name} (fuel : Nat) {b : Name} (hb : b ≠ bad) :
    cx.hierarchy.joinWithin a fuel b ≠ bad := by
  induction fuel generalizing b with
  | zero => exact hcx.of_builtin rfl
  | succ fuel ih =>
      rw [Hierarchy.joinWithin]
      split
      · exact hb
      · split
        · exact hcx.of_builtin rfl
        · rename_i p hp
          refine ih ?_
          rintro rfl
          exact hcx.names (hcx.rooted.parent_mem hp)

/-- A join is one of the types or above one. -/
theorem join {t u : Name} (ht : t ≠ bad) (hu : u ≠ bad) : cx.join t u ≠ bad := by
  rw [Context.join, Hierarchy.join]
  split
  · exact hu
  · split
    · exact ht
    · split
      · split
        · exact hcx.special.1
        · exact hcx.joinWithin _ hu
      · split
        · exact hcx.joinWithin _ ht
        · exact hcx.joinWithin _ hu

theorem joinAfter {before : Option Name} (hbefore : ∀ u ∈ before, u ≠ bad) {t : Name}
    (ht : t ≠ bad) : cx.joinAfter before t ≠ bad := by
  cases before with
  | none => exact ht
  | some u => exact hcx.join (hbefore u rfl) ht

theorem callType {c x : Name} {m : MethodEntry} (hm : cx.method? c x = some m) {t : Name}
    (ht : t ≠ bad) : Context.callType m t ≠ bad := by
  rw [Context.callType]
  split
  · exact ht
  · have hmem := List.mem_of_find?_eq_some hm
    rw [Members.methods] at hmem
    split at hmem
    · rename_i own hown
      exact (hcx.members own (List.mem_of_find?_eq_some hown)).methods m hmem
    · cases hmem

theorem caseType {t : Option Name} (ht : ∀ u ∈ t, u ≠ bad) : t.getD .noType ≠ bad := by
  cases t with
  | none => exact hcx.special.2
  | some u => exact ht u rfl

theorem lastType {rs : List (Expr × Name)} (hrs : ∀ r ∈ rs, r.2 ≠ bad) : lastType rs ≠ bad := by
  unfold Typing.lastType
  split
  · rename_i hlast
    exact hrs _ (List.mem_of_getLast? hlast)
  · exact hcx.of_builtin rfl

theorem binaryType (op : BinaryOp) : Context.binaryType op ≠ bad := by
  unfold Context.binaryType
  split <;> exact hcx.of_builtin rfl

theorem unaryType (op : UnaryOp) : Context.unaryType op ≠ bad := by
  unfold Context.unaryType
  split <;> exact hcx.of_builtin rfl

end Avoids

end Context

theorem ScopeAvoids.bind {scope : Scope Name Name} (h : ScopeAvoids scope bad) (x : Name) {t : Name}
    (ht : t ≠ bad) : ScopeAvoids (Context.bind scope x t) bad := by
  intro y u hy
  rw [Context.bind] at hy
  split at hy
  · exact h y u hy
  · rw [Scope.lookup_enterWith_singleton] at hy
    split at hy
    · exact Option.some.inj hy ▸ ht
    · exact h y u hy

theorem ScopeAvoids.enterWith {scope : Scope Name Name} (h : ScopeAvoids scope bad)
    {bs : List (Name × Name)} (hbs : ∀ b ∈ bs, b.2 ≠ bad) :
    ScopeAvoids (scope.enterWith bs) bad := by
  intro x t hx
  rcases Scope.mem_of_lookup_enterWith hx with hmem | hx
  · exact hbs _ hmem
  · exact h x t hx

/-! ## Accepted expressions -/

mutual

/-- In what is accepted no expression has a type that never comes up. -/
theorem Accepts.avoids (hcx : cx.Avoids bad) : ∀ {scope : Scope Name Name} {e : Expr}
    {r : Expr × Name}, Accepts cx scope e r → ScopeAvoids scope bad →
    r.2 ≠ bad ∧ ∀ s, ∀ q ∈ r.1.occurrences s, q.1.type ≠ bad
  | _, _, _, .missing, _ => by
      refine ⟨hcx.special.2, fun s => ?_⟩
      rw [Expr.occurrences]
      simp
  | _, _, _, .noExpr, _ => by
      refine ⟨hcx.special.2, fun s => ?_⟩
      rw [Expr.occurrences]
      exact List.forall_mem_singleton.mpr hcx.special.2
  | _, _, _, .block hbody, hΓ => by
      obtain ⟨htypes, hbody⟩ := hbody.avoids hcx hΓ
      refine ⟨hcx.lastType htypes, fun s => ?_⟩
      rw [Expr.occurrences]
      exact List.forall_mem_cons.mpr ⟨hcx.lastType htypes, hbody s⟩
  | _, _, _, .assign hvalue _ _ _, hΓ => by
      obtain ⟨ht, hvalue⟩ := hvalue.avoids hcx hΓ
      refine ⟨ht, fun s => ?_⟩
      rw [Expr.occurrences]
      exact List.forall_mem_cons.mpr ⟨ht, hvalue s⟩
  | _, _, _, .dispatchIllTyped hr hargs, hΓ => by
      obtain ⟨ht, hr⟩ := hr.avoids hcx hΓ
      refine ⟨ht, fun s => ?_⟩
      rw [Expr.occurrences, List.forall_mem_cons, List.forall_mem_append]
      exact ⟨ht, hr s, (hargs.avoids hcx hΓ).2 s⟩
  | _, _, _, .dispatch hr hargs _ hm _, hΓ => by
      obtain ⟨ht, hr⟩ := hr.avoids hcx hΓ
      refine ⟨hcx.callType hm ht, fun s => ?_⟩
      rw [Expr.occurrences, List.forall_mem_cons, List.forall_mem_append]
      exact ⟨hcx.callType hm ht, hr s, (hargs.avoids hcx hΓ).2 s⟩
  | _, _, _, .staticDispatch hr hargs _ _ _ hm _, hΓ => by
      obtain ⟨ht, hr⟩ := hr.avoids hcx hΓ
      refine ⟨hcx.callType hm ht, fun s => ?_⟩
      rw [Expr.occurrences, List.forall_mem_cons, List.forall_mem_append]
      exact ⟨hcx.callType hm ht, hr s, (hargs.avoids hcx hΓ).2 s⟩
  | _, _, _, .cond hp _ h₁ h₂, hΓ => by
      obtain ⟨-, hp⟩ := hp.avoids hcx hΓ
      obtain ⟨ht₁, h₁⟩ := h₁.avoids hcx hΓ
      obtain ⟨ht₂, h₂⟩ := h₂.avoids hcx hΓ
      refine ⟨hcx.join ht₁ ht₂, fun s => ?_⟩
      rw [Expr.occurrences, List.forall_mem_cons, List.forall_mem_append, List.forall_mem_append]
      exact ⟨hcx.join ht₁ ht₂, ⟨hp s, h₁ s⟩, h₂ s⟩
  | _, _, _, .loop hp _ hbody, hΓ => by
      refine ⟨hcx.of_builtin rfl, fun s => ?_⟩
      rw [Expr.occurrences, List.forall_mem_cons, List.forall_mem_append]
      exact ⟨hcx.of_builtin rfl, (hp.avoids hcx hΓ).2 s, (hbody.avoids hcx hΓ).2 s⟩
  | _, _, _, .caseOf hs hbs, hΓ => by
      obtain ⟨hu, hbs⟩ := hbs.avoids hcx hΓ (by simp)
      refine ⟨hcx.caseType hu, fun s => ?_⟩
      rw [Expr.occurrences, List.forall_mem_cons, List.forall_mem_append]
      exact ⟨hcx.caseType hu, (hs.avoids hcx hΓ).2 s, hbs s []⟩
  | _, _, _, .letIn hinit hfit hbody, hΓ => by
      obtain ⟨ht, hbody⟩ := hbody.avoids hcx (hΓ.bind _ (hcx.of_typeDefined hfit.1))
      refine ⟨ht, fun s => ?_⟩
      rw [Expr.occurrences, List.forall_mem_cons, List.forall_mem_append]
      exact ⟨ht, (hinit.avoids hcx hΓ).2 s, hbody s⟩
  | _, _, _, .binary hl hr _, hΓ => by
      refine ⟨hcx.binaryType _, fun s => ?_⟩
      rw [Expr.occurrences, List.forall_mem_cons, List.forall_mem_append]
      exact ⟨hcx.binaryType _, (hl.avoids hcx hΓ).2 s, (hr.avoids hcx hΓ).2 s⟩
  | _, _, _, .unary ho _, hΓ => by
      refine ⟨hcx.unaryType _, fun s => ?_⟩
      rw [Expr.occurrences]
      exact List.forall_mem_cons.mpr ⟨hcx.unaryType _, (ho.avoids hcx hΓ).2 s⟩
  | _, _, _, .int, _ | _, _, _, .string, _ | _, _, _, .bool, _ => by
      refine ⟨hcx.of_builtin rfl, fun s => ?_⟩
      rw [Expr.occurrences]
      exact List.forall_mem_singleton.mpr (hcx.of_builtin rfl)
  | _, _, _, .new htype, _ => by
      have ht : _ ≠ bad := htype.elim (fun h => h ▸ hcx.special.1) hcx.of_has
      refine ⟨ht, fun s => ?_⟩
      rw [Expr.occurrences]
      exact List.forall_mem_singleton.mpr ht
  | _, _, _, .object hx, hΓ => by
      refine ⟨hΓ _ _ hx, fun s => ?_⟩
      rw [Expr.occurrences]
      exact List.forall_mem_singleton.mpr (hΓ _ _ hx)

theorem AcceptsAll.avoids (hcx : cx.Avoids bad) : ∀ {scope : Scope Name Name} {es : List Expr}
    {rs : List (Expr × Name)}, AcceptsAll cx scope es rs → ScopeAvoids scope bad →
    (∀ r ∈ rs, r.2 ≠ bad) ∧
      ∀ s, ∀ q ∈ Expr.occurrencesAll s (rs.map (·.1)), q.1.type ≠ bad
  | _, _, _, .nil, _ => by
      refine ⟨by simp, fun s => ?_⟩
      rw [List.map_nil, Expr.occurrencesAll]
      simp
  | _, _, _, .cons he hes, hΓ => by
      obtain ⟨ht, he⟩ := he.avoids hcx hΓ
      obtain ⟨hts, hes⟩ := hes.avoids hcx hΓ
      refine ⟨List.forall_mem_cons.mpr ⟨ht, hts⟩, fun s => ?_⟩
      rw [List.map_cons, Expr.occurrencesAll]
      exact List.forall_mem_append.mpr ⟨he s, hes s⟩

theorem AcceptsBranches.avoids (hcx : cx.Avoids bad) : ∀ {scope : Scope Name Name}
    {guards : List Name} {before : Option Name} {bs : List Branch} {r : List Branch × Option Name},
    AcceptsBranches cx scope guards before bs r → ScopeAvoids scope bad →
    (∀ t ∈ before, t ≠ bad) →
    (∀ t ∈ r.2, t ≠ bad) ∧
      ∀ s guards', ∀ q ∈ Branch.occurrencesAll s guards' r.1, q.1.type ≠ bad
  | _, _, _, _, _, .nil, _, hbefore => by
      refine ⟨hbefore, fun s guards' => ?_⟩
      rw [Branch.occurrencesAll]
      simp
  | _, _, _, _, _, .cons _ hfit hbody hrest, hΓ, hbefore => by
      obtain ⟨ht, hbody⟩ := hbody.avoids hcx (hΓ.bind _ (hcx.of_has hfit.2.1))
      obtain ⟨hts, hrest⟩ := hrest.avoids hcx hΓ (by simpa using hcx.joinAfter hbefore ht)
      refine ⟨hts, fun s guards' => ?_⟩
      rw [Branch.occurrencesAll]
      exact List.forall_mem_append.mpr ⟨hbody _, hrest s _⟩

end

/-! ## Runs that go on -/

/-- A run that does not halt and returns values with a property. -/
def Running (x : Recording α) (P : α → Prop) : Prop :=
  ∀ j : Journal, j.halted = false → (x.run j).2.halted = false ∧ P (x.run j).1

namespace Running

theorem of_steady {x : Recording α} {P : α → Prop} (hx : Steady x P) : Running x P :=
  fun j hj => ⟨(hx j).1.trans hj, (hx j).2⟩

theorem pure {a : α} {P : α → Prop} (ha : P a) : Running (pure a) P :=
  fun _ hj => ⟨hj, ha⟩

theorem bind {x : Recording α} {f : α → Recording β} {P : α → Prop} {Q : β → Prop}
    (hx : Running x P) (hf : ∀ a, P a → Running (f a) Q) : Running (x >>= f) Q := by
  intro j hj
  obtain ⟨hj', hp⟩ := hx j hj
  exact hf _ hp (x.run j).2 hj'

theorem typed {m : Mark} {t : Name} {form : Mark → Expr} {P : Expr × Name → Prop}
    (hp : P (form { m with type := t }, t)) : Running (typed m t form) P := by
  intro j hj
  rw [typed_run]
  refine ⟨hj, ?_⟩
  rw [hj]
  exact hp

theorem mapM {f : α → Recording β} {P : α → β → Prop} {as : List α}
    (hf : ∀ a ∈ as, Running (f a) (P a)) : Running (as.mapM f) (List.Forall₂ P as) := by
  induction as with
  | nil =>
      rw [List.mapM_nil]
      exact .pure .nil
  | cons a as ih =>
      obtain ⟨ha, hrest⟩ := List.forall_mem_cons.mp hf
      rw [List.mapM_cons]
      exact ha.bind fun _ hb => (ih hrest).bind fun _ hbs => .pure (.cons hb hbs)

end Running

/-! ## Every expression is annotated -/

/-- An expression has no type exactly if it lies in a branch that repeats a guard. -/
def Recorded (q : Expr × Bool) : Prop :=
  q.1.type = .anonymous ↔ q.2 = true

/-- What checking makes of an expression: the same tree with the types filled in. -/
structure Annotates (e : Expr) (r : Expr × Name) : Prop where
  type_ne : r.2 ≠ .anonymous
  present : r.1.span?.isSome = true
  bare : r.1.bare = e.bare
  recorded : ∀ q ∈ r.1.occurrences false, Recorded q

structure AnnotatesAll (es : List Expr) (rs : List (Expr × Name)) : Prop where
  type_ne : ∀ r ∈ rs, r.2 ≠ .anonymous
  present : ∀ r ∈ rs, r.1.span?.isSome = true
  bare : Expr.bareAll (rs.map (·.1)) = Expr.bareAll es
  recorded : ∀ q ∈ Expr.occurrencesAll false (rs.map (·.1)), Recorded q

/-- What checking makes of branches after others with the given guards. -/
structure AnnotatesBranches (guards : List Name) (bs : List Branch)
    (r : List Branch × Option Name) : Prop where
  type_ne : ∀ t ∈ r.2, t ≠ .anonymous
  bare : Branch.bareAll r.1 = Branch.bareAll bs
  recorded : ∀ guards', (∀ g, g ∈ guards' ↔ g ∈ guards) →
    ∀ q ∈ Branch.occurrencesAll false guards' r.1, Recorded q

/-- An expression whose parts are annotated is annotated as soon as it receives a type. -/
theorem Running.annotated {e : Expr} {m : Mark} {t : Name} {form : Mark → Expr}
    {parts : List (Expr × Bool)} (ht : t ≠ .anonymous)
    (hmark : ∀ m, (form m).mark? = some m)
    (hbare : (form { m with type := t }).bare = e.bare)
    (hparts : (form { m with type := t }).occurrences false =
      (form { m with type := t }, false) :: parts)
    (hrecorded : ∀ q ∈ parts, Recorded q) : Running (Typing.typed m t form) (Annotates e) := by
  refine .typed ⟨ht, ?_, hbare, ?_⟩
  · simp [Expr.span?, hmark]
  · rw [hparts]
    refine List.forall_mem_cons.mpr ⟨?_, hrecorded⟩
    simpa [Recorded, Expr.type, hmark] using ht

theorem Running.illTyped {m : Mark} {problem : Problem} {form : Mark → Expr}
    {P : Expr × Name → Prop} (hform : Running (Typing.typed m .errType form) P) :
    Running (Typing.illTyped m problem form) P :=
  (Running.of_steady (Steady.report _ _)).bind fun _ _ => hform

theorem Running.require (condition : Bool) (span : Span) (problem : Problem) :
    Running (Typing.require condition span problem) (fun _ => True) :=
  .of_steady (.require _ _ _)

section

variable {scope : Scope Name Name} {m : Mark}

theorem annotates_assign {name : Name} {value : Expr}
    (hvalue : Running (check cx scope value.bare) (Annotates value)) :
    Running (check cx scope (Expr.assign m name value).bare)
      (Annotates (.assign m name value)) := by
  rw [Expr.bare, check]
  refine hvalue.bind fun r hr => ?_
  have hform : ∀ t, t ≠ .anonymous → Running
      (typed m.bare t fun m => .assign m name.spelled r.1)
      (Annotates (.assign m name value)) := by
    intro t ht
    refine .annotated ht (fun _ => rfl) ?_ (by rw [Expr.occurrences]) hr.recorded
    rw [Expr.bare, Expr.bare, hr.bare]
    rfl
  dsimp only
  split
  · exact .illTyped (hform _ (by decide))
  · split
    · exact .illTyped (hform _ (by decide))
    · split
      · exact hform _ hr.type_ne
      · exact .illTyped (hform _ (by decide))

theorem annotates_dispatch (hcx : cx.Avoids .anonymous) {receiver : Expr} {method : Name}
    {args : List Expr} (hreceiver : Running (check cx scope receiver.bare) (Annotates receiver))
    (hargs : Running (checkAll cx scope (Expr.bareAll args)) (AnnotatesAll args)) :
    Running (check cx scope (Expr.dispatch m receiver method args).bare)
      (Annotates (.dispatch m receiver method args)) := by
  rw [Expr.bare, check]
  refine hreceiver.bind fun r hr => ?_
  refine hargs.bind fun rs hrs => ?_
  have hform : ∀ t, t ≠ .anonymous → Running
      (typed m.bare t fun m => .dispatch m r.1 method.spelled (rs.map (·.1)))
      (Annotates (.dispatch m receiver method args)) := by
    intro t ht
    refine .annotated ht (fun _ => rfl) ?_ (by rw [Expr.occurrences])
      (List.forall_mem_append.mpr ⟨hr.recorded, hrs.recorded⟩)
    rw [Expr.bare, Expr.bare, hr.bare, hrs.bare]
    rfl
  dsimp only
  split
  · exact hform _ (by decide)
  · split
    · exact .illTyped (hform _ (by decide))
    · rename_i entry hentry
      exact (Running.of_steady (cx.steady_checkCall _ _ _ hrs.present)).bind fun _ _ =>
        hform _ (hcx.callType hentry hr.type_ne)

theorem annotates_staticDispatch (hcx : cx.Avoids .anonymous) {receiver : Expr}
    {target method : Name} {args : List Expr}
    (hreceiver : Running (check cx scope receiver.bare) (Annotates receiver))
    (hargs : Running (checkAll cx scope (Expr.bareAll args)) (AnnotatesAll args)) :
    Running (check cx scope (Expr.staticDispatch m receiver target method args).bare)
      (Annotates (.staticDispatch m receiver target method args)) := by
  rw [Expr.bare, check]
  refine hreceiver.bind fun r hr => ?_
  refine hargs.bind fun rs hrs => ?_
  have hform : ∀ t, t ≠ .anonymous → Running
      (typed m.bare t fun m =>
        .staticDispatch m r.1 target.spelled method.spelled (rs.map (·.1)))
      (Annotates (.staticDispatch m receiver target method args)) := by
    intro t ht
    refine .annotated ht (fun _ => rfl) ?_ (by rw [Expr.occurrences])
      (List.forall_mem_append.mpr ⟨hr.recorded, hrs.recorded⟩)
    rw [Expr.bare, Expr.bare, hr.bare, hrs.bare]
    rfl
  dsimp only
  split
  · exact .illTyped (hform _ (by decide))
  · split
    · refine (Running.require _ _ _).bind fun _ _ => ?_
      split
      · exact .illTyped (hform _ (by decide))
      · rename_i entry hentry
        exact (Running.of_steady (cx.steady_checkCall _ _ _ hrs.present)).bind fun _ _ =>
          hform _ (hcx.callType hentry hr.type_ne)
    · exact .illTyped (hform _ (by decide))

end

mutual

/-- Checking a tree that was read annotates all of it but the branches it skips. -/
theorem annotates_check (hcx : cx.Avoids .anonymous) : ∀ (e : Expr) {scope : Scope Name Name},
    ScopeAvoids scope .anonymous → e.isWritten = true →
    Running (check cx scope e.bare) (Annotates e)
  | .missing, _, _, he => by simp [Expr.isWritten] at he
  | .noExpr m, _, _, _ => by
      rw [Expr.bare, check]
      refine .annotated (by decide) (fun _ => rfl) ?_ (by rw [Expr.occurrences]) (by simp)
      rw [Expr.bare, Expr.bare]
      rfl
  | .block m body, scope, hΓ, he => by
      rw [Expr.isWritten] at he
      rw [Expr.bare, check]
      refine (annotates_checkAll hcx body hΓ he).bind fun rs hrs => ?_
      refine .annotated (hcx.lastType hrs.type_ne) (fun _ => rfl) ?_ (by rw [Expr.occurrences])
        hrs.recorded
      rw [Expr.bare, Expr.bare, hrs.bare]
      rfl
  | .assign _ _ value, _, hΓ, he => by
      rw [Expr.isWritten] at he
      exact annotates_assign (annotates_check hcx value hΓ he)
  | .dispatch _ receiver _ args, _, hΓ, he => by
      simp only [Expr.isWritten, Bool.and_eq_true] at he
      exact annotates_dispatch hcx (annotates_check hcx receiver hΓ he.1)
        (annotates_checkAll hcx args hΓ he.2)
  | .staticDispatch _ receiver _ _ args, _, hΓ, he => by
      simp only [Expr.isWritten, Bool.and_eq_true] at he
      exact annotates_staticDispatch hcx (annotates_check hcx receiver hΓ he.1)
        (annotates_checkAll hcx args hΓ he.2)
  | .cond m pred onTrue onFalse, scope, hΓ, he => by
      simp only [Expr.isWritten, Bool.and_eq_true] at he
      rw [Expr.bare, check]
      refine (annotates_check hcx pred hΓ he.1.1).bind fun r hr => ?_
      refine (Running.require _ _ _).bind fun _ _ => ?_
      refine (annotates_check hcx onTrue hΓ he.1.2).bind fun r₁ h₁ => ?_
      refine (annotates_check hcx onFalse hΓ he.2).bind fun r₂ h₂ => ?_
      refine .annotated (hcx.join h₁.type_ne h₂.type_ne) (fun _ => rfl) ?_
        (by rw [Expr.occurrences])
        (List.forall_mem_append.mpr
          ⟨List.forall_mem_append.mpr ⟨hr.recorded, h₁.recorded⟩, h₂.recorded⟩)
      rw [Expr.bare, Expr.bare, hr.bare, h₁.bare, h₂.bare]
      rfl
  | .loop m pred body, scope, hΓ, he => by
      simp only [Expr.isWritten, Bool.and_eq_true] at he
      rw [Expr.bare, check]
      refine (annotates_check hcx pred hΓ he.1).bind fun r hr => ?_
      refine (Running.require _ _ _).bind fun _ _ => ?_
      refine (annotates_check hcx body hΓ he.2).bind fun r₁ h₁ => ?_
      refine .annotated (by decide) (fun _ => rfl) ?_ (by rw [Expr.occurrences])
        (List.forall_mem_append.mpr ⟨hr.recorded, h₁.recorded⟩)
      rw [Expr.bare, Expr.bare, hr.bare, h₁.bare]
      rfl
  | .caseOf m scrutinee branches, scope, hΓ, he => by
      simp only [Expr.isWritten, Bool.and_eq_true] at he
      rw [Expr.bare, check]
      refine (annotates_check hcx scrutinee hΓ he.1).bind fun r hr => ?_
      refine (annotates_checkBranches hcx [] none branches hΓ he.2 (by simp)).bind fun rs hrs => ?_
      refine .annotated (hcx.caseType hrs.type_ne) (fun _ => rfl) ?_ (by rw [Expr.occurrences])
        (List.forall_mem_append.mpr ⟨hr.recorded, hrs.recorded [] fun _ => Iff.rfl⟩)
      rw [Expr.bare, Expr.bare, hr.bare, hrs.bare]
      rfl
  | .letIn m name type init body, scope, hΓ, he => by
      simp only [Expr.isWritten, Bool.and_eq_true] at he
      rw [Expr.bare, check]
      refine (annotates_check hcx init hΓ he.1).bind fun r hr => ?_
      refine (Running.of_steady (cx.steady_checkLet _ _ _ _ _)).bind fun _ _ => ?_
      refine (annotates_check hcx body (hΓ.bind _ type.spelled_ne) he.2).bind fun r₁ h₁ => ?_
      refine .annotated h₁.type_ne (fun _ => rfl) ?_ (by rw [Expr.occurrences])
        (List.forall_mem_append.mpr ⟨hr.recorded, h₁.recorded⟩)
      rw [Expr.bare, Expr.bare, hr.bare, h₁.bare]
      rfl
  | .binary m op left right, scope, hΓ, he => by
      simp only [Expr.isWritten, Bool.and_eq_true] at he
      rw [Expr.bare, check]
      refine (annotates_check hcx left hΓ he.1.2).bind fun r hr => ?_
      refine (annotates_check hcx right hΓ he.2).bind fun r₁ h₁ => ?_
      refine (Running.of_steady (Context.steady_checkOperands _ _ _ _)).bind fun _ _ => ?_
      refine .annotated (hcx.binaryType op) (fun _ => rfl) ?_ (by rw [Expr.occurrences])
        (List.forall_mem_append.mpr ⟨hr.recorded, h₁.recorded⟩)
      rw [Expr.bare, Expr.bare, hr.bare, h₁.bare]
      rfl
  | .unary m op operand, scope, hΓ, he => by
      simp only [Expr.isWritten, Bool.and_eq_true] at he
      rw [Expr.bare, check]
      refine (annotates_check hcx operand hΓ he.2).bind fun r hr => ?_
      refine (Running.of_steady (Context.steady_checkOperand _ _ _)).bind fun _ _ => ?_
      refine .annotated (hcx.unaryType op) (fun _ => rfl) ?_ (by rw [Expr.occurrences]) hr.recorded
      rw [Expr.bare, Expr.bare, hr.bare]
      rfl
  | .int m token, _, _, _ => by
      rw [Expr.bare, check]
      refine .annotated (by decide) (fun _ => rfl) ?_ (by rw [Expr.occurrences]) (by simp)
      rw [Expr.bare, Expr.bare]
      rfl
  | .string m value, _, _, _ => by
      rw [Expr.bare, check]
      refine .annotated (by decide) (fun _ => rfl) ?_ (by rw [Expr.occurrences]) (by simp)
      rw [Expr.bare, Expr.bare]
      rfl
  | .bool m value, _, _, _ => by
      rw [Expr.bare, check]
      refine .annotated (by decide) (fun _ => rfl) ?_ (by rw [Expr.occurrences]) (by simp)
      rw [Expr.bare, Expr.bare]
      rfl
  | .new m type, _, _, _ => by
      have hform : ∀ t, t ≠ .anonymous →
          Running (typed m.bare t fun m => .new m type.spelled) (Annotates (.new m type)) := by
        intro t ht
        refine .annotated ht (fun _ => rfl) ?_ (by rw [Expr.occurrences]) (by simp)
        rw [Expr.bare, Expr.bare]
        rfl
      rw [Expr.bare, check]
      split
      · exact hform _ type.spelled_ne
      · exact .illTyped (hform _ (by decide))
  | .object m name, scope, hΓ, _ => by
      have hform : ∀ t, t ≠ .anonymous →
          Running (typed m.bare t fun m => .object m name.spelled)
            (Annotates (.object m name)) := by
        intro t ht
        refine .annotated ht (fun _ => rfl) ?_ (by rw [Expr.occurrences]) (by simp)
        rw [Expr.bare, Expr.bare]
        rfl
      rw [Expr.bare, check]
      split
      · rename_i t ht
        exact hform t (hΓ _ t ht)
      · exact .illTyped (hform _ (by decide))
termination_by structural e => e

theorem annotates_checkAll (hcx : cx.Avoids .anonymous) : ∀ (es : List Expr)
    {scope : Scope Name Name}, ScopeAvoids scope .anonymous → Expr.allWritten es = true →
    Running (checkAll cx scope (Expr.bareAll es)) (AnnotatesAll es)
  | [], _, _, _ => by
      rw [Expr.bareAll, checkAll]
      refine .pure ⟨by simp, by simp, rfl, ?_⟩
      rw [List.map_nil, Expr.occurrencesAll]
      simp
  | e :: es, scope, hΓ, he => by
      simp only [Expr.allWritten, Bool.and_eq_true] at he
      rw [Expr.bareAll, checkAll]
      refine (annotates_check hcx e hΓ he.1).bind fun r hr => ?_
      refine (annotates_checkAll hcx es hΓ he.2).bind fun rs hrs => .pure ⟨?_, ?_, ?_, ?_⟩
      · exact List.forall_mem_cons.mpr ⟨hr.type_ne, hrs.type_ne⟩
      · exact List.forall_mem_cons.mpr ⟨hr.present, hrs.present⟩
      · rw [List.map_cons, Expr.bareAll, Expr.bareAll, hr.bare, hrs.bare]
      · rw [List.map_cons, Expr.occurrencesAll]
        exact List.forall_mem_append.mpr ⟨hr.recorded, hrs.recorded⟩
termination_by structural es => es

theorem annotates_checkBranches (hcx : cx.Avoids .anonymous) (guards : List Name)
    (before : Option Name) : ∀ (bs : List Branch) {scope : Scope Name Name},
    ScopeAvoids scope .anonymous → Branch.allWritten bs = true →
    (∀ t ∈ before, t ≠ .anonymous) →
    Running (checkBranches cx scope guards before (Branch.bareAll bs)) (AnnotatesBranches guards bs)
  | [], _, _, _, hbefore => by
      rw [Branch.bareAll, checkBranches]
      refine .pure ⟨hbefore, rfl, fun guards' _ => ?_⟩
      rw [Branch.occurrencesAll]
      simp
  | .mk span name type body :: bs, scope, hΓ, he, hbefore => by
      simp only [Branch.allWritten, Bool.and_eq_true] at he
      rw [Branch.bareAll, checkBranches]
      split
      · -- the body stays as it was read, without types
        rename_i hguard
        refine (Running.of_steady (Steady.report _ _)).bind fun _ _ => ?_
        refine (annotates_checkBranches hcx guards before bs hΓ he.2 hbefore).bind
          fun r hr => .pure ⟨hr.type_ne, ?_, fun guards' hg => ?_⟩
        · rw [Branch.bareAll, Branch.bareAll, hr.bare, Expr.bare_bare]
          rfl
        · have hmem : type.spelled ∈ guards' := (hg _).mpr hguard
          rw [Branch.occurrencesAll, decide_eq_true hmem, Bool.or_true]
          refine List.forall_mem_append.mpr ⟨fun q hq => ?_, hr.recorded _ fun g => ?_⟩
          · obtain ⟨hflag, htype⟩ := body.bare_occurrences q hq
            exact ⟨fun _ => hflag, fun _ => htype⟩
          · rw [List.mem_cons, hg]
            exact or_iff_right_of_imp fun h => h ▸ hguard
      · rename_i hguard
        refine (Running.of_steady (cx.steady_checkGuard _ _ _)).bind fun _ _ => ?_
        refine (annotates_check hcx body (hΓ.bind _ type.spelled_ne) he.1).bind fun r hr => ?_
        refine (annotates_checkBranches hcx (type.spelled :: guards) _ bs hΓ he.2
          (by simpa using hcx.joinAfter hbefore hr.type_ne)).bind
          fun rs hrs => .pure ⟨hrs.type_ne, ?_, fun guards' hg => ?_⟩
        · rw [Branch.bareAll, Branch.bareAll, hr.bare, hrs.bare]
          rfl
        · have hmem : type.spelled ∉ guards' := fun h => hguard ((hg _).mp h)
          rw [Branch.occurrencesAll, decide_eq_false hmem, Bool.or_false]
          refine List.forall_mem_append.mpr ⟨hr.recorded, hrs.recorded _ fun g => ?_⟩
          rw [List.mem_cons, List.mem_cons, hg]
termination_by structural bs => bs

end

end Typing

end Cool
