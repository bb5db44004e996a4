import Cool.Proofs.Members.Nearest
import Cool.Proofs.Typing.Agreement

/-! Narrower types. Where an expression gets a type below the one it had, or that of ill-typed
expressions, the rules for what is around it still hold, except the one for equality tests. -/

namespace Cool.Typing

/-- Where narrower types do no harm: nothing lies below the classes of constants, and an heir has
the methods of its ancestors with their signatures. -/
structure Context.Narrowable (cx : Context) : Prop extends cx.Proper where
  parent_not_primitive : ∀ {c q : Name}, cx.hierarchy.parent? c = some q → q.isPrimitive = false
  current_not_primitive : cx.current.isPrimitive = false
  inherits_methods : ∀ {c d : Name}, cx.hierarchy.Inherits c d → ∀ f ∈ cx.members.methods d d,
    ∃ g ∈ cx.members.methods c c, g.name = f.name ∧
      g.params.map (·.type) = f.params.map (·.type) ∧ g.result = f.result

theorem narrowable_of_build {p : Program} {ms : Members}
    (hb : Members.build (Hierarchy.build p).1 = .ok (ms, []))
    (herr : Name.errType ∉ ms.hierarchy.names) {current : Name}
    (hcur : current ∈ ms.hierarchy.names) (hprim : current.isPrimitive = false) :
    (⟨ms, current⟩ : Context).Narrowable := by
  have hr := Hierarchy.rooted_of_valid (Members.valid_of_build hb)
  refine ⟨⟨installed_of_build hb hcur, herr⟩, Members.parent_not_primitive_of_build hb, hprim,
    fun {c d} hcd f hf => ?_⟩
  rw [Context.hierarchy, Members.hierarchy_of_build hr hb] at hcd
  obtain ⟨k, hk⟩ := List.mem_iff_getElem?.mp hf
  obtain ⟨g, hg, hinterface⟩ := Members.getElem?_of_inherits hr hb hcd hk
  simp only [MethodEntry.interface, Prod.mk.injEq] at hinterface
  exact ⟨g, List.mem_of_getElem? hg, hinterface.1, hinterface.2.2.2.1, hinterface.2.2.2.2.1⟩

/-- What became of a type: it is that of ill-typed expressions or conforms to the one before, and it
is the same if the expression holds the given equality test. -/
structure Context.Keeps (cx : Context) (test? : Option Span) (found before : Name) : Prop where
  isType : cx.IsType before
  narrows : found = .errType ∨ cx.Conforms found before
  exact : test?.isSome = true → found = before

variable {cx : Context} {test? : Option Span} {t t' u : Name}

namespace Context.Keeps

theorem refl (ht : cx.IsType t) : cx.Keeps test? t t :=
  ⟨ht, .inr (Hierarchy.Conforms.refl ht), fun _ => rfl⟩

/-- Outside of equality tests an expression may become ill-typed. -/
theorem errType (ht : cx.IsType t) : cx.Keeps none .errType t :=
  ⟨ht, .inl rfl, nofun⟩

/-- The result of a call is narrower if the receiver is. -/
theorem callType {f g : MethodEntry} (hk : cx.Keeps test? t' t) (hresult : cx.IsType f.result)
    (hsame : g.result = f.result) :
    cx.Keeps test? (Context.callType g t') (Context.callType f t) := by
  rw [Context.callType, Context.callType, hsame]
  split
  · exact hk
  · exact .refl hresult

end Context.Keeps

/-- Parameters count only through their types. -/
theorem Context.ArgumentsConform.of_types {params params' : List Parameter}
    {rs : List (Expr × Name)} (hc : cx.ArgumentsConform params rs)
    (htypes : params'.map (·.type) = params.map (·.type)) : cx.ArgumentsConform params' rs := by
  have hmap : ∀ ps : List Parameter, cx.ArgumentsConform ps rs ↔
      List.Forall₂ (fun t r => cx.conforms r.2 t = true) (ps.map (·.type)) rs := by
    intro ps
    rw [List.forall₂_map_left_iff]
    rfl
  rwa [hmap, htypes, ← hmap]

theorem Context.conforms_errType (cx : Context) (u : Name) : cx.conforms .errType u = true := by
  simp [Context.conforms, Hierarchy.conforms]

namespace Context.Narrowable

variable (hcx : cx.Narrowable)

include hcx

/-- What becomes ill-typed holds no equality test. -/
theorem test?_eq_none (hk : cx.Keeps test? .errType t) : test? = none := by
  cases htest : test? with
  | none => rfl
  | some span =>
      have heq := hk.exact (by rw [htest]; rfl)
      exact absurd heq.symm (hcx.ne_errType hk.isType)

/-- Narrower types conform to whatever the types before did. -/
theorem conforms (hk : cx.Keeps test? t' t) (hu : cx.IsType u) (hc : cx.conforms t u = true) :
    cx.conforms t' u = true := by
  rcases hk.narrows with rfl | hnarrow
  · exact cx.conforms_errType u
  · rw [hcx.conforms_iff hk.isType hu] at hc
    exact (hcx.conforms_iff hnarrow.isType_left hu).mpr (hnarrow.trans hcx.rooted hc)

/-- Nothing else conforms to a class of constants. -/
theorem eq_of_conforms_primitive (hu : u.isPrimitive = true) (hc : cx.Conforms t u) : t = u := by
  have hleaf : ∀ {c : Name}, cx.hierarchy.Inherits c u → c = u := by
    intro c hcu
    induction hcu using Relation.ReflTransGen.head_induction_on with
    | refl => rfl
    | head hparent _ ih =>
        subst ih
        rw [hcx.parent_not_primitive hparent] at hu
        cases hu
  cases hc with
  | self => rfl
  | ofSelf hcu =>
      have hcur := hcx.current_not_primitive
      rw [hleaf hcu, hu] at hcur
      cases hcur
  | ofClass _ hcu => exact hleaf hcu

/-- So an expression of a class of constants stays one or becomes ill-typed. -/
theorem isOr (hk : cx.Keeps test? t' t) (hu : u.isPrimitive = true)
    (hor : Context.isOr u t = true) : Context.isOr u t' = true := by
  obtain rfl := (hcx.isOr_iff hk.isType).mp hor
  refine decide_eq_true ?_
  rcases hk.narrows with herr | hnarrow
  · exact .inr herr
  · exact .inl (hcx.eq_of_conforms_primitive hu hnarrow)

theorem isType_join (ht : cx.IsType t) (hu : cx.IsType u) : cx.IsType (cx.join t u) :=
  hcx.isType_of_isJoin (hcx.join_isJoin ht hu)

/-- Joins of narrower types are narrower. -/
theorem keeps_join {u' : Name} (ht : cx.Keeps test? t' t) (hu : cx.Keeps test? u' u) :
    cx.Keeps test? (cx.join t' u') (cx.join t u) := by
  have hj := hcx.join_isJoin ht.isType hu.isType
  have htj : cx.Conforms t (cx.join t u) := hj.upper t List.mem_cons_self
  have huj : cx.Conforms u (cx.join t u) := hj.upper u (List.mem_cons_of_mem _ List.mem_cons_self)
  refine ⟨hcx.isType_join ht.isType hu.isType, ?_, fun h => by rw [ht.exact h, hu.exact h]⟩
  rcases ht.narrows with rfl | ht'
  · -- an ill-typed part leaves the join to the other one
    have hjoin : cx.join .errType u' = u' := by simp [Context.join, Hierarchy.join]
    rw [hjoin]
    exact hu.narrows.imp_right fun hu' => hu'.trans hcx.rooted huj
  · rcases hu.narrows with rfl | hu'
    · have hjoin : cx.join t' .errType = t' := by
        simp [Context.join, Hierarchy.join, hcx.ne_errType ht'.isType_left]
      rw [hjoin]
      exact .inr (ht'.trans hcx.rooted htj)
    · refine .inr ((hcx.join_isJoin ht'.isType_left hu'.isType_left).least _ fun v hv => ?_)
      rcases List.mem_pair.mp hv with rfl | rfl
      · exact ht'.trans hcx.rooted htj
      · exact hu'.trans hcx.rooted huj

theorem isType_joinAfter {before : Option Name} (hbefore : ∀ b, before = some b → cx.IsType b)
    (ht : cx.IsType t) : cx.IsType (cx.joinAfter before t) := by
  cases before with
  | none => exact ht
  | some b => exact hcx.isType_join (hbefore b rfl) ht

theorem keeps_joinAfter {before : Option Name} (hbefore : ∀ b, before = some b → cx.IsType b)
    (ht : cx.Keeps test? t' t) :
    cx.Keeps test? (cx.joinAfter before t') (cx.joinAfter before t) := by
  cases before with
  | none => exact ht
  | some b => exact hcx.keeps_join (.refl (hbefore b rfl)) ht

/-! ## Calls -/

/-- A narrower receiver has the method that is called, with the same signature. -/
theorem exists_method? {x : Name} {f : MethodEntry} (ht : cx.IsType t) (hc : cx.Conforms t' t)
    (hf : cx.method? t x = some f) :
    ∃ g, cx.method? t' x = some g ∧ g.params.map (·.type) = f.params.map (·.type) ∧
      g.result = f.result := by
  obtain ⟨hoffers, rfl⟩ := (hcx.method?_eq_some_iff ht).mp hf
  obtain ⟨g, hg, hname, hparams, hresult⟩ := hcx.inherits_methods (hc.inherits hcx.rooted) f hoffers
  exact ⟨g, (hcx.method?_eq_some_iff hc.isType_left).mpr ⟨hg, hname⟩, hparams, hresult⟩

/-- Narrower arguments can be passed for the same parameters. -/
theorem argumentsConform {params : List Parameter} {rs rs' : List (Expr × Name)}
    (hparams : ∀ p ∈ params, p.type ∈ cx.hierarchy.names)
    (hk : List.Forall₂ (fun r' r => cx.Keeps test? r'.2 r.2) rs' rs)
    (hc : cx.ArgumentsConform params rs) : cx.ArgumentsConform params rs' := by
  induction hk generalizing params with
  | nil => exact hc
  | cons hr _ ih =>
      cases hc with
      | cons hp hps =>
          obtain ⟨hmem, hrest⟩ := List.forall_mem_cons.mp hparams
          exact .cons (hcx.conforms hr (.inr hmem) hp) (ih hrest hps)

end Context.Narrowable

/-! ## Sequences -/

theorem Context.Narrowable.keeps_lastType (hcx : cx.Narrowable) {rs rs' : List (Expr × Name)}
    (hk : List.Forall₂ (fun r' r => cx.Keeps test? r'.2 r.2) rs' rs) :
    cx.Keeps test? (lastType rs') (lastType rs) := by
  have hgeneral : ∀ d' d, cx.Keeps test? d' d →
      cx.Keeps test? ((rs'.map (·.2)).getLastD d') ((rs.map (·.2)).getLastD d) := by
    induction hk with
    | nil => exact fun d' d hd => hd
    | cons hr _ ih =>
        intro d' d _
        rw [List.map_cons, List.map_cons, List.getLastD_cons, List.getLastD_cons]
        exact ih _ _ hr
  rw [lastType_eq, lastType_eq]
  exact hgeneral _ _ (.refl (hcx.isType_builtin rfl))

end Cool.Typing
